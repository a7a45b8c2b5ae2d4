import InoBlocks.Proofs.Code.CodedReadBack
import InoBlocks.Proofs.Sketch.Quoting
import InoBlocks.Proofs.Sketch.SafeNames

/-!
# Canonical values

The blocks that have a value and say what they say in one way only: numbers as they are read,
names that need no change, texts that need no escape, and operators and calls with all their inputs
filled.  Each is the block of an expression whose spelling the blocks keep, so its code is read
back as that expression, and that becomes the block again.
-/

namespace InoBlocks

open Word Code

/-! ## Numbers -/

/-- A number as blocks and sketches both spell it: it begins with a digit, and with a zero only if
no digit follows; it has at most one point, and is not beyond all doubles. -/
structure IsNumeral (raw : String) : Prop where
  digits : ∀ c ∈ raw.toList, c.isDigit = true ∨ c = '.'
  points : raw.toList.count '.' ≤ 1
  front : raw.toList.head?.any Char.isDigit = true
  leading : Number.hasLeadingZero raw.toList = false
  finite : (Number.double? raw).any Binary64.isFinite = true

instance (raw : String) : Decidable (IsNumeral raw) :=
  decidable_of_iff
    ((∀ c ∈ raw.toList, c.isDigit = true ∨ c = '.') ∧ raw.toList.count '.' ≤ 1 ∧
      raw.toList.head?.any Char.isDigit = true ∧ Number.hasLeadingZero raw.toList = false ∧
      (Number.double? raw).any Binary64.isFinite = true)
    ⟨fun ⟨h₁, h₂, h₃, h₄, h₅⟩ => ⟨h₁, h₂, h₃, h₄, h₅⟩, fun ⟨h₁, h₂, h₃, h₄, h₅⟩ =>
      ⟨h₁, h₂, h₃, h₄, h₅⟩⟩

theorem IsNumeral.firm {raw : String} (h : IsNumeral raw) : Word.Firm ⟨.number, raw⟩ := by
  obtain ⟨c, hhead, hc⟩ := (Option.any_eq_true _ _).mp h.front
  have hfirm := firm_number_of_count h.digits h.points hhead hc
  rwa [String.ofList_toList] at hfirm

theorem IsNumeral.exists_double? {raw : String} (h : IsNumeral raw) :
    ∃ x, Number.double? raw = some x ∧ x.isFinite = true :=
  (Option.any_eq_true _ _).mp h.finite

/-! ## Canonical blocks -/

/-- The words that have a meaning of their own as values. -/
def valueWords : List String :=
  ["true", "false", "HIGH", "LOW", "INPUT", "OUTPUT", "INPUT_PULLUP"]

namespace Block

def isAtMost (limit : Nat) (b : Block) : Bool :=
  b.type != "math_number" ||
    ((b.field? "NUM").bind Number.double?).any fun x => !x.gtDyadic limit 0

/-- Whether a block stands for a pin as it is: it is no text, and no number beyond the pins. -/
def isPin (b : Block) : Bool :=
  b.type != "text" && b.isAtMost 53

/-- Whether a block binds tighter than a comparison, where no parentheses are put around it. -/
def isTight (b : Block) : Bool :=
  b.type != "logic_compare" && b.type != "logic_operation"

theorem isAtMost_number {raw : String} {x : Binary64} (hx : Number.double? raw = some x)
    (limit : Nat) : (Block.number raw).isAtMost limit = !x.gtDyadic limit 0 := by
  change ((some raw).bind Number.double?).any (fun x => !x.gtDyadic limit 0) = _
  rw [Option.bind_some, hx]
  rfl

/-- A block that has a value and says it in the one way in which reading code says it. -/
inductive IsCanonicalValue : Block → Prop where
  | number {raw : String} : IsNumeral raw → IsCanonicalValue (.number raw)
  | variableGet {name : String} : IsSafe name → isAnalogPin name = false →
      IsCanonicalValue (.variableGet name)
  | truth (value : Bool) : IsCanonicalValue (.truth value)
  | text {text : String} : escapeText text.toList = text.toList → text ∉ valueWords →
      IsCanonicalValue (.ofTexts "text" [("TEXT", text)] [])
  | infixed {symbol type name : String} {a b : Block} :
      operator? symbol = some (type, name) → IsCanonicalValue a → IsCanonicalValue b →
      IsCanonicalValue (.ofTexts type [("OP", name)] [.value "A" a, .value "B" b])
  | negation {a : Block} : IsCanonicalValue a →
      IsCanonicalValue (.ofTexts "logic_negate" [] [.value "BOOL" a])
  | call {id type : String} {inputs : List (String × Block)} :
      Blocks.valueCall? id = some (type, inputs.map Prod.fst) →
      (∀ i ∈ inputs, IsCanonicalValue i.2) → (∀ i ∈ inputs, i.1 = "PIN" → i.2.isPin = true) →
      IsCanonicalValue (.ofTexts type [] (inputs.map fun i => .value i.1 i.2))
  | query {method type : String} : Blocks.serialQuery? method = some type →
      IsCanonicalValue (.ofTexts type [] [])

end Block

/-! ## The expressions of canonical blocks -/

namespace Expr

/-- An expression becomes a block, and blocks keep its spelling. -/
structure Represents (e : Expr) (b : Block) : Prop where
  proper : e.Proper
  keeps : ∀ p ∈ e.parts, p.keepsSpelling = true
  block : Blocks.expression? e = some b

namespace Represents

variable {e : Expr} {b : Block}

theorem gives (h : e.Represents b) : Gives (part b).value e.coded [] [] := by
  obtain ⟨b', hb', hgives⟩ := h.proper.givesCoded
  rw [h.block, Option.some.injEq] at hb'
  exact hb' ▸ hgives

theorem written (h : e.Represents b) : e.Written :=
  h.proper.written h.keeps

theorem value? (h : e.Represents b) : Blocks.value? e = .ok (some b) := by
  rw [Blocks.value?, Blocks.checked, h.proper.sourceFault?_eq_none, h.block]
  rfl

theorem valueIn (h : e.Represents b) (name : String) :
    Blocks.valueIn name e = .ok (.value name b) := by
  rw [Blocks.valueIn, h.value?]
  rfl

end Represents

theorem represents_number {raw : String} (h : IsNumeral raw) :
    ∃ x, Number.double? raw = some x ∧
      (Expr.literal default (.number x) raw).Represents (.number raw) := by
  obtain ⟨x, hx, hfinite⟩ := h.exists_double?
  refine ⟨x, hx, .number default hx h.firm, ?_, rfl⟩
  simp [parts, keepsSpelling, hfinite, h.leading]

theorem represents_name {name : String} (h : IsSafe name) (hpin : isAnalogPin name = false) :
    (Expr.name default name).Represents (.variableGet name) := by
  refine ⟨.name default hpin h.firm, ?_, rfl⟩
  simp only [parts, List.mem_singleton, forall_eq, keepsSpelling, beq_iff_eq]
  exact h

theorem valueWords_spec : ∀ word ∈ valueWords,
    (TokenKind.ofWord word).namesValue = true ∧ word.toList.head?.any Text.isNameStart = true ∧
      word.toList.tail.all Text.isNameChar = true ∧ isQuoted word = false := by
  decide

/-- A word with a meaning of its own is written as it is. -/
theorem proper_word {word : String} (h : word ∈ valueWords) :
    (Expr.literal default (.text word) word).Proper ∧
      ∀ p ∈ (Expr.literal default (.text word) word).parts, p.keepsSpelling = true := by
  obtain ⟨hvalue, hhead, htail, hquoted⟩ := valueWords_spec word h
  refine ⟨.constant default hvalue (firm_ofWord rfl hhead htail), ?_⟩
  simp [parts, keepsSpelling, hquoted]

theorem represents_truth (value : Bool) :
    (Expr.literal default (.text (if value then "true" else "false"))
      (if value then "true" else "false")).Represents (.truth value) := by
  obtain ⟨hproper, hkeeps⟩ := proper_word
    (show (if value then "true" else "false") ∈ valueWords by cases value <;> decide)
  refine ⟨hproper, hkeeps, ?_⟩
  cases value <;> rfl

theorem represents_text {text : String} (hescape : escapeText text.toList = text.toList)
    (hword : text ∉ valueWords) :
    (Expr.literal default (.text text) (quoteText text)).Represents
      (.ofTexts "text" [("TEXT", text)] []) := by
  have hhead : (quoteText text).toList.head? = some '"' := by simp [quoteText]
  simp only [valueWords, List.mem_cons, List.not_mem_nil, or_false, not_or] at hword
  have hproper := Proper.string default (firm_quoteText text)
  rw [unquote_quoteText, hescape, String.ofList_toList] at hproper
  refine ⟨hproper, ?_, ?_⟩
  · simp [parts, keepsSpelling, hword]
  · rw [Blocks.expression?, Blocks.literal]
    simp [Blocks.isState, Blocks.isMode, hhead, hword]

/-- An operator between operands has a kind of its own. -/
theorem exists_kind_of_operator? {op type name : String}
    (h : Block.operator? op = some (type, name)) :
    ∃ kind : TokenKind, kind.symbol? = some op ∧ 2 ≤ kind.joins ∧ kind.joins ≤ 7 ∧
      (type ≠ "logic_compare" → type ≠ "logic_operation" → 6 ≤ kind.joins) := by
  have hkinds : ∀ table ∈ Block.operatorTables, ∀ entry ∈ table.2,
      ((TokenKind.all.find? fun kind => kind.symbol? == some entry.1).any fun kind =>
        kind.symbol? == some entry.1 && decide (2 ≤ kind.joins) && decide (kind.joins ≤ 7) &&
          (table.1 == "logic_compare" || table.1 == "logic_operation" ||
            decide (6 ≤ kind.joins))) = true := by
    decide
  obtain ⟨table, htable, hname⟩ := List.exists_of_findSome?_eq_some h
  obtain ⟨name', hlookup, hpair⟩ := Option.map_eq_some_iff.mp hname
  obtain ⟨front, back, hsplit, -⟩ := List.lookup_eq_some_iff.mp hlookup
  have hentry : (op, name') ∈ table.2 := by rw [hsplit]; simp
  obtain ⟨kind, -, hkind⟩ := (Option.any_eq_true _ _).mp (hkinds table htable _ hentry)
  simp only [Bool.and_eq_true, Bool.or_eq_true, beq_iff_eq, decide_eq_true_eq] at hkind
  obtain ⟨⟨⟨hsymbol, hlow⟩, hhigh⟩, htight⟩ := hkind
  cases hpair
  exact ⟨kind, hsymbol, hlow, hhigh, fun hcompare hlogic =>
    htight.resolve_left (not_or.mpr ⟨hcompare, hlogic⟩)⟩

theorem represents_infixed {op type name : String} (hop : Block.operator? op = some (type, name))
    {left right : Expr} {a b : Block} (hleft : left.Represents a) (hright : right.Represents b) :
    (Expr.binary default op left right).Represents
      (.ofTexts type [("OP", name)] [.value "A" a, .value "B" b]) := by
  obtain ⟨kind, hsymbol, hlow, hhigh, -⟩ := exists_kind_of_operator? hop
  refine ⟨.binary default hlow hhigh hsymbol hleft.proper hright.proper, ?_, ?_⟩
  · intro p hp
    rcases List.mem_cons.mp hp with rfl | hp
    · rfl
    · rcases List.mem_append.mp hp with hp | hp
      · exact hleft.keeps p hp
      · exact hright.keeps p hp
  · rw [Blocks.expression?, hop, hleft.block, hright.block]
    rfl

theorem represents_negation {operand : Expr} {a : Block} (h : operand.Represents a) :
    (Expr.unary default "!" operand true).Represents
      (.ofTexts "logic_negate" [] [.value "BOOL" a]) := by
  refine ⟨.leading default (show ExprGrammar.isLeading .logicalNot = true from rfl) rfl h.proper,
    ?_, ?_⟩
  · intro p hp
    rcases List.mem_cons.mp hp with rfl | hp
    · rfl
    · exact h.keeps p hp
  · rw [Blocks.expression?, if_pos (by simp), h.block]
    rfl

/-- The functions that are called for a value have names that need no change. -/
theorem valueCall?_name {id : String} {block : String × List String}
    (h : Blocks.valueCall? id = some block) : IsSafe id ∧ isAnalogPin id = false := by
  unfold Blocks.valueCall? at h
  split at h <;> first
    | exact ⟨by decide +kernel, by decide⟩
    | cases h

/-- Blocks in the inputs of given names are the blocks of arguments. -/
theorem exists_arguments {inputs : List (String × Block)}
    (h : ∀ i ∈ inputs, ∃ e : Expr, e.Represents i.2 ∧ (i.2.isPin = true → e.isPlainPin = true)) :
    ∃ es : List Expr, es.length = inputs.length ∧
      (∀ e ∈ es, ∃ i ∈ inputs, e.Represents i.2 ∧ (i.2.isPin = true → e.isPlainPin = true)) ∧
      Blocks.inputs (inputs.map Prod.fst) es = (inputs.map fun i => .value i.1 i.2) ∧
      Blocks.valuesIn (inputs.map Prod.fst) es = .ok (inputs.map fun i => .value i.1 i.2) := by
  induction inputs with
  | nil => exact ⟨[], rfl, by simp, rfl, rfl⟩
  | cons i inputs ih =>
      obtain ⟨e, he, hpin⟩ := h i List.mem_cons_self
      obtain ⟨es, hlength, hes, hinputs, hvalues⟩ :=
        ih fun j hj => h j (List.mem_cons_of_mem i hj)
      refine ⟨e :: es, by rw [List.length_cons, hlength, List.length_cons], ?_, ?_, ?_⟩
      · intro e' he'
        rcases List.mem_cons.mp he' with rfl | he'
        · exact ⟨i, List.mem_cons_self, he, hpin⟩
        · obtain ⟨j, hj, hrest⟩ := hes e' he'
          exact ⟨j, List.mem_cons_of_mem i hj, hrest⟩
      · rw [List.map_cons, Blocks.inputs, hinputs, he.block]
        rfl
      · rw [List.map_cons, Blocks.valuesIn, he.valueIn, hvalues]
        rfl

theorem represents_call {id type : String} {inputs : List (String × Block)} {es : List Expr}
    (hcall : Blocks.valueCall? id = some (type, inputs.map Prod.fst))
    (hlength : es.length = inputs.length)
    (hes : ∀ e ∈ es, ∃ i ∈ inputs, e.Represents i.2 ∧ (i.2.isPin = true → e.isPlainPin = true))
    (hpins : ∀ i ∈ inputs, i.1 = "PIN" → i.2.isPin = true)
    (hinputs : Blocks.inputs (inputs.map Prod.fst) es = (inputs.map fun i => .value i.1 i.2)) :
    (Expr.call default (.name default id) es).Represents
      (.ofTexts type [] (inputs.map fun i => .value i.1 i.2)) := by
  obtain ⟨hsafe, hname⟩ := valueCall?_name hcall
  have hcallee := represents_name hsafe hname
  refine ⟨.call default hcallee.proper fun e he => ?_, ?_, ?_⟩
  · obtain ⟨i, -, hrepresents, -⟩ := hes e he
    exact hrepresents.proper
  · intro p hp
    rcases List.mem_cons.mp hp with rfl | hp
    · -- Only a call that asks for a pin looks at its argument, and its input is one for pins.
      cases hpin : pinDefault? id with
      | none =>
          unfold keepsSpelling
          split <;> simp_all
      | some default =>
          obtain ⟨-, -, -, -, ⟨_, -, hnone, -⟩ | ⟨_, hnames, -, -⟩⟩ :=
            template?_of_valueCall? hcall
          · rw [hnone] at hpin
            cases hpin
          · obtain ⟨i, rfl, hi⟩ := List.map_eq_singleton_iff.mp hnames
            obtain ⟨e, rfl⟩ := List.length_eq_one_iff.mp hlength
            obtain ⟨j, hj, -, hplain⟩ := hes e (List.mem_singleton_self e)
            obtain rfl := List.mem_singleton.mp hj
            rw [keepsSpelling, hplain (hpins j hj hi), Bool.or_true]
    · rcases List.mem_append.mp hp with hp | hp
      · exact hcallee.keeps p hp
      · rw [partsAll_eq_flatMap] at hp
        obtain ⟨e, he, hp⟩ := List.mem_flatMap.mp hp
        obtain ⟨i, -, hrepresents, -⟩ := hes e he
        exact hrepresents.keeps p hp
  · simp only [Blocks.expression?, hcall, List.length_map, hlength, if_true, hinputs]

theorem represents_query {method type : String} (h : Blocks.serialQuery? method = some type) :
    (Expr.call default (.member default (.name default "Serial") method) []).Represents
      (.ofTexts type [] []) := by
  have hserial := represents_name (show IsSafe "Serial" by decide +kernel) (by decide)
  have hmethod : Word.Firm ⟨.identifier, method⟩ := by
    unfold Blocks.serialQuery? at h
    split at h <;> first
      | exact firm_ofWord (by decide) (by decide) (by decide)
      | cases h
  refine ⟨.call default (.member default hmethod hserial.proper) (by simp), ?_, ?_⟩
  · intro p hp
    simp only [parts, partsAll, List.append_nil, List.mem_cons, List.not_mem_nil, or_false] at hp
    rcases hp with rfl | rfl | rfl
    · rfl
    · rfl
    · exact hserial.keeps _ (by simp [parts])
  · simp only [Blocks.expression?, Blocks.serialMethod?, Option.bind_some, h]

end Expr

/-- A canonical block is the block of an expression that is written as it is.  A pin among them is
taken as it is, and what is no comparison and no connective binds tighter than a comparison. -/
theorem Block.IsCanonicalValue.exists_represents {b : Block} (h : b.IsCanonicalValue) :
    ∃ e : Expr, e.Represents b ∧ (b.isPin = true → e.isPlainPin = true) ∧
      (b.isTight = true → 6 ≤ e.binding) := by
  have hprimary : 6 ≤ Binding.primary := by decide
  have htrailing : 6 ≤ Binding.trailing := by decide
  have hleading : 6 ≤ Binding.leading := by decide
  induction h with
  | @number raw h =>
      obtain ⟨x, hx, hrepresents⟩ := Expr.represents_number h
      refine ⟨_, hrepresents, fun hpin => ?_, fun _ => hprimary⟩
      rw [isPin, Bool.and_eq_true, isAtMost_number hx] at hpin
      exact hpin.2
  | variableGet hname hpin =>
      exact ⟨_, Expr.represents_name hname hpin, fun _ => rfl, fun _ => hprimary⟩
  | truth value =>
      refine ⟨_, Expr.represents_truth value, fun _ => ?_, fun _ => hprimary⟩
      cases value <;> decide
  | text hescape hword =>
      refine ⟨_, Expr.represents_text hescape hword, fun hpin => ?_, fun _ => hprimary⟩
      simp [isPin, ofTexts, Block.type] at hpin
  | infixed hop ha hb iha ihb =>
      obtain ⟨left, hleft, -⟩ := iha
      obtain ⟨right, hright, -⟩ := ihb
      refine ⟨_, Expr.represents_infixed hop hleft hright, fun _ => rfl, fun htight => ?_⟩
      obtain ⟨kind, hsymbol, hlow, hhigh, hbinds⟩ := Expr.exists_kind_of_operator? hop
      rw [Expr.binding, TokenKind.ofOperator_of_symbol? hsymbol (by omega) hhigh]
      simp only [isTight, Bool.and_eq_true, bne_iff_ne] at htight
      exact hbinds htight.1 htight.2
  | negation ha iha =>
      obtain ⟨operand, hoperand, -⟩ := iha
      exact ⟨_, Expr.represents_negation hoperand, fun _ => rfl, fun _ => hleading⟩
  | call hcall hvalues hpins ih =>
      obtain ⟨es, hlength, hes, hinputs, -⟩ := Expr.exists_arguments fun i hi => by
        obtain ⟨e, he, hpin, -⟩ := ih i hi
        exact ⟨e, he, hpin⟩
      exact ⟨_, Expr.represents_call hcall hlength hes hpins hinputs, fun _ => rfl,
        fun _ => htrailing⟩
  | query h => exact ⟨_, Expr.represents_query h, fun _ => rfl, fun _ => htrailing⟩

end InoBlocks
