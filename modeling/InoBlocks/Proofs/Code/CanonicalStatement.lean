import InoBlocks.Proofs.Code.BlockTexts
import InoBlocks.Proofs.Code.Branches
import InoBlocks.Proofs.Code.CanonicalValue
import InoBlocks.Proofs.Code.FilledSketch
import InoBlocks.Proofs.Code.StatementTexts
import InoBlocks.Proofs.Sketch.Clause
import InoBlocks.Proofs.Sketch.Placeless

/-!
# Canonical statements

The statements that are made of canonical values and say what they say in one way only.  The code
of such a block is read as a statement of the grammar wherever it stands, and that becomes the
block again.  Here this is shown of the statements without bodies.
-/

namespace InoBlocks

open Word Code Grammar

namespace Block

/-! ## Names -/

def assigns? (b : Block) : Option String :=
  if b.type == "variables_set" then b.field? "VAR" else none

def declares? (b : Block) : Option String :=
  if b.type == "variables_declare" || b.type == "variables_define" then b.field? "VAR" else none

def collect (find? : Block → Option String) (bs : List Block) : List String :=
  (walkAll bs).filterMap find?

/-! ## Canonical blocks -/

/-- The inputs of the arms of a choice, from a number on. -/
def armInputs (number : Nat) : List (Block × List Block) → List Input
  | [] => []
  | (test, body) :: arms =>
      .value (Branch.condition number) test :: .chain (Branch.statements number) body ::
        armInputs (number + 1) arms

/-- The input of the last arm of a choice, if it has statements. -/
def otherwiseInputs (bs : List Block) : List Input :=
  if bs.isEmpty then [] else [.chain "ELSE" bs]

/-- A declaration of a variable, with a value or without one. -/
inductive IsDeclaration : Block → Prop where
  | declare {type name : String} : type ∈ Statement.variableTypes → IsSafe name →
      IsDeclaration (.ofTexts "variables_declare" [("TYPE", type), ("VAR", name)] [])
  | define {type name : String} {value : Block} : type ∈ Statement.variableTypes → IsSafe name →
      value.IsCanonicalValue →
      IsDeclaration
        (.ofTexts "variables_define" [("TYPE", type), ("VAR", name)] [.value "VALUE" value])

/-- A statement that says what it says in the one way in which reading code says it. -/
inductive IsCanonical : Block → Prop where
  | pinMode {pin : Block} {mode : String} : pin.IsCanonicalValue → pin.isPin = true →
      Blocks.isMode mode = true →
      IsCanonical (.ofTexts "arduino_pinmode" [("MODE", mode)] [.value "PIN" pin])
  | digitalWrite {pin : Block} {state : String} : pin.IsCanonicalValue → pin.isPin = true →
      Blocks.isState state = true →
      IsCanonical (.ofTexts "arduino_digitalwrite" [("STATE", state)] [.value "PIN" pin])
  | analogWrite {pin value : Block} : pin.IsCanonicalValue → pin.isPin = true →
      value.IsCanonicalValue → value.isAtMost 255 = true →
      IsCanonical (.ofTexts "arduino_analogwrite" [] [.value "PIN" pin, .value "VALUE" value])
  | delay {raw : String} : IsNumeral raw →
      IsCanonical (.ofTexts "arduino_delay" [("TIME", raw)] [])
  | delayMicroseconds {raw : String} : IsNumeral raw →
      IsCanonical (.ofTexts "arduino_delayMicroseconds" [("TIME", raw)] [])
  | serialBegin {baud : Block} : baud.IsCanonicalValue →
      IsCanonical (.ofTexts "arduino_serial_begin" [] [.value "BAUD" baud])
  | serialPrint (newline : Bool) {text : Block} : text.IsCanonicalValue →
      IsCanonical (.ofTexts "arduino_serial_print"
        [("MODE", if newline then "PRINTLN" else "PRINT")] [.value "TEXT" text])
  | randomSeed {seed : Block} : seed.IsCanonicalValue →
      IsCanonical (.ofTexts "arduino_random_seed" [] [.value "SEED" seed])
  | call {id type : String} {inputs : List (String × Block)} :
      id ≠ "digitalRead" → id ≠ "analogRead" →
      Blocks.valueCall? id = some (type, inputs.map Prod.fst) →
      (∀ i ∈ inputs, i.2.IsCanonicalValue) →
      IsCanonical (.ofTexts type [] (inputs.map fun i => .value i.1 i.2))
  | query {method type : String} : Blocks.serialQuery? method = some type →
      IsCanonical (.ofTexts type [] [])
  | set {name : String} {value : Block} : IsSafe name → isAnalogPin name = false →
      value.IsCanonicalValue →
      IsCanonical (.ofTexts "variables_set" [("VAR", name)] [.value "VALUE" value])
  | declaration {b : Block} : IsDeclaration b → IsCanonical b
  | choice {arms : List (Block × List Block)} {otherwise : List Block} : arms ≠ [] →
      (∀ a ∈ arms, a.1.IsCanonicalValue) → (∀ a ∈ arms, ∀ b ∈ a.2, IsCanonical b) →
      (∀ b ∈ otherwise, IsCanonical b) →
      IsCanonical (.ofTexts "controls_if" [] (armInputs 0 arms ++ otherwiseInputs otherwise))
  | repetition {times : Block} {body : List Block} : times.IsCanonicalValue →
      times.isTight = true → (∀ b ∈ body, IsCanonical b) →
      IsCanonical (.ofTexts "controls_repeat_ext" [] [.value "TIMES" times, .chain "DO" body])
  | whileLoop {test : Block} {body : List Block} : test.IsCanonicalValue →
      (∀ b ∈ body, IsCanonical b) →
      IsCanonical (.ofTexts "controls_whileUntil" [("MODE", "WHILE")]
        [.value "BOOL" test, .chain "DO" body])

/-! ## Values change no names -/

/-- What holds of the types of the blocks in inputs and of the block around them holds of all. -/
theorem forall_mem_walk {P : String → Prop} {type : String} {fields : List (String × String)}
    {is : List Input} (htype : P type) (his : ∀ i ∈ is, ∀ c ∈ i.walk, P c.type) :
    ∀ c ∈ (ofTexts type fields is).walk, P c.type := by
  rw [ofTexts, walk, List.forall_mem_cons]
  refine ⟨htype, ?_⟩
  induction is with
  | nil => simp [Input.walkAll]
  | cons i is ih =>
      obtain ⟨hi, his⟩ := List.forall_mem_cons.mp his
      rw [Input.walkAll, List.forall_mem_append]
      exact ⟨hi, ih his⟩

theorem operator?_rawTypes {op type name : String} (h : operator? op = some (type, name)) :
    type ∉ rawTypes := by
  have htables : ∀ table ∈ operatorTables, table.1 ∉ rawTypes := by decide
  obtain ⟨table, htable, hname⟩ := List.exists_of_findSome?_eq_some h
  obtain ⟨_, -, hpair⟩ := Option.map_eq_some_iff.mp hname
  cases hpair
  exact htables table htable

theorem valueCall?_rawTypes {id type : String} {names : List String}
    (h : Blocks.valueCall? id = some (type, names)) : type ∉ rawTypes := by
  unfold Blocks.valueCall? at h
  split at h <;> cases h <;> decide

theorem serialQuery?_rawTypes {method type : String} (h : Blocks.serialQuery? method = some type) :
    type ∉ rawTypes := by
  unfold Blocks.serialQuery? at h
  split at h <;> cases h <;> decide

/-- Whether a type of block has a value and is no raw text. -/
def IsValueType (type : String) : Prop :=
  (Value.template? type).isSome = true ∧ type ∉ rawTypes

/-- All blocks in a canonical value have values, and none is raw text. -/
theorem IsCanonicalValue.forall_mem_walk {b : Block} (h : b.IsCanonicalValue) :
    ∀ c ∈ b.walk, IsValueType c.type := by
  have hleaf : ∀ type ∈ ["math_number", "variables_get", "logic_boolean", "text", "logic_negate"],
      (Value.template? type).isSome = true ∧ type ∉ rawTypes := by
    decide
  induction h with
  | number | variableGet | truth | text =>
      exact Block.forall_mem_walk (hleaf _ (by simp)) (by simp)
  | infixed hop _ _ iha ihb =>
      exact Block.forall_mem_walk ⟨Blocks.operator?_type hop, operator?_rawTypes hop⟩
        (by simpa [Input.walk] using ⟨iha, ihb⟩)
  | negation _ iha =>
      exact Block.forall_mem_walk (hleaf _ (by simp)) (by simpa [Input.walk] using iha)
  | call hcall _ _ ih =>
      refine Block.forall_mem_walk
        ⟨(Blocks.valueCall?_inputs hcall).1, valueCall?_rawTypes hcall⟩ fun i hi => ?_
      obtain ⟨j, hj, rfl⟩ := List.mem_map.mp hi
      exact ih j hj
  | query h =>
      exact Block.forall_mem_walk ⟨Blocks.serialQuery?_type h, serialQuery?_rawTypes h⟩ (by simp)

theorem collect_cons (find? : Block → Option String) (b : Block) (bs : List Block) :
    collect find? (b :: bs) = collect find? [b] ++ collect find? bs := by
  simp [collect, walkAll]

theorem flatMap_collect (find? : Block → Option String) (bs : List Block) :
    bs.flatMap (fun b => collect find? [b]) = collect find? bs := by
  induction bs with
  | nil => rfl
  | cons b bs ih => rw [List.flatMap_cons, ih, ← collect_cons]

theorem collect_append (find? : Block → Option String) (bs cs : List Block) :
    collect find? (bs ++ cs) = collect find? bs ++ collect find? cs := by
  induction bs with
  | nil => rfl
  | cons b bs ih =>
      rw [List.cons_append, collect_cons, ih, collect_cons find? b bs, List.append_assoc]

theorem collect_ofTexts (find? : Block → Option String) (type : String)
    (fields : List (String × String)) (is : List Input) :
    collect find? [.ofTexts type fields is] =
      (find? (.ofTexts type fields is)).toList ++ (Input.walkAll is).filterMap find? := by
  simp only [collect, walkAll, ofTexts, walk, List.append_nil]
  cases h : find? (mk type (fields.map fun f => (f.1, .text f.2)) is) with
  | none => rw [List.filterMap_cons_none h]; rfl
  | some name => rw [List.filterMap_cons_some h]; rfl

/-- A block with a value neither assigns nor declares. -/
theorem names_of_hasValue {b : Block} (h : b.hasValue = true) :
    b.assigns? = none ∧ b.declares? = none := by
  have hset : Value.template? "variables_set" = none ∧ Value.template? "variables_declare" = none ∧
      Value.template? "variables_define" = none := ⟨rfl, rfl, rfl⟩
  rw [hasValue] at h
  have hne : ∀ type, Value.template? type = none → b.type ≠ type := by
    rintro type htype rfl
    rw [htype] at h
    cases h
  simp [assigns?, declares?, hne _ hset.1, hne _ hset.2.1, hne _ hset.2.2]

theorem IsCanonicalValue.names_of_mem_walk {b : Block} (h : b.IsCanonicalValue) :
    ∀ c ∈ b.walk, c.assigns? = none ∧ c.declares? = none :=
  fun c hc => names_of_hasValue (h.forall_mem_walk c hc).1

/-- The inputs of values hold no names that are assigned or declared. -/
theorem names_of_values (is : List Input)
    (h : ∀ i ∈ is, ∃ name b, i = .value name b ∧ b.IsCanonicalValue) :
    (Input.walkAll is).filterMap assigns? = [] ∧ (Input.walkAll is).filterMap declares? = [] := by
  induction is with
  | nil => exact ⟨rfl, rfl⟩
  | cons i is ih =>
      obtain ⟨⟨name, b, rfl, hb⟩, his⟩ := List.forall_mem_cons.mp h
      rw [Input.walkAll, Input.walk, List.filterMap_append, List.filterMap_append, (ih his).1,
        (ih his).2, List.append_nil, List.append_nil, List.filterMap_eq_nil_iff,
        List.filterMap_eq_nil_iff]
      exact ⟨fun c hc => (hb.names_of_mem_walk c hc).1, fun c hc => (hb.names_of_mem_walk c hc).2⟩

def variableTypes : List String :=
  ["variables_set", "variables_declare", "variables_define"]

/-- A statement made of values that changes no variable. -/
theorem names_of_calm {type : String} (htype : type ∉ variableTypes)
    (fields : List (String × String)) {is : List Input}
    (h : ∀ i ∈ is, ∃ name b, i = .value name b ∧ b.IsCanonicalValue) :
    collect assigns? [.ofTexts type fields is] = [] ∧
      collect declares? [.ofTexts type fields is] = [] := by
  simp only [variableTypes, List.mem_cons, List.not_mem_nil, or_false, not_or] at htype
  obtain ⟨hset, hdeclare, hdefine⟩ := htype
  rw [collect_ofTexts, collect_ofTexts, (names_of_values is h).1, (names_of_values is h).2]
  simp [assigns?, declares?, Block.type, ofTexts, hset, hdeclare, hdefine]

end Block

/-! ## Code that is read back -/

namespace Code

theorem reads_pad {p : Place} (hp : IsIndent p.indent) : ReadsAlone p.pad.toList [] := by
  refine .layout (List.all_eq_true.mpr fun c hc => ?_) _
  rcases hp.pad c hc with rfl | rfl <;> decide

/-- A text is read as some words if the line ends behind it. -/
def ReadsLine (text : String) (ws : List Word) : Prop :=
  ReadsAlone (text.toList ++ ['\n']) ws

theorem ReadsLine.of_alone {text : String} {ws : List Word} (h : ReadsAlone text.toList ws) :
    ReadsLine text ws := by
  have hfeed : ReadsAlone ['\n'] [] := .layout (by decide) _
  have hline := h.seq hfeed
  rwa [List.append_nil] at hline

theorem readsLine_line {p : Place} (hp : IsIndent p.indent) {text : String} {ws : List Word}
    (h : ReadsLine text ws) : ReadsLine (Statement.line p text) ws := by
  rw [ReadsLine, Statement.line, String.toList_append, List.append_assoc]
  exact (reads_pad hp).seq h

theorem reads_semicolon {text : String} {ws : List Word} (h : Spelling text ws true) :
    ReadsAlone (text ++ ";").toList (ws ++ [symbol .semicolon]) := by
  rw [String.toList_append]
  exact h.reads.append_cons (d := ';') (readsAs_symbol .semicolon rfl) (by decide)

/-- The code of a block at a place leaves the names behind that are in the block, and is read as a
statement whatever comes behind it; that becomes the block again. -/
structure Renders (b : Block) (p : Place) (text : String) (ws : List Word) (n : Node) : Prop where
  gives : Gives ((part b).statement p) text (Block.collect Block.assigns? [b])
    (Block.collect Block.declares? [b])
  reads : ReadsLine text ws
  clause : Clause ws n
  isStatement : n.isEmpty = false ∧ n.isBlock = false
  back : Blocks.body n = .ok [b]

theorem Renders.ne_empty {b : Block} {p : Place} {text : String} {ws : List Word} {n : Node}
    (h : Renders b p text ws n) : text ≠ "" := by
  rintro rfl
  obtain ⟨w, us, hws, -⟩ := h.clause.exists_head
  have hwords : ([] : List Word) = ws := h.reads.words_eq
  rw [hws] at hwords
  cases hwords

/-- The code of a block is read back as the block wherever it stands. -/
def Returns (b : Block) : Prop :=
  ∀ p : Place, IsIndent p.indent → ∃ text ws n, Renders b p text ws n

/-- A block whose code is an expression with a semicolon. -/
theorem returns_effect {b : Block} {e : Expr} {text : String} {ws : List Word}
    (hphrase : Phrase 1 ws e) (hspelling : Spelling text ws true) (hback : Blocks.effect e = .ok b)
    (hgives : ∀ p, Gives ((part b).statement p) (Statement.line p (text ++ ";"))
      (Block.collect Block.assigns? [b]) (Block.collect Block.declares? [b])) : Returns b := by
  intro p hp
  refine ⟨_, _, .effect default e, hgives p,
    readsLine_line hp (.of_alone (reads_semicolon hspelling)),
    .effect default hphrase, ⟨rfl, rfl⟩, ?_⟩
  change Blocks.effect e >>= _ = _
  rw [hback]
  rfl

def IsCalled (callee : Expr) (name : String) : Prop :=
  ∃ us pointed, Phrase 9 us callee ∧ Spelling name us pointed

theorem isCalled_name (name : String) (hsafe : IsSafe name) (hpin : isAnalogPin name = false) :
    IsCalled (.name default name) name :=
  ⟨_, _, (Phrase.name default hpin).loosenTo (by decide) (by decide), .word hsafe.firm rfl rfl⟩

theorem isCalled_serial (method : String) (h : Word.Firm ⟨.identifier, method⟩) :
    IsCalled (.member default (.name default "Serial") method) ("Serial." ++ method) := by
  have hphrase := Phrase.member_symbol default method
    ((Phrase.name default (show isAnalogPin "Serial" = false by decide)).loosenTo (by decide)
      (by decide))
  have hspelling := Spelling.member h
    (.word (show IsSafe "Serial" by decide +kernel).firm rfl rfl)
  exact ⟨_, _, hphrase, hspelling⟩

theorem returns_call {b : Block} {callee : Expr} {name : String} {es : List Expr}
    (hcallee : IsCalled callee name) (hes : ∀ e ∈ es, e.Written)
    (hback : Blocks.effect (.call default callee es) = .ok b)
    (hgives : ∀ p, Gives ((part b).statement p)
      (Statement.callLine p name (es.map fun e => e.coded.text))
      (Block.collect Block.assigns? [b]) (Block.collect Block.declares? [b])) : Returns b := by
  obtain ⟨us, pointed, hphrase, hspelling⟩ := hcallee
  obtain ⟨ws, hcall, htext⟩ := Expr.exists_call default hphrase hspelling (fun e => e.coded.text) es
    fun e he => (hes e he).open
  exact returns_effect (hcall.loosenTo (Nat.le_refl 1) (by decide)) htext.pointed_true hback hgives

/-! ## Inputs -/

section Inputs

variable {s : Shape} {e : Expr} {b : Block} {name : String}

theorem gives_open (hchain : s.chain name = [part b]) (h : e.Represents b) (default : String) :
    Gives (s.value name default) e.coded.text [] [] :=
  Shape.gives_unguarded hchain h.gives default

theorem gives_pin (hchain : s.chain "PIN" = [part b]) (h : e.Represents b)
    (hplain : e.isPlainPin = true) (default : String) :
    Gives (s.pin default) e.coded.text [] [] := by
  have hkeeps := h.keeps e (Expr.mem_parts_self h.proper.ne_empty)
  have hpin := Expr.gives_pin hchain h.block h.gives default
  rwa [Expr.pinText_eq h.proper hkeeps hplain] at hpin

/-- A number stays as it is within limits from zero on. -/
theorem ofField_coded {l : Location} {x : Binary64} {raw : String}
    (h : (Expr.literal l (.number x) raw).Represents b) (default : String) (limits : Limits)
    (hleast : limits.least = none ∨ limits.least = some (.integer 0))
    (hgreatest : ∀ limit, limits.greatest = some limit → limit.isBelow x = false) :
    Numeral.ofField (some raw) default limits = (Expr.literal l (.number x) raw).coded.text := by
  have hkeeps := h.keeps _ List.mem_cons_self
  rw [Expr.keepsSpelling, Bool.and_eq_true, Bool.not_eq_true'] at hkeeps
  cases h.proper with
  | number _ hx hfirm =>
      rw [Expr.coded, Expr.numberOperand,
        Numeral.ofField_unsigned hfirm hx hkeeps.1 hkeeps.2 default hleast hgreatest,
        Numeral.ofField_unsigned hfirm hx hkeeps.1 hkeeps.2 "0" (Or.inl rfl)
          (by simp [Limits.none])]

/-- An input that asks for a number is given any value as it is, and a number within its limits. -/
theorem gives_number (hchain : s.chain name = [part b]) (h : e.Represents b) (default : String)
    (limits : Limits) (hleast : limits.least = none ∨ limits.least = some (.integer 0))
    (hgreatest : ∀ limit, limits.greatest = some limit →
      ∃ n : Nat, limit = .integer n ∧ b.isAtMost n = true) :
    Gives (s.number name default limits) e.coded.text [] [] := by
  refine (Expr.gives_number hchain h.block h.gives default limits).of_eq ?_
  unfold Expr.numberText
  split
  · rename_i l x raw
    have hb : Block.number raw = b := Option.some.inj h.block
    subst hb
    refine ofField_coded h default limits hleast fun limit hlimit => ?_
    obtain ⟨n, rfl, hmost⟩ := hgreatest limit hlimit
    cases h.proper with
    | number _ hx _ =>
        rw [Block.isAtMost_number hx, Bool.not_eq_true'] at hmost
        exact hmost
  · rfl

end Inputs

/-! ## Statements without bodies -/

/-- A word with a meaning of its own as an argument. -/
theorem written_word {word : String} (h : word ∈ valueWords) :
    (Expr.literal default (.text word) word).Written ∧
      (Expr.literal default (.text word) word).coded.text = word := by
  have htexts : ∀ word ∈ valueWords,
      (Expr.literal default (.text word) word).coded.text = word := by decide
  obtain ⟨hproper, hkeeps⟩ := Expr.proper_word h
  exact ⟨hproper.written hkeeps, htexts word h⟩

theorem part_statement {type : String} {template : Shape → Place → Gen String} (htype : type ≠ "")
    (htemplate : Statement.template? type = some template) (fields : List (String × String))
    (is : List Input) (p : Place) :
    (part (.ofTexts type fields is)).statement p =
      template ⟨type, fields.map fun f => (f.1, .text f.2), slots is⟩ p := by
  change Shape.statement _ _ = _
  rw [Shape.statement, if_neg (by simpa using htype)]
  simp only [htemplate]

/-- A call with arguments from values, by a template. -/
theorem returns_template {type : String} {fields : List (String × String)} {is : List Input}
    {template : Shape → Place → Gen String} {callee : Expr} {name : String}
    (htype : type ≠ "" ∧ type ∉ Block.variableTypes)
    (htemplate : Statement.template? type = some template)
    (his : ∀ i ∈ is, ∃ name b, i = .value name b ∧ b.IsCanonicalValue)
    (hcallee : IsCalled callee name) (es : List Expr) (hes : ∀ e ∈ es, e.Written)
    (hback : Blocks.effect (.call default callee es) = .ok (.ofTexts type fields is))
    (hgives : ∀ p, Gives (template ⟨type, fields.map fun f => (f.1, .text f.2), slots is⟩ p)
      (Statement.callLine p name (es.map fun e => e.coded.text)) [] []) :
    Returns (.ofTexts type fields is) := by
  obtain ⟨hassigned, hdeclared⟩ := Block.names_of_calm htype.2 fields his
  refine returns_call hcallee hes hback fun p => ?_
  rw [part_statement htype.1 htemplate, hassigned, hdeclared]
  exact hgives p

section Values

variable {pin value : Block} (hpin : pin.IsCanonicalValue) (hplain : pin.isPin = true)
  (hvalue : value.IsCanonicalValue)

include hpin hplain in
theorem returns_pinMode {mode : String} (hmode : Blocks.isMode mode = true) :
    Returns (.ofTexts "arduino_pinmode" [("MODE", mode)] [.value "PIN" pin]) := by
  obtain ⟨e, he, hplain', -⟩ := hpin.exists_represents
  have hword : mode ∈ valueWords ∧ Statement.pinModes.contains mode = true := by
    simp only [Blocks.isMode, Bool.or_eq_true, beq_iff_eq] at hmode
    rcases hmode with (rfl | rfl) | rfl <;> decide
  obtain ⟨hwritten, htext⟩ := written_word hword.1
  refine returns_template (by decide) rfl (by simpa using hpin)
    (isCalled_name "pinMode" (by decide +kernel) (by decide))
    [e, .literal default (.text mode) mode] (by simpa using ⟨he.written, hwritten⟩) ?_ ?_
  · refine (Blocks.namedCall_pinMode _ _ _).trans ?_
    rw [Blocks.constant?, Option.filter_some, if_pos hmode, he.valueIn]
    rfl
  · intro p
    have hpinned := gives_pin (s := ⟨"arduino_pinmode", [("MODE", .text mode)],
      slots [.value "PIN" pin]⟩) rfl he (hplain' hplain) "13"
    refine (hpinned.map fun pin => Statement.callLine p "pinMode"
      [pin, ((some mode).filter Statement.pinModes.contains).getD "OUTPUT"]).of_eq ?_
    rw [Option.filter_some, if_pos hword.2, List.map_cons, List.map_singleton, htext]
    rfl

include hpin hplain in
theorem returns_digitalWrite {state : String} (hstate : Blocks.isState state = true) :
    Returns (.ofTexts "arduino_digitalwrite" [("STATE", state)] [.value "PIN" pin]) := by
  obtain ⟨e, he, hplain', -⟩ := hpin.exists_represents
  have hword : state ∈ valueWords ∧ Statement.level (some state) = state := by
    simp only [Blocks.isState, Bool.or_eq_true, beq_iff_eq] at hstate
    rcases hstate with rfl | rfl <;> decide
  obtain ⟨hwritten, htext⟩ := written_word hword.1
  refine returns_template (by decide) rfl (by simpa using hpin)
    (isCalled_name "digitalWrite" (by decide +kernel) (by decide))
    [e, .literal default (.text state) state] (by simpa using ⟨he.written, hwritten⟩) ?_ ?_
  · refine (Blocks.namedCall_digitalWrite _ _ _).trans ?_
    rw [Blocks.constant?, Option.filter_some, if_pos hstate, he.valueIn]
    rfl
  · intro p
    have hpinned := gives_pin (s := ⟨"arduino_digitalwrite", [("STATE", .text state)],
      slots [.value "PIN" pin]⟩) rfl he (hplain' hplain) "13"
    refine (hpinned.map fun pin => Statement.callLine p "digitalWrite"
      [pin, Statement.level (some state)]).of_eq ?_
    rw [hword.2, List.map_cons, List.map_singleton, htext]

include hpin hplain hvalue in
theorem returns_analogWrite (hmost : value.isAtMost 255 = true) :
    Returns (.ofTexts "arduino_analogwrite" [] [.value "PIN" pin, .value "VALUE" value]) := by
  obtain ⟨e, he, hplain', -⟩ := hpin.exists_represents
  obtain ⟨e', he', -⟩ := hvalue.exists_represents
  refine returns_template (by decide) rfl (by simpa using ⟨hpin, hvalue⟩)
    (isCalled_name "analogWrite" (by decide +kernel) (by decide)) [e, e']
    (by simpa using ⟨he.written, he'.written⟩) ?_ ?_
  · change (Blocks.valuesIn ["PIN", "VALUE"] [e, e'] >>= _) = _
    rw [Blocks.valuesIn, Blocks.valuesIn, he.valueIn, he'.valueIn]
    rfl
  · intro p
    let s : Shape := ⟨"arduino_analogwrite", [], slots [.value "PIN" pin, .value "VALUE" value]⟩
    have hpinned := gives_pin (s := s) rfl he (hplain' hplain) "9"
    have hnumber := gives_number (show s.chain "VALUE" = [part value] from rfl) he' "128"
      Shape.analogLimits (Or.inr rfl) (by
        rintro limit hlimit
        cases hlimit
        exact ⟨255, rfl, hmost⟩)
    exact hpinned.bind (hnumber.map _)

/-- A pause of a length that is spelled as a number. -/
theorem returns_pause {type name : String} (htype : type ≠ "" ∧ type ∉ Block.variableTypes)
    {default : String}
    (htemplate : Statement.template? type = some (Statement.numberCall name "TIME" default))
    (hsafe : IsSafe name) (hname : isAnalogPin name = false) {raw : String} (hraw : IsNumeral raw)
    (hback : ∀ l l' x, Blocks.effect (.call l (.name l' name) [.literal l' (.number x) raw]) =
      .ok (.ofTexts type [("TIME", raw)] [])) :
    Returns (.ofTexts type [("TIME", raw)] []) := by
  obtain ⟨x, -, he⟩ := Expr.represents_number hraw
  refine returns_template htype htemplate (by simp) (isCalled_name name hsafe hname)
    [_] (by simpa using he.written) (hback _ _ x) fun p => ?_
  exact (Gives.pure _).of_eq (congrArg (fun time => Statement.callLine p name [time])
    (ofField_coded he default .natural (Or.inr rfl) (by simp [Limits.natural])))

include hvalue in
theorem returns_serialBegin :
    Returns (.ofTexts "arduino_serial_begin" [] [.value "BAUD" value]) := by
  obtain ⟨e, he, -⟩ := hvalue.exists_represents
  refine returns_template (by decide) rfl (by simpa using hvalue)
    (isCalled_serial "begin" (firm_ofWord (by decide) (by decide) (by decide)))
    [e] (by simpa using he.written) ?_ fun p => ?_
  · change (Blocks.valueIn "BAUD" e >>= _) = _
    rw [he.valueIn]
    rfl
  · exact (gives_number (s := ⟨"arduino_serial_begin", [], slots [.value "BAUD" value]⟩) rfl he
      "9600" .natural (Or.inr rfl) (by simp [Limits.natural])).map _

include hvalue in
theorem returns_serialPrint (newline : Bool) :
    Returns (.ofTexts "arduino_serial_print" [("MODE", if newline then "PRINTLN" else "PRINT")]
      [.value "TEXT" value]) := by
  obtain ⟨e, he, -⟩ := hvalue.exists_represents
  have hmethods : ∀ method ∈ ["print", "println"], TokenKind.ofWord method = .identifier ∧
      method.toList.head?.any Text.isNameStart = true ∧
      method.toList.tail.all Text.isNameChar = true := by decide
  obtain ⟨hkind, hhead, htail⟩ := hmethods (if newline then "println" else "print")
    (by cases newline <;> decide)
  refine returns_template (by decide) rfl (by simpa using hvalue)
    (isCalled_serial _ (firm_ofWord hkind hhead htail)) [e] (by simpa using he.written) ?_
    fun p => ?_
  · cases newline <;>
      (change (Blocks.valueIn "TEXT" e >>= _) = _
       rw [he.valueIn]
       rfl)
  · let s : Shape := ⟨"arduino_serial_print",
      [("MODE", .text (if newline then "PRINTLN" else "PRINT"))], slots [.value "TEXT" value]⟩
    have hopen := gives_open (show s.chain "TEXT" = [part value] from rfl) he "\"\""
    cases newline
    · exact hopen.map _
    · exact hopen.map _

include hvalue in
theorem returns_randomSeed :
    Returns (.ofTexts "arduino_random_seed" [] [.value "SEED" value]) := by
  obtain ⟨e, he, -⟩ := hvalue.exists_represents
  refine returns_template (by decide) rfl (by simpa using hvalue)
    (isCalled_name "randomSeed" (by decide +kernel) (by decide)) [e]
    (by simpa using he.written) ?_ fun p => ?_
  · change (Blocks.valuesIn ["SEED"] [e] >>= _) = _
    rw [Blocks.valuesIn, he.valueIn]
    rfl
  · exact (gives_open (s := ⟨"arduino_random_seed", [], slots [.value "SEED" value]⟩) rfl he
      "0").map _

/-! ### Values as statements -/

theorem statement_of_value {type : String} {template : Shape → Gen Operand} (htype : type ≠ "")
    (hstatement : Statement.template? type = none)
    (hvalue : Value.template? type = some template) (fields : List (String × String))
    (is : List Input) (p : Place) :
    (part (.ofTexts type fields is)).statement p =
      (part (.ofTexts type fields is)).value >>= fun operand =>
        pure (Statement.line p (operand.text ++ ";")) := by
  rw [Expr.part_value htype hvalue]
  change Shape.statement _ _ = _
  rw [Shape.statement, if_neg (by simpa using htype)]
  simp only [hstatement, hvalue]

/-- A value by itself whose expression becomes the block as a statement too. -/
theorem returns_value {type : String} {template : Shape → Gen Operand}
    {fields : List (String × String)} {is : List Input} {e : Expr}
    (htype : type ≠ "" ∧ type ∉ Block.variableTypes)
    (hstatement : Statement.template? type = none)
    (hvalue : Value.template? type = some template)
    (his : ∀ i ∈ is, ∃ name b, i = .value name b ∧ b.IsCanonicalValue)
    (he : e.Represents (.ofTexts type fields is))
    (hback : Blocks.effect e = .ok (.ofTexts type fields is)) :
    Returns (.ofTexts type fields is) := by
  obtain ⟨hassigned, hdeclared⟩ := Block.names_of_calm htype.2 fields his
  obtain ⟨ws, hphrase, hspelling⟩ := he.written.open
  refine returns_effect hphrase hspelling hback fun p => ?_
  rw [statement_of_value htype.1 hstatement hvalue, hassigned, hdeclared]
  exact he.gives.map _

theorem valueCall?_type {id type : String} {names : List String}
    (h : Blocks.valueCall? id = some (type, names)) :
    type ∉ Block.variableTypes ∧ Statement.template? type = none := by
  unfold Blocks.valueCall? at h
  split at h <;> cases h <;> exact ⟨by decide, rfl⟩

/-- A call with a value becomes its block as a statement too, unless it reads a pin. -/
theorem effect_call {id type : String} {names : List String} {es : List Expr} {is : List Input}
    (hcall : Blocks.valueCall? id = some (type, names)) (hdigital : id ≠ "digitalRead")
    (hanalog : id ≠ "analogRead") (hlength : es.length = names.length)
    (hvalues : Blocks.valuesIn names es = .ok is) :
    Blocks.effect (.call default (.name default id) es) = .ok (.ofTexts type [] is) := by
  have hnone : ∀ name, Blocks.valueCall? name = none → id ≠ name := by
    rintro name hname rfl
    rw [hname] at hcall
    cases hcall
  have hstatement : Blocks.statementCall? id = some (type, names) := by
    unfold Blocks.statementCall?
    split
    · exact absurd rfl (hnone "analogWrite" rfl)
    · exact absurd rfl (hnone "randomSeed" rfl)
    · exact absurd rfl hdigital
    · exact absurd rfl hanalog
    · exact hcall
  change Blocks.namedCall _ id es = _
  rw [Blocks.namedCall_other es (hnone _ rfl) (hnone _ rfl) (hnone _ rfl) (hnone _ rfl), hstatement]
  dsimp only
  rw [if_pos hlength, hvalues]
  rfl

theorem pin_not_mem_valueCall? {id type : String} {names : List String}
    (h : Blocks.valueCall? id = some (type, names)) (hdigital : id ≠ "digitalRead")
    (hanalog : id ≠ "analogRead") : "PIN" ∉ names := by
  unfold Blocks.valueCall? at h
  split at h <;> cases h <;> first
    | decide
    | exact absurd rfl hdigital
    | exact absurd rfl hanalog

theorem returns_valueCall {id type : String} {inputs : List (String × Block)}
    (hdigital : id ≠ "digitalRead") (hanalog : id ≠ "analogRead")
    (hcall : Blocks.valueCall? id = some (type, inputs.map Prod.fst))
    (hvalues : ∀ i ∈ inputs, i.2.IsCanonicalValue) :
    Returns (.ofTexts type [] (inputs.map fun i => .value i.1 i.2)) := by
  obtain ⟨es, hlength, hes, hinputs, hback⟩ := Expr.exists_arguments fun i hi => by
    obtain ⟨e, he, hpin, -⟩ := (hvalues i hi).exists_represents
    exact ⟨e, he, hpin⟩
  have hpins : ∀ i ∈ inputs, i.1 = "PIN" → i.2.isPin = true := by
    intro i hi hname
    have hmem := List.mem_map_of_mem (f := Prod.fst) hi
    rw [hname] at hmem
    exact absurd hmem (pin_not_mem_valueCall? hcall hdigital hanalog)
  have he := Expr.represents_call hcall hlength hes hpins hinputs
  obtain ⟨hnames, hstatement⟩ := valueCall?_type hcall
  obtain ⟨template, htemplate⟩ := Option.isSome_iff_exists.mp (Blocks.valueCall?_inputs hcall).1
  refine returns_value ⟨(Expr.template?_of_valueCall? hcall).1, hnames⟩ hstatement htemplate ?_ he
    (effect_call hcall hdigital hanalog (by rw [hlength, List.length_map]) hback)
  intro i hi
  obtain ⟨j, hj, rfl⟩ := List.mem_map.mp hi
  exact ⟨_, _, rfl, hvalues j hj⟩

theorem returns_query {method type : String} (h : Blocks.serialQuery? method = some type) :
    Returns (.ofTexts type [] []) := by
  have he := Expr.represents_query h
  obtain ⟨htype, hnames, hstatement, template, htemplate, hback⟩ :
      type ≠ "" ∧ type ∉ Block.variableTypes ∧ Statement.template? type = none ∧
      ∃ template, Value.template? type = some template ∧
      Blocks.effect (.call default (.member default (.name default "Serial") method) []) =
        .ok (.ofTexts type [] []) := by
    unfold Blocks.serialQuery? at h
    split at h <;> cases h <;> exact ⟨by decide, by decide, rfl, _, rfl, rfl⟩
  exact returns_value ⟨htype, hnames⟩ hstatement htemplate (by simp) he hback

/-! ### Variables -/

theorem exists_typeWords {type : String} (h : type ∈ Statement.variableTypes) :
    ∃ ws, TypeWords ws type ∧ ReadsAlone (type ++ " ").toList ws := by
  have hword : ∀ word ∈ ["int", "float", "boolean", "char", "String", "long", "byte", "unsigned"],
      word.toList.head?.any Text.isNameStart = true ∧
        word.toList.tail.all Text.isNameChar = true ∧
        (TokenKind.ofWord word).runsOn ' ' = false ∧
        ((TokenKind.ofWord word).namesType = true ∨ TokenKind.ofWord word = .unsigned) := by
    decide
  have hreads : ∀ word ∈ ["int", "float", "boolean", "char", "String", "long", "byte", "unsigned"],
      ReadsAlone (word ++ " ").toList [⟨TokenKind.ofWord word, word⟩] := by
    intro word hmem
    obtain ⟨hhead, htail, hblank, -⟩ := hword word hmem
    have hfirm := (firm_ofWord rfl hhead htail).readsAs.blank hblank
    rwa [String.toList_append]
  have hone : ∀ word ∈ ["int", "float", "boolean", "char", "String", "long", "byte"],
      ∃ ws, TypeWords ws word ∧ ReadsAlone (word ++ " ").toList ws := by
    intro word hmem
    have hnames : ∀ word ∈ ["int", "float", "boolean", "char", "String", "long", "byte"],
        (TokenKind.ofWord word).namesType = true := by decide
    exact ⟨_, .one (hnames word hmem), hreads word (by simp at hmem ⊢; tauto)⟩
  have htwo : ∀ word ∈ ["int", "long", "char"],
      ∃ ws, TypeWords ws ("unsigned " ++ word) ∧
        ReadsAlone ("unsigned " ++ word ++ " ").toList ws := by
    intro word hmem
    have hnames : ∀ word ∈ ["int", "long", "char"],
        (TokenKind.ofWord word).namesType = true := by decide
    refine ⟨_, .unsigned (u := ⟨TokenKind.ofWord "unsigned", "unsigned"⟩)
      (w := ⟨TokenKind.ofWord word, word⟩) (by decide) (hnames word hmem), ?_⟩
    have hall := (hreads "unsigned" (by decide)).seq (hreads word (by simp at hmem ⊢; tauto))
    rwa [← String.toList_append, ← String.append_assoc] at hall
  simp only [Statement.variableTypes, List.mem_cons, List.not_mem_nil, or_false] at h
  rcases h with rfl | rfl | rfl | rfl | rfl | rfl | rfl | rfl | rfl | rfl
  · exact hone _ (by decide)
  · exact hone _ (by decide)
  · exact hone _ (by decide)
  · exact hone _ (by decide)
  · exact hone _ (by decide)
  · exact hone _ (by decide)
  · exact hone _ (by decide)
  · exact htwo "int" (by decide)
  · exact htwo "long" (by decide)
  · exact htwo "char" (by decide)

theorem variableType_eq {s : Shape} {type : String} (h : type ∈ Statement.variableTypes)
    (hfield : s.field? "TYPE" = some type) : Statement.variableType s = type := by
  have hwords : ∀ type ∈ Statement.variableTypes,
      " ".intercalate ((Text.words type.toList).map String.ofList) = type := by decide
  rw [Statement.variableType, Shape.field, hfield, Option.getD_some, hwords type h,
    if_pos (List.contains_iff_mem.mpr h)]

theorem spelling_assigned {name text : String} {ws : List Word} (hsafe : IsSafe name)
    (h : Spelling text ws true) :
    Spelling (name ++ " = " ++ text) ([⟨.identifier, name⟩] ++ symbol .assign :: ws) true := by
  have hinfixed := Spelling.infixed (show TokenKind.assign.symbol? = some "=" from rfl)
    (.word hsafe.firm rfl rfl) h
  have htext : name ++ " " ++ "=" ++ " " ++ text = name ++ " = " ++ text :=
    String.toList_inj.mp (by simp)
  rwa [htext] at hinfixed

include hvalue in
theorem returns_set {name : String} (hsafe : IsSafe name) (hname : isAnalogPin name = false) :
    Returns (.ofTexts "variables_set" [("VAR", name)] [.value "VALUE" value]) := by
  obtain ⟨e, he, -⟩ := hvalue.exists_represents
  obtain ⟨ws, hphrase, hspelling⟩ := he.written.open
  have hassign := Phrase.assign_symbol default
    (show ExprGrammar.isAssignment .assign = true from rfl)
    (show TokenKind.assign.symbol? = some "=" from rfl)
    ((Phrase.name default hname).loosenTo (m := 2) (by decide) (by decide)) hphrase
  refine returns_effect hassign (spelling_assigned hsafe hspelling) ?_ fun p => ?_
  · change (Blocks.valueIn "VALUE" e >>= _) = _
    rw [he.valueIn]
    rfl
  · obtain ⟨hassigned, hdeclared⟩ := Block.names_of_values [.value "VALUE" value]
      (by simpa using hvalue)
    rw [part_statement (by decide) rfl, Block.collect_ofTexts, Block.collect_ofTexts, hassigned,
      hdeclared]
    let s : Shape := ⟨"variables_set", [("VAR", .text name)], slots [.value "VALUE" value]⟩
    have hopen := gives_open (show s.chain "VALUE" = [part value] from rfl) he "0"
    have hline : Gives (Statement.variableSet s p)
        (Statement.line p (safeName name unnamed ++ " = " ++ e.coded.text ++ ";"))
        [safeName name unnamed] [] :=
      (Gives.modify fun c => Leaves.assign c (safeName name unnamed)).bind (hopen.map _)
    rw [hsafe.safeName_eq] at hline
    exact hline

def Declares (b : Block) : Prop :=
  ∀ p : Place, IsIndent p.indent → ∃ text ws n, Renders b p text ws n ∧ Declared ws n

/-- A block whose code is a declaration with a semicolon. -/
theorem declares_text {b : Block} {type name text : String} {e : Expr} {ws vs : List Word}
    (hreads : ReadsAlone (type ++ " ").toList ws)
    (htext : Spelling text vs true) (hclause : Declared (ws ++ vs ++ [symbol .semicolon])
      (.declaration default type name e))
    (hback : Blocks.declaration type name e = .ok b)
    (hgives : ∀ p, Gives ((part b).statement p) (Statement.line p (type ++ " " ++ text ++ ";"))
      (Block.collect Block.assigns? [b]) (Block.collect Block.declares? [b])) : Declares b := by
  intro p hp
  have hall := hreads.seq (reads_semicolon htext)
  rw [← String.toList_append, ← String.append_assoc, ← List.append_assoc] at hall
  refine ⟨_, _, _, ⟨hgives p, readsLine_line hp (.of_alone hall), .declared hclause,
    ⟨rfl, rfl⟩, ?_⟩, hclause⟩
  change Blocks.declaration type name e >>= _ = _
  rw [hback]
  rfl

theorem declares_declare {type name : String} (htype : type ∈ Statement.variableTypes)
    (hsafe : IsSafe name) :
    Declares (.ofTexts "variables_declare" [("TYPE", type), ("VAR", name)] []) := by
  obtain ⟨ws, hwords, hreads⟩ := exists_typeWords htype
  have htext : Spelling name [⟨.identifier, name⟩] true :=
    (Spelling.word hsafe.firm rfl rfl).pointed_true
  refine declares_text hreads htext
    (by rw [List.append_assoc]; exact .plain default name hwords) rfl fun p => ?_
  let s : Shape := ⟨"variables_declare", [("TYPE", .text type), ("VAR", .text name)], slots []⟩
  have hline : Gives (Statement.variableDeclare s p)
      (Statement.line p (Statement.variableType s ++ " " ++ safeName name unnamed ++ ";"))
      [] [safeName name unnamed] :=
    (Gives.modify fun c => Leaves.declare c (safeName name unnamed)).bind (.pure _)
  rw [part_statement (by decide) rfl]
  rwa [variableType_eq htype rfl, hsafe.safeName_eq] at hline

include hvalue in
theorem declares_define {type name : String} (htype : type ∈ Statement.variableTypes)
    (hsafe : IsSafe name) :
    Declares (.ofTexts "variables_define" [("TYPE", type), ("VAR", name)]
      [.value "VALUE" value]) := by
  obtain ⟨e, he, -⟩ := hvalue.exists_represents
  obtain ⟨ws, hphrase, hspelling⟩ := he.written.open
  obtain ⟨us, hwords, hreads⟩ := exists_typeWords htype
  have hclause : Declared (us ++ ([⟨.identifier, name⟩] ++ symbol .assign :: ws) ++
      [symbol .semicolon]) (.declaration default type name e) := .valued default name hwords hphrase
  refine declares_text hreads (spelling_assigned hsafe hspelling) hclause ?_ fun p => ?_
  · rw [Blocks.declaration, Blocks.isEmpty_of_proper he.proper, he.valueIn]
    rfl
  · obtain ⟨hassigned, hdeclared⟩ := Block.names_of_values [.value "VALUE" value]
      (by simpa using hvalue)
    rw [part_statement (by decide) rfl, Block.collect_ofTexts, Block.collect_ofTexts, hassigned,
      hdeclared]
    let s : Shape := ⟨"variables_define", [("TYPE", .text type), ("VAR", .text name)],
      slots [.value "VALUE" value]⟩
    have hopen := gives_open (show s.chain "VALUE" = [part value] from rfl) he "0"
    have hline : Gives (Statement.variableDefine s p)
        (Statement.line p (Statement.variableType s ++ " " ++ safeName name unnamed ++ " = " ++
          e.coded.text ++ ";")) [] [safeName name unnamed] :=
      (Gives.modify fun c => Leaves.declare c (safeName name unnamed)).bind (hopen.map _)
    rw [variableType_eq htype rfl, hsafe.safeName_eq] at hline
    simp only [String.append_assoc] at hline ⊢
    exact hline

end Values

end Code

theorem Block.IsDeclaration.declares {b : Block} (h : b.IsDeclaration) : Declares b := by
  cases h with
  | declare htype hsafe => exact declares_declare htype hsafe
  | define htype hsafe hvalue => exact declares_define hvalue htype hsafe

end InoBlocks
