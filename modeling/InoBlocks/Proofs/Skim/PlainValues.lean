import InoBlocks.Proofs.Skim.Fronts
import InoBlocks.Skim.Reader
import Mathlib.Data.List.TakeWhile

/-!
# The values of plain sketches

The values and conditions of plain sketches are read as their blocks.  An operand has no operator
in it; an operator stands between two blanks, where it is no part of a longer one.
-/

namespace InoBlocks

namespace Plain

open Text Skim

/-! ## Splitting -/

/-- A character at which no scan for an operator stops or looks twice. -/
def isQuiet (symbols : List String) (c : Char) : Bool :=
  isInert c && symbols.all fun symbol => symbol.toList.head?.any (· != c)

section Split

variable {symbols : List String}

theorem afterAny?_quiet {c : Char} (h : isQuiet symbols c = true) (cs : List Char) :
    afterAny? symbols (c :: cs) = none := by
  simp only [isQuiet, Bool.and_eq_true, List.all_eq_true] at h
  refine List.findSome?_eq_none_iff.mpr fun symbol hsymbol => ?_
  have hhead := h.2 symbol hsymbol
  cases hchars : symbol.toList with
  | nil =>
      rw [hchars] at hhead
      cases hhead
  | cons d ds =>
      have hne : d ≠ c := by simpa [hchars] using hhead
      simp [after?, startsWith, List.isPrefixOf, hne]

theorem splitFrom?_quiet {cs : List Char} (h : ∀ c ∈ cs, isQuiet symbols c = true)
    (before rest : List Char) :
    splitFrom? symbols before 0 none (cs ++ rest) =
      splitFrom? symbols (cs.reverse ++ before) 0 none rest := by
  induction cs generalizing before with
  | nil => rfl
  | cons c cs ih =>
      obtain ⟨hc, hcs⟩ := List.forall_mem_cons.mp h
      have hinert : isInert c = true := by
        rw [isQuiet, Bool.and_eq_true] at hc
        exact hc.1
      obtain ⟨h₁, h₂, h₃, h₄, -, -⟩ := isInert_iff.mp hinert
      have hhere : splitHere? symbols before (c :: (cs ++ rest)) = none := by
        rw [splitHere?, afterAny?_quiet hc]
        rfl
      have hstep : splitFrom? symbols before 0 none (c :: (cs ++ rest)) =
          splitFrom? symbols (c :: before) 0 none (cs ++ rest) := by
        simp [splitFrom?, h₁, h₂, h₃, h₄, hhere]
      rw [List.cons_append, hstep, ih hcs]
      simp

theorem split?_quiet {operators : List (String × String)} {cs : List Char}
    (h : ∀ c ∈ cs, isQuiet (operators.map Prod.fst) c = true) : split? operators cs = none := by
  have hscan := splitFrom?_quiet h [] []
  rw [List.append_nil] at hscan
  rw [split?, hscan]
  rfl

end Split

theorem isQuiet_of_isNameChar {symbols : List String}
    (hsymbols : symbols.all (fun symbol => symbol.toList.head?.any fun c => !isNameChar c) = true)
    {c : Char} (hc : isNameChar c = true) : isQuiet symbols c = true := by
  rw [isQuiet, isInert_of_isNameChar hc, Bool.true_and, List.all_eq_true]
  intro symbol hsymbol
  have hhead := List.all_eq_true.mp hsymbols symbol hsymbol
  cases hchars : symbol.toList with
  | nil =>
      rw [hchars] at hhead
      cases hhead
  | cons d ds =>
      have hd : isNameChar d = false := by simpa [hchars] using hhead
      have hne : d ≠ c := by
        rintro rfl
        rw [hc] at hd
        cases hd
      simpa using hne

def tables : List (List (String × String)) :=
  Block.operatorTables.map Prod.snd

theorem word_quiet {table : List (String × String)} (htable : table ∈ tables) {cs : List Char}
    (h : IsWordText cs) : ∀ c ∈ cs, isQuiet (table.map Prod.fst) c = true := by
  have hsymbols : ∀ table ∈ tables, (table.map Prod.fst).all (fun symbol =>
      symbol.toList.head?.any fun c => !isNameChar c) = true := by decide
  exact fun c hc => isQuiet_of_isNameChar (hsymbols table htable) (h.chars c hc)

theorem IsWordText.not_isUnfinished {cs : List Char} (h : IsWordText cs) :
    isUnfinished cs = false := by
  have hsigns : ∀ c ∈ "+-*/%<>=!&|".toList, isNameChar c = false := by decide
  rw [isUnfinished]
  cases hlast : cs.getLast? with
  | none => rfl
  | some c =>
      cases hsign : "+-*/%<>=!&|".toList.contains c with
      | false => exact hsign
      | true =>
          have hchar := h.chars c (List.mem_of_getLast? hlast)
          rw [hsigns c (List.contains_iff_mem.mp hsign)] at hchar
          cases hchar

section Infix

variable {table : List (String × String)} (htable : table ∈ tables) {symbol name : String}
  (hsymbol : (symbol, name) ∈ table)

include htable hsymbol

theorem afterAny?_symbol (rest : List Char) :
    afterAny? (table.map Prod.fst) (symbol.toList ++ ' ' :: rest) = some (symbol, ' ' :: rest) := by
  simp only [tables, Block.operatorTables, List.map_cons, List.map_nil, List.mem_cons,
    List.not_mem_nil, or_false] at htable
  rcases htable with rfl | rfl | rfl
  · simp only [Block.arithmeticNames, List.mem_cons, List.not_mem_nil, or_false,
      Prod.mk.injEq] at hsymbol
    rcases hsymbol with ⟨rfl, rfl⟩ | ⟨rfl, rfl⟩ | ⟨rfl, rfl⟩ | ⟨rfl, rfl⟩ | ⟨rfl, rfl⟩ <;> rfl
  · simp only [Block.comparisonNames, List.mem_cons, List.not_mem_nil, or_false,
      Prod.mk.injEq] at hsymbol
    rcases hsymbol with ⟨rfl, rfl⟩ | ⟨rfl, rfl⟩ | ⟨rfl, rfl⟩ | ⟨rfl, rfl⟩ | ⟨rfl, rfl⟩ |
      ⟨rfl, rfl⟩ <;> rfl
  · simp only [Block.connectiveNames, List.mem_cons, List.not_mem_nil, or_false,
      Prod.mk.injEq] at hsymbol
    rcases hsymbol with ⟨rfl, rfl⟩ | ⟨rfl, rfl⟩ <;> rfl

theorem split?_infix (a b : Operand) :
    split? table (infixChars symbol a b) = some ⟨a.chars, symbol, b.chars⟩ := by
  have hclosed : ∀ table ∈ tables, isQuiet (table.map Prod.fst) ' ' = true ∧
      ∀ e ∈ table, isDoubled e.1 (some ' ') (some ' ') = false ∧
        e.1.toList.head?.any isInert = true := by decide
  obtain ⟨hblank, hall⟩ := hclosed table htable
  obtain ⟨hdoubled, hhead⟩ := hall _ hsymbol
  have hleft : ∀ c ∈ a.chars ++ [' '], isQuiet (table.map Prod.fst) c = true :=
    List.forall_mem_append.mpr ⟨word_quiet htable a.isWordText, by simpa using hblank⟩
  have ha := a.isWordText.tight
  have hb := b.isWordText.tight
  have hblanks : ∀ c ∈ [' '], isBlank c = true := by decide
  have htrimLeft : trim (a.chars ++ [' ']) = a.chars := ha.trim_behind hblanks
  have htrimRight : trim (' ' :: b.chars) = b.chars := hb.trim_append hblanks
  have hunfinished : isUnfinished a.chars = false := a.isWordText.not_isUnfinished
  have hhere : splitHere? (table.map Prod.fst) (' ' :: a.chars.reverse)
      (symbol.toList ++ ' ' :: b.chars) = some ⟨a.chars, symbol, b.chars⟩ := by
    simp [splitHere?, afterAny?_symbol htable hsymbol, hdoubled, htrimLeft, htrimRight, hunfinished,
      a.isWordText.ne_nil, b.isWordText.ne_nil]
  have htext : infixChars symbol a b = (a.chars ++ [' ']) ++ (symbol.toList ++ ' ' :: b.chars) := by
    simp [infixChars]
  rw [split?, htext, splitFrom?_quiet hleft]
  cases hchars : symbol.toList with
  | nil =>
      rw [hchars] at hhead
      cases hhead
  | cons c cs =>
      have hinert : isInert c = true := by simpa [hchars] using hhead
      obtain ⟨h₁, h₂, h₃, h₄, -, -⟩ := isInert_iff.mp hinert
      rw [hchars, List.cons_append] at hhere
      simp [splitFrom?, h₁, h₂, h₃, h₄, hhere]

end Infix

/-! ## What a value is not -/

theorem digits_or_point_of_isNumber {cs : List Char} (h : isNumber cs = true) :
    ∀ c ∈ cs, c.isDigit = true ∨ c = '.' := by
  have hsplit := List.takeWhile_append_dropWhile (p := Char.isDigit) (l := cs)
  have hfront : ∀ c ∈ cs.takeWhile Char.isDigit, c.isDigit = true :=
    List.all_eq_true.mp List.all_takeWhile
  rw [isNumber] at h
  intro c hc
  rw [← hsplit, List.mem_append] at hc
  rcases hc with hc | hc
  · exact Or.inl (hfront c hc)
  · split at h
    · rename_i hnil
      rw [hnil] at hc
      cases hc
    · rename_i fraction hpoint
      rw [hpoint, List.mem_cons] at hc
      simp only [isInteger, Bool.and_eq_true] at h
      rcases hc with rfl | hc
      · exact Or.inr rfl
      · exact Or.inl (List.all_eq_true.mp h.2.2 c hc)
    · cases h

theorem isPinName_iff {cs : List Char} :
    isPinName cs = true ↔ ∃ digits, cs = 'A' :: digits ∧ isInteger digits = true := by
  unfold isPinName
  constructor
  · intro h
    split at h
    · rename_i digits
      exact ⟨digits, rfl, h⟩
    · cases h
  · rintro ⟨digits, rfl, h⟩
    exact h

theorem isAnalogPin_of_isPinName {cs : List Char} (h : isPinName cs = true) :
    isAnalogPinText cs = true := by
  obtain ⟨digits, rfl, hdigits⟩ := isPinName_iff.mp h
  rw [isInteger, Bool.and_eq_true, List.all_eq_true] at hdigits
  have hall : ∀ c ∈ digits, isDecimal c = true := fun c hc =>
    isDecimal_of_isDigit (hdigits.2 c hc)
  have htake : digits.takeWhile isDecimal = digits := List.takeWhile_eq_self_iff.mpr hall
  have hdrop : digits.dropWhile isDecimal = [] := List.dropWhile_eq_nil_iff.mpr hall
  simpa [isAnalogPinText, htake, hdrop] using hdigits.1

def valueWords : List String :=
  ["true", "false", "HIGH", "LOW", "INPUT", "OUTPUT", "INPUT_PULLUP"]

theorem plainValue?_eq_none {cs : List Char} (hnumber : isNumber cs = false)
    (hquote : cs.head? ≠ some '"') (hwords : ∀ word ∈ valueWords, cs ≠ word.toList)
    (hpin : isPinName cs = false) : plainValue? cs = none := by
  have hquoted : quotedText? cs = none := by
    unfold quotedText?
    split
    · exact absurd rfl hquote
    · rfl
  have hne : ∀ word : String, word ∈ valueWords → (cs == word.toList) = false :=
    fun word hword => beq_eq_false_iff_ne.mpr (hwords word hword)
  have hlist : ["HIGH", "LOW", "INPUT", "OUTPUT", "INPUT_PULLUP"].contains (String.ofList cs) =
      false := by
    rw [← Bool.not_eq_true, List.contains_iff_mem]
    intro hmem
    have hsub : ∀ word ∈ ["HIGH", "LOW", "INPUT", "OUTPUT", "INPUT_PULLUP"], word ∈ valueWords := by
      decide
    exact hwords _ (hsub _ hmem) (String.toList_ofList).symm
  rw [plainValue?, hnumber, hquoted, hne "true" (by decide), hne "false" (by decide), hlist, hpin]
  rfl

/-- A value with something in it that is no part of a word or a number. -/
theorem plainValue?_of_mem {cs : List Char} {c : Char} (hc : c ∈ cs)
    (hname : isNameChar c = false) (hpoint : c ≠ '.') (hquote : cs.head? ≠ some '"') :
    plainValue? cs = none := by
  have hdigit : c.isDigit = false := by
    by_contra h
    rw [isNameChar_of_isDigit (Bool.not_eq_false _ ▸ h)] at hname
    cases hname
  refine plainValue?_eq_none ?_ hquote ?_ ?_
  · by_contra h
    rcases digits_or_point_of_isNumber (Bool.not_eq_false _ ▸ h) c hc with h | h
    · rw [hdigit] at h
      cases h
    · exact hpoint h
  · rintro word hword rfl
    have hwords : ∀ word ∈ valueWords, ∀ c ∈ word.toList, isNameChar c = true := by decide
    rw [hwords word hword c hc] at hname
    cases hname
  · by_contra h
    obtain ⟨digits, rfl, hdigits⟩ := isPinName_iff.mp (Bool.not_eq_false _ ▸ h)
    simp only [isInteger, Bool.and_eq_true, List.all_eq_true] at hdigits
    rcases List.mem_cons.mp hc with rfl | hc
    · exact absurd hname (by decide)
    · rw [hdigits.2 c hc] at hdigit
      cases hdigit

theorem plainCall?_of_not_mem (name : String) {cs : List Char} (h : '(' ∉ cs) :
    plainCall? name cs = none := by
  have hinside : callInside? name cs = none := by
    rw [callInside?]
    cases hafter : after? name.toList cs with
    | none => rfl
    | some rest =>
        rw [after?_eq_some] at hafter
        have hrest : '(' ∉ trimStart rest := fun hmem => h <| by
          rw [hafter]
          exact List.mem_append_right _ ((List.dropWhile_sublist _).subset hmem)
        rw [Option.bind_eq_bind, Option.bind_some]
        split
        · rename_i inside heq
          rw [heq] at hrest
          exact absurd List.mem_cons_self hrest
        · rfl
  rw [plainCall?, hinside]
  rfl

theorem pinReading?_of_not_mem (read : List Char → Block) {cs : List Char} (h : '(' ∉ cs) :
    pinReading? read cs = none := by
  rw [pinReading?, plainCall?_of_not_mem _ h, plainCall?_of_not_mem _ h]
  rfl

/-! ## What a value is -/

theorem Operand.not_mem_paren (a : Operand) : '(' ∉ a.chars := fun hmem =>
  absurd (a.isWordText.chars _ hmem) (by decide)

theorem Integer.isNumber (n : Integer) : isNumber n.chars = true := by
  have hdrop : n.chars.dropWhile Char.isDigit = [] := List.dropWhile_eq_nil_iff.mpr n.digits
  rw [Skim.isNumber, hdrop]
  simpa using n.ne_nil

namespace Name

variable (x : Name)

theorem head?_ne {c : Char} (hc : isNameStart c = false) : x.text.toList.head? ≠ some c := by
  obtain ⟨d, ds, hname, hd⟩ := x.exists_start
  rw [hname]
  rintro ⟨⟩
  rw [hc] at hd
  cases hd

theorem plainValue?_eq : plainValue? x.text.toList = none := by
  have hreserved : ∀ word ∈ valueWords, isReserved word.toList = true := by decide
  have hpin : isPinName x.text.toList = false := by
    cases h : isPinName x.text.toList with
    | false => rfl
    | true => exact absurd (isAnalogPin_of_isPinName h) (by simpa [isAnalogPin] using x.noPin)
  refine plainValue?_eq_none ?_ (x.head?_ne (by decide))
    (fun word hword => x.toList_ne (hreserved word hword)) hpin
  cases h : isNumber x.text.toList with
  | false => rfl
  | true =>
      obtain ⟨d, ds, hname, hd⟩ := x.exists_start
      rcases digits_or_point_of_isNumber h d (by simp [hname]) with hdigit | rfl
      · rw [not_isNameStart_of_isDigit hdigit] at hd
        cases hd
      · exact absurd hd (by decide)

theorem isName_eq : isName x.text.toList = true := by
  obtain ⟨d, ds, hname, hd⟩ := x.exists_start
  have hall : ∀ c ∈ ds, isWord c = true := fun c hc =>
    isWord_of_isNameChar (x.isWordText.chars c (by simp [hname, hc]))
  have hdrop : ds.dropWhile isWord = [] := List.dropWhile_eq_nil_iff.mpr hall
  rw [isName, hname, spanName?, if_pos hd, hdrop]
  rfl

theorem nameIn_eq (default : String) : nameIn x.text.toList default = x.text := by
  rw [nameIn, String.ofList_toList, x.safe.safeName_eq]

end Name

theorem operation?_word (read : List Char → Block) {cs : List Char} (h : IsWordText cs) :
    operation? read cs = none := by
  refine List.findSome?_eq_none_iff.mpr fun table htable => ?_
  have hmem : table.2 ∈ tables := List.mem_map_of_mem htable
  rw [split?_quiet (word_quiet hmem h)]
  rfl

theorem matchValue_operand (read : List Char → Block) (a : Operand) :
    matchValue read a.chars = a.block := by
  cases a with
  | integer n =>
      rw [matchValue, Operand.chars, plainValue?, if_pos n.isNumber]
      rfl
  | named x =>
      have hdenied : denied? x.text.toList = none := by
        unfold denied?
        split
        · rename_i heq
          exact absurd (congrArg List.head? heq) (x.head?_ne (by decide))
        · rfl
      have hreading : pinReading? read x.text.toList = none :=
        pinReading?_of_not_mem read (Operand.named x).not_mem_paren
      rw [matchValue, Operand.chars, x.plainValue?_eq, hreading, operation?_word read x.isWordText]
      simp [hdenied, x.isName_eq, x.nameIn_eq, Operand.block]

section Infix

variable {table : List (String × String)} (htable : table ∈ tables) {symbol name : String}
  (hsymbol : (symbol, name) ∈ table)

include htable hsymbol

theorem operation_infix (type : String) {read : List Char → Block}
    (hread : ∀ o : Operand, read o.chars = o.block) (a b : Operand) :
    operation type table ⟨a.chars, symbol, b.chars⟩ read = infixBlock type name a b := by
  have hnames : ∀ table ∈ tables, ∀ e ∈ table, table.lookup e.1 = some e.2 := by decide
  rw [operation, hnames table htable _ hsymbol, hread, hread]
  rfl

end Infix

theorem infix_head?_ne (symbol : String) (a b : Operand) {c : Char} (hc : isNameChar c = false) :
    (infixChars symbol a b).head? ≠ some c := by
  obtain ⟨d, ds, hchars⟩ := List.exists_cons_of_ne_nil a.isWordText.ne_nil
  rw [infixChars, hchars]
  rintro ⟨⟩
  rw [a.isWordText.chars c (by simp [hchars])] at hc
  cases hc

theorem matchValue_arithmetic {read : List Char → Block}
    (hread : ∀ o : Operand, read o.chars = o.block) {symbol name : String}
    (h : (symbol, name) ∈ Block.arithmeticNames) (a b : Operand) :
    matchValue read (infixChars symbol a b) = infixBlock "math_arithmetic" name a b := by
  have htable : Block.arithmeticNames ∈ tables := by decide
  have hblank : ' ' ∈ infixChars symbol a b := by simp [infixChars]
  have hplain : plainValue? (infixChars symbol a b) = none :=
    plainValue?_of_mem hblank (by decide) (by decide) (infix_head?_ne symbol a b (by decide))
  have hparen : '(' ∉ infixChars symbol a b := fun hmem =>
    absurd (List.all_eq_true.mp (infix_inert a b (mem_operators_of_arithmetic h)) _ hmem)
      (by decide)
  have hoperation : operation? read (infixChars symbol a b) =
      some (infixBlock "math_arithmetic" name a b) := by
    rw [operation?, Block.operatorTables, List.findSome?_cons, split?_infix htable h,
      Option.map_some, operation_infix htable h _ hread]
  rw [matchValue, hplain, pinReading?_of_not_mem read hparen, hoperation]
  rfl

theorem plainCall?_call (name : String) (pin : Operand) :
    plainCall? name (callChars name pin.chars) = some pin.chars := by
  have hopen : '(' ∉ pin.chars := pin.not_mem_paren
  have hclose : ')' ∉ pin.chars := fun hmem => absurd (pin.isWordText.chars _ hmem) (by decide)
  rw [plainCall?, callInside?_call]
  simp [pin.isWordText.ne_nil, hopen, hclose]

/-- A pin is read by the one or the other of two calls. -/
theorem matchValue_reading {read : List Char → Block}
    (hread : ∀ o : Operand, read o.chars = o.block) (pin : Operand) :
    matchValue read (callChars "digitalRead" pin.chars) =
        readingBlock "arduino_digitalread" pin ∧
      matchValue read (callChars "analogRead" pin.chars) =
        readingBlock "arduino_analogread" pin := by
  have hplain : ∀ name ∈ ["digitalRead", "analogRead"],
      plainValue? (callChars name pin.chars) = none := by
    have hheads : ∀ name ∈ ["digitalRead", "analogRead"], name.toList.head?.any (· != '"') = true := by
      decide
    intro name hname
    refine plainValue?_of_mem (c := '(') (by simp [callChars]) (by decide) (by decide) ?_
    have hhead := hheads name hname
    rw [callChars, List.head?_append]
    cases hchar : name.toList.head? with
    | none =>
        rw [hchar] at hhead
        cases hhead
    | some c => simpa [hchar] using hhead
  have hother : callInside? "digitalRead" (callChars "analogRead" pin.chars) = none :=
    callInside?_of_ne (Plain.isWordText "analogRead" (by decide)) (by decide) (by decide) (by decide)
  constructor
  · rw [matchValue, hplain _ (by decide), pinReading?, plainCall?_call, Option.map_some,
      hread]
    rfl
  · rw [matchValue, hplain _ (by decide), pinReading?, plainCall?_call, plainCall?, hother,
      Option.map_some, hread]
    rfl

/-- The values of plain sketches are read as their blocks. -/
theorem matchValue_value {read : List Char → Block}
    (hread : ∀ o : Operand, read o.chars = o.block) : ∀ v : Value, matchValue read v.chars = v.block
  | .operand a => matchValue_operand read a
  | .arithmetic _ _ h a b => matchValue_arithmetic hread h a b
  | .digitalRead pin => (matchValue_reading hread pin).1
  | .analogRead pin => (matchValue_reading hread pin).2

/-- The conditions of plain sketches are read as their blocks. -/
theorem matchCondition_condition {r : Reader} (hread : ∀ o : Operand, r.value o.chars = o.block) :
    ∀ c : Condition, matchCondition r c.chars = c.block
  | .named x => by
      have hnone : ∀ table ∈ tables, split? table x.text.toList = none := fun table htable =>
        split?_quiet (word_quiet htable x.isWordText)
      rw [Condition.chars, matchCondition, hnone _ (by decide), hnone _ (by decide)]
      exact hread (.named x)
  | .comparison symbol name h a b => by
      have htable : Block.comparisonNames ∈ tables := by decide
      have hsymbols : ∀ e ∈ Block.comparisonNames, ∀ c ∈ e.1.toList,
          isQuiet (Block.connectiveNames.map Prod.fst) c = true := by decide
      have hword : ∀ o : Operand, ∀ c ∈ o.chars,
          isQuiet (Block.connectiveNames.map Prod.fst) c = true := fun o =>
        word_quiet (by decide) o.isWordText
      have hnone : split? Block.connectiveNames (infixChars symbol a b) = none := by
        refine split?_quiet fun c hc => ?_
        simp only [infixChars, List.mem_append, List.mem_cons] at hc
        rcases hc with hc | rfl | hc | rfl | hc
        · exact hword a c hc
        · decide
        · exact hsymbols _ h c hc
        · decide
        · exact hword b c hc
      rw [Condition.chars, matchCondition, hnone, split?_infix htable h]
      exact operation_infix htable h _ hread a b

/-! ## Levels -/

variable {levels : Nat}

theorem value_operand (a : Operand) : (reader (levels + 1)).value a.chars = a.block := by
  change matchValue (reader levels).value (trim a.chars) = a.block
  rw [a.isWordText.tight.trim_eq, matchValue_operand]

theorem value_value (v : Value) {gap : List Char} (hgap : ∀ c ∈ gap, isBlank c = true) :
    (reader (levels + 2)).value (gap ++ v.chars) = v.block := by
  change matchValue (reader (levels + 1)).value (trim (gap ++ v.chars)) = v.block
  rw [v.tight.trim_append hgap, matchValue_value value_operand]

theorem condition_condition (c : Condition) :
    (reader (levels + 2)).condition c.chars = c.block := by
  change matchCondition (reader (levels + 1)) (trim c.chars) = c.block
  rw [c.tight.trim_eq, matchCondition_condition value_operand]

end Plain

end InoBlocks
