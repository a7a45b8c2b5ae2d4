import InoBlocks.Proofs.Skim.Cutting
import InoBlocks.Proofs.Skim.PlainSketch
import InoBlocks.Proofs.Skim.PlainValues

/-!
# The statements of plain sketches

A piece that is a plain statement has the block of the statement.
-/

namespace InoBlocks

namespace Plain

open Text Skim

/-! ## Arguments -/

theorem firstArgument?_pair (a : Operand) (second : List Char) :
    firstArgument? (Simple.pairChars a.chars second) = some (a.chars, ' ' :: second) := by
  have hall : ∀ c ∈ a.chars, (c != ',') = true := by
    intro c hc
    have hne : c ≠ ',' := by
      rintro rfl
      exact absurd (a.isWordText.chars _ hc) (by decide)
    simpa using hne
  obtain ⟨c, cs, hchars⟩ := List.exists_cons_of_ne_nil a.isWordText.ne_nil
  have htake : (Simple.pairChars a.chars second).takeWhile (· != ',') = c :: cs := by
    rw [Simple.pairChars, List.takeWhile_append_of_pos hall, List.takeWhile_cons_of_neg (by decide),
      List.append_nil, hchars]
  have hdrop : (Simple.pairChars a.chars second).dropWhile (· != ',') = ',' :: ' ' :: second := by
    rw [Simple.pairChars, List.dropWhile_append_of_pos hall, List.dropWhile_cons_of_neg (by decide)]
  rw [firstArgument?, htake, hdrop, hchars]
  rfl

theorem trim_argument {word : List Char} (h : IsWordText word) : trim (' ' :: word) = word :=
  h.tight.trim_append (show ∀ c ∈ [' '], isBlank c = true by decide)

theorem wordCall?_pair (name : String) (a : Operand) {word : String}
    (h : IsWordText word.toList) :
    wordCall? name (callChars name (Simple.pairChars a.chars word.toList)) =
      some (a.chars, word) := by
  have hall : word.toList.all isWord = true :=
    List.all_eq_true.mpr fun c hc => isWord_of_isNameChar (h.chars c hc)
  rw [wordCall?, callInside?_call, Option.bind_eq_bind, Option.bind_some, firstArgument?_pair,
    Option.bind_eq_bind, Option.bind_some]
  dsimp only
  rw [trim_argument h]
  simp [h.ne_nil, hall]

theorem lineCall?_pair (name : String) (a b : Operand) :
    lineCall? name (callChars name (Simple.pairChars a.chars b.chars)) =
      some (a.chars, b.chars) := by
  have hfeed : '\n' ∉ b.chars := fun hmem => absurd (b.isWordText.chars _ hmem) (by decide)
  have hline : oneLine? (' ' :: b.chars) = some b.chars := by
    rw [oneLine?, trim_argument b.isWordText]
    simp [hfeed]
  rw [lineCall?, callInside?_call, Option.bind_eq_bind, Option.bind_some, firstArgument?_pair,
    Option.bind_eq_bind, Option.bind_some]
  dsimp only
  rw [hline]
  rfl

theorem integerCall?_integer (name : String) (n : Integer) :
    integerCall? name (callChars name n.chars) = some n.chars := by
  have hinteger : isInteger n.chars = true := by
    rw [isInteger, List.all_eq_true.mpr n.digits, Bool.and_true]
    simpa using n.ne_nil
  rw [integerCall?, callInside?_call, Option.bind_eq_bind, Option.bind_some,
    n.isWordText.tight.trim_eq, if_pos hinteger]

/-! ## Simple statements -/

def calledNames : List String :=
  ["pinMode", "digitalWrite", "analogWrite", "delay", "delayMicroseconds"]

theorem isWordText_called {name : String} (h : name ∈ calledNames) : IsWordText name.toList := by
  have hall : ∀ name ∈ calledNames, (name != "" && name.toList.all isNameChar) = true := by decide
  exact isWordText name (hall name h)

section Call

variable {name : String} (hname : name ∈ calledNames) (inside : List Char)

include hname

theorem callInside?_other {other : String} (hother : other ∈ calledNames) (hne : name ≠ other) :
    callInside? other (callChars name inside) = none :=
  callInside?_of_ne (isWordText_called hname) (by decide)
    (List.all_eq_true.mpr (isWordText_called hother).chars) fun h => hne (String.toList_inj.mp h)

theorem variableStatement?_call (r : Reader) :
    variableStatement? r (callChars name inside) = none := by
  have hword := isWordText_called hname
  have htypes : ∀ name ∈ calledNames, ∀ word ∈ "unsigned" :: typeWords,
      name.toList ≠ word.toList := by decide
  have hstarts : ∀ name ∈ calledNames, name.toList.head?.any isNameStart = true := by decide
  obtain ⟨c, cs, hchars⟩ := List.exists_cons_of_ne_nil hword.ne_nil
  have hstart : isNameStart c = true := by
    have hany := hstarts name hname
    rwa [hchars] at hany
  have htype : afterType? (callChars name inside) = none :=
    afterType?_of_ne hword (by decide) (htypes name hname _ List.mem_cons_self)
      fun word hmem => htypes name hname word (List.mem_cons_of_mem _ hmem)
  have hspan : spanName? (callChars name inside) =
      some (name.toList, '(' :: (inside ++ [')'])) :=
    spanName?_word hword ⟨c, cs, hchars, hstart⟩ (by decide)
  have hassigned : assigned? (callChars name inside) = none := by
    have hparen : trimStart ('(' :: (inside ++ [')'])) = '(' :: (inside ++ [')']) :=
      List.dropWhile_cons_of_neg (by decide)
    rw [assigned?, hspan, Option.bind_eq_bind, Option.bind_some]
    dsimp only
    rw [hparen]
    rfl
  rw [variableStatement?, define?, declare?, htype, hassigned]
  rfl

end Call

theorem wordCall?_other {name : String} (hname : name ∈ calledNames) (inside : List Char)
    {other : String} (hother : other ∈ calledNames) (hne : name ≠ other) :
    wordCall? other (callChars name inside) = none := by
  rw [wordCall?, callInside?_other hname inside hother hne]
  rfl

theorem lineCall?_other {name : String} (hname : name ∈ calledNames) (inside : List Char)
    {other : String} (hother : other ∈ calledNames) (hne : name ≠ other) :
    lineCall? other (callChars name inside) = none := by
  rw [lineCall?, callInside?_other hname inside hother hne]
  rfl

theorem integerCall?_other {name : String} (hname : name ∈ calledNames) (inside : List Char)
    {other : String} (hother : other ∈ calledNames) (hne : name ≠ other) :
    integerCall? other (callChars name inside) = none := by
  rw [integerCall?, callInside?_other hname inside hother hne]
  rfl

section Statement

variable {levels : Nat}

theorem callStatement?_pinMode (pin : Operand) (mode : String) (h : Blocks.isMode mode = true) :
    callStatement? (reader (levels + 1)) (Simple.pinMode pin mode h).chars =
      some (Simple.pinMode pin mode h).block := by
  have hcalled : "pinMode" ∈ calledNames := by decide
  have hmode : ["INPUT_PULLUP", "INPUT", "OUTPUT"].contains mode = true := by
    simp only [Blocks.isMode, Bool.or_eq_true, beq_iff_eq] at h
    rcases h with (rfl | rfl) | rfl <;> decide
  rw [callStatement?, Simple.chars, wordCall?_other hcalled _ (by decide) (by decide),
    wordCall?_pair "pinMode" pin (isWordText_mode h)]
  simp only [Option.bind_eq_bind, Option.bind_some, hmode, if_true, value_operand]
  rfl

theorem callStatement?_digitalWrite (pin : Operand) (state : String)
    (h : Blocks.isState state = true) :
    callStatement? (reader (levels + 1)) (Simple.digitalWrite pin state h).chars =
      some (Simple.digitalWrite pin state h).block := by
  have hlevel : level? state = some state := by
    simp only [Blocks.isState, Bool.or_eq_true, beq_iff_eq] at h
    rcases h with rfl | rfl <;> rfl
  rw [callStatement?, Simple.chars, wordCall?_pair "digitalWrite" pin (isWordText_state h)]
  simp only [Option.bind_eq_bind, Option.bind_some, hlevel, value_operand]
  rfl

theorem callStatement?_analogWrite (pin value : Operand) :
    callStatement? (reader (levels + 1)) (Simple.analogWrite pin value).chars =
      some (Simple.analogWrite pin value).block := by
  have hcalled : "analogWrite" ∈ calledNames := by decide
  rw [callStatement?, Simple.chars, wordCall?_other hcalled _ (by decide) (by decide),
    wordCall?_other hcalled _ (by decide) (by decide), lineCall?_pair]
  simp only [Option.bind_eq_bind, Option.bind_some, value_operand]
  rfl

theorem callStatement?_wait (call : String) (h : call ∈ ["delay", "delayMicroseconds"])
    (time : Integer) (r : Reader) :
    callStatement? r (Simple.wait call h time).chars = some (Simple.wait call h time).block := by
  have hsub : ∀ call ∈ ["delay", "delayMicroseconds"], call ∈ calledNames ∧
      ∀ other ∈ ["pinMode", "digitalWrite", "analogWrite"], call ≠ other := by decide
  obtain ⟨hcalled, hne⟩ := hsub call h
  rw [callStatement?, Simple.chars,
    wordCall?_other hcalled _ (by decide) (hne "digitalWrite" (by decide)),
    wordCall?_other hcalled _ (by decide) (hne "pinMode" (by decide)),
    lineCall?_other hcalled _ (by decide) (hne "analogWrite" (by decide))]
  simp only [List.mem_cons, List.not_mem_nil, or_false] at h
  rcases h with rfl | rfl
  · rw [List.findSome?_cons, integerCall?_integer]
    rfl
  · rw [List.findSome?_cons, integerCall?_other hcalled _ (by decide) (by decide),
      List.findSome?_cons, integerCall?_integer]
    rfl

theorem variableStatement?_assign (x : Name) (v : Value) :
    variableStatement? (reader (levels + 2)) (Simple.assign x v).chars =
      some (Simple.assign x v).block := by
  have hreserved : ∀ word ∈ "unsigned" :: typeWords, isReserved word.toList = true := by decide
  have htype : afterType? (Simple.assign x v).chars = none :=
    afterType?_of_ne x.isWordText (by decide) (x.toList_ne (hreserved _ List.mem_cons_self))
      fun word hmem => x.toList_ne (hreserved word (List.mem_cons_of_mem _ hmem))
  have hspan : spanName? (Simple.assign x v).chars =
      some (x.text.toList, ' ' :: '=' :: ' ' :: v.chars) :=
    spanName?_word x.isWordText x.exists_start (by decide)
  have hblank : trimStart (' ' :: '=' :: ' ' :: v.chars) = '=' :: ' ' :: v.chars := by
    rw [trimStart, List.dropWhile_cons_of_pos (by decide), List.dropWhile_cons_of_neg (by decide)]
  have hassigned : assigned? (Simple.assign x v).chars =
      some (x.text.toList, ' ' :: v.chars) := by
    rw [assigned?, hspan, Option.bind_eq_bind, Option.bind_some]
    dsimp only
    rw [hblank]
    rfl
  have hvalue : (reader (levels + 2)).value (' ' :: v.chars) = v.block :=
    value_value v (show ∀ c ∈ [' '], isBlank c = true by decide)
  rw [variableStatement?, define?, declare?, htype, hassigned]
  dsimp only [Option.bind_none, Option.bind_eq_bind]
  rw [x.nameIn_eq, hvalue]
  rfl

theorem Simple.read (s : Simple) :
    (variableStatement? (reader (levels + 2)) s.chars <|>
      callStatement? (reader (levels + 2)) s.chars) = some s.block := by
  cases s with
  | pinMode pin mode h =>
      rw [callStatement?_pinMode, Simple.chars, variableStatement?_call (by decide)]
      rfl
  | digitalWrite pin state h =>
      rw [callStatement?_digitalWrite, Simple.chars, variableStatement?_call (by decide)]
      rfl
  | analogWrite pin value =>
      rw [callStatement?_analogWrite, Simple.chars, variableStatement?_call (by decide)]
      rfl
  | wait call h time =>
      have hcalled : ∀ call ∈ ["delay", "delayMicroseconds"], call ∈ calledNames := by decide
      rw [callStatement?_wait, Simple.chars, variableStatement?_call (hcalled call h)]
      rfl
  | assign x v =>
      rw [variableStatement?_assign]
      rfl

theorem Simple.statement?_line (s : Simple) :
    statement? (reader (levels + 2)) s.line = some s.block := by
  have hbare : bareStatement s.line = s.chars := by
    have hlast : s.line.getLast? = some ';' := List.getLast?_concat
    rw [bareStatement, s.line_tight.trim_eq, hlast]
    simp [Simple.line, s.tight.trim_eq]
  obtain ⟨c, cs, hchars, -⟩ := s.tight.head
  rw [statement?, hbare]
  split
  · rename_i hnil
    rw [hnil] at hchars
    cases hchars
  · rw [s.read]
    rfl

theorem Simple.chunk?_line (s : Simple) : chunk? (reader (levels + 2)) s.line = some s.block := by
  obtain ⟨w, c, rest, hline, hw, hc, hne⟩ := s.beginsPlainly
  have hheader : ∀ word ∈ ["if", "for", "while"], startsHeader word s.line = false := by
    have hsub : ∀ word ∈ ["if", "for", "while"], word ∈ headWords ∧
        word.toList.all isNameChar = true := by decide
    intro word hword
    rw [hline]
    exact startsHeader_of_ne hw hc (hsub word hword).2 (hne word (hsub word hword).1)
  rw [chunk?, hheader "if" (by decide), hheader "for" (by decide), hheader "while" (by decide)]
  exact s.statement?_line

end Statement

end Plain

end InoBlocks
