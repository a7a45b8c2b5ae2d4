import InoBlocks.Proofs.Skim.Pieces

/-!
# The lines of plain sketches

Every line of a plain sketch is tight, its brackets nest, and no piece ends before its end.
-/

namespace InoBlocks

namespace Plain

open Text Skim

/-! ## Texts in a line -/

namespace Tight

variable {cs ds : List Char}

theorem append (h : Tight cs) (h' : Tight ds) : Tight (cs ++ ds) := by
  obtain ⟨c, cs', hcs, hc⟩ := h.head
  obtain ⟨ds', d, hds, hd⟩ := h'.last
  refine ⟨List.isChain_append.mpr ⟨h.chain, h'.chain, fun x hx y _ => ?_⟩,
    ⟨c, cs' ++ ds, by rw [hcs]; rfl, hc⟩, ⟨cs ++ ds', d, by rw [hds, List.append_assoc], hd⟩⟩
  exact follows_of_isFree (h.getLast?_free hx) y

theorem blank_cons_chain (h : Tight ds) : (' ' :: ds).IsChain Follows := by
  obtain ⟨d, ds', rfl, hd, -⟩ := h.head
  exact List.isChain_cons_cons.mpr
    ⟨⟨fun _ => ⟨rfl, hd⟩, fun hc => absurd hc (by decide), fun hc => absurd hc (by decide)⟩,
      h.chain⟩

theorem spaced (h : Tight cs) (h' : Tight ds) : Tight (cs ++ ' ' :: ds) := by
  obtain ⟨c, cs', hcs, hc⟩ := h.head
  obtain ⟨ds', d, hds, hd⟩ := h'.last
  refine ⟨List.isChain_append.mpr ⟨h.chain, h'.blank_cons_chain, fun x hx y _ => ?_⟩,
    ⟨c, cs' ++ ' ' :: ds, by rw [hcs]; rfl, hc⟩,
    ⟨cs ++ ' ' :: ds', d, by rw [hds, List.append_assoc]; rfl, hd⟩⟩
  exact follows_of_isFree (h.getLast?_free hx) y

theorem parens (h : Tight cs) : Tight ('(' :: (cs ++ [')'])) := by
  obtain ⟨c, cs', rfl, hc, hparen⟩ := h.head
  refine ⟨?_, ⟨'(', _, rfl, by decide, by decide⟩, ⟨'(' :: (c :: cs'), ')', rfl, by decide⟩⟩
  have hinside : (c :: cs' ++ [')']).IsChain Follows := List.isChain_append.mpr
    ⟨h.chain, .singleton _, fun x hx y _ => follows_of_isFree (h.getLast?_free hx) y⟩
  exact List.isChain_cons_cons.mpr ⟨⟨fun hb => absurd hb (by decide),
    fun hs => absurd hs (by decide), fun _ => ⟨hc, hparen⟩⟩, hinside⟩

theorem free {c : Char} (h : isFree c = true) (hparen : c ≠ ')') : Tight [c] :=
  ⟨.singleton c, ⟨c, [], rfl, not_isBlank_of_isFree h, hparen⟩, ⟨[], c, rfl, h⟩⟩

end Tight

theorem isFree_of_isNameChar {c : Char} (h : isNameChar c = true) : isFree c = true := by
  have hne : ∀ d : Char, isNameChar d = false → c ≠ d := by
    rintro d hd rfl
    rw [h] at hd
    cases hd
  simp [isFree, not_isBlank_of_isNameChar h, hne '/' (by decide), hne '(' (by decide)]

theorem isInert_of_isNameChar {c : Char} (h : isNameChar c = true) : isInert c = true := by
  have hne : ∀ d : Char, isNameChar d = false → c ≠ d := by
    rintro d hd rfl
    rw [h] at hd
    cases hd
  exact isInert_iff.mpr ⟨hne _ (by decide), hne _ (by decide), hne _ (by decide),
    hne _ (by decide), hne _ (by decide), hne _ (by decide)⟩

/-- A word: some characters of names. -/
structure IsWordText (cs : List Char) : Prop where
  ne_nil : cs ≠ []
  chars : ∀ c ∈ cs, isNameChar c = true

namespace IsWordText

variable {cs : List Char}

theorem tight (h : IsWordText cs) : Tight cs := by
  obtain ⟨c, ds, rfl⟩ := List.exists_cons_of_ne_nil h.ne_nil
  have hfree : ∀ d ∈ c :: ds, isFree d = true := fun d hd => isFree_of_isNameChar (h.chars d hd)
  have hchain : (c :: ds ++ []).IsChain Follows :=
    isChain_free_append (fun d hd => follows_of_isFree (hfree d hd)) .nil
  rw [List.append_nil] at hchain
  refine ⟨hchain, ⟨c, ds, rfl, not_isBlank_of_isFree (hfree c List.mem_cons_self), ?_⟩,
    ⟨(c :: ds).dropLast, (c :: ds).getLast h.ne_nil, by rw [List.dropLast_concat_getLast],
      hfree _ (List.getLast_mem _)⟩⟩
  rintro rfl
  exact absurd (h.chars _ List.mem_cons_self) (by decide)

theorem inert (h : IsWordText cs) : cs.all isInert = true :=
  List.all_eq_true.mpr fun c hc => isInert_of_isNameChar (h.chars c hc)

end IsWordText

/-! ## Operands, values and conditions -/

theorem Integer.isWordText (n : Integer) : IsWordText n.chars :=
  ⟨n.ne_nil, fun c hc => isNameChar_of_isDigit (n.digits c hc)⟩

theorem Name.isWordText (x : Name) : IsWordText x.text.toList := by
  obtain ⟨c, cs, htext, -, hchars, -⟩ := x.safe.exists_cons
  rw [htext]
  exact ⟨List.cons_ne_nil c cs, hchars⟩

theorem Operand.isWordText : ∀ a : Operand, IsWordText a.chars
  | .integer n => n.isWordText
  | .named x => x.isWordText

def operators : List (String × String) :=
  Block.arithmeticNames ++ Block.comparisonNames

/-- What is known of an operator in the midst of a line. -/
theorem operators_inert : ∀ e ∈ operators, e.1.toList.all isInert = true ∧
    (e.1.toList ++ [' ']).IsChain Follows ∧
    ∃ c cs, e.1.toList = c :: cs ∧ isBlank c = false := by
  have hlist : ∀ e ∈ operators, e.1.toList.all isInert = true ∧
      (e.1.toList ++ [' ']).IsChain Follows ∧ (e.1.toList.head?.any fun c => !isBlank c) = true := by
    decide
  intro e he
  obtain ⟨hinert, hchain, hhead⟩ := hlist e he
  refine ⟨hinert, hchain, ?_⟩
  cases hchars : e.1.toList with
  | nil =>
      rw [hchars] at hhead
      cases hhead
  | cons c cs =>
      rw [hchars] at hhead
      exact ⟨c, cs, rfl, by simpa using hhead⟩

section Infix

variable {symbol name : String} (a b : Operand)

theorem infix_inert (h : (symbol, name) ∈ operators) :
    (infixChars symbol a b).all isInert = true := by
  have hblank : isInert ' ' = true := by decide
  simp only [infixChars, List.all_append, List.all_cons, a.isWordText.inert, b.isWordText.inert,
    (operators_inert _ h).1, hblank, Bool.and_self]

theorem infix_tight (h : (symbol, name) ∈ operators) : Tight (infixChars symbol a b) := by
  obtain ⟨-, hchain, c, cs, hsymbol, hc⟩ := operators_inert _ h
  dsimp only at hchain hsymbol
  have ha := a.isWordText.tight
  have hb := b.isWordText.tight
  obtain ⟨ds, d, hlast, hd⟩ := hb.last
  obtain ⟨e, es, hhead, he⟩ := ha.head
  have hright : (symbol.toList ++ ' ' :: b.chars).IsChain Follows := by
    have hjoined : (symbol.toList ++ [' '] ++ b.chars).IsChain Follows :=
      hchain.append_overlap hb.blank_cons_chain (List.cons_ne_nil _ _)
    rwa [List.append_assoc] at hjoined
  have hblank : (' ' :: (symbol.toList ++ ' ' :: b.chars)).IsChain Follows := by
    rw [List.isChain_cons]
    refine ⟨fun x hx => ?_, hright⟩
    rw [hsymbol] at hx
    cases hx
    exact ⟨fun _ => ⟨rfl, hc⟩, fun h => absurd h (by decide), fun h => absurd h (by decide)⟩
  refine ⟨List.isChain_append.mpr ⟨ha.chain, hblank, fun x hx y _ => ?_⟩,
    ⟨e, es ++ ' ' :: (symbol.toList ++ ' ' :: b.chars), by rw [infixChars, hhead]; rfl, he⟩,
    ⟨a.chars ++ ' ' :: (symbol.toList ++ ' ' :: ds), d, by simp [infixChars, hlast], hd⟩⟩
  exact follows_of_isFree (ha.getLast?_free hx) y

end Infix

theorem mem_operators_of_arithmetic {e : String × String} (h : e ∈ Block.arithmeticNames) :
    e ∈ operators :=
  List.mem_append_left _ h

theorem mem_operators_of_comparison {e : String × String} (h : e ∈ Block.comparisonNames) :
    e ∈ operators :=
  List.mem_append_right _ h

theorem Condition.inert : ∀ c : Condition, c.chars.all isInert = true
  | .named x => x.isWordText.inert
  | .comparison _ _ h a b => infix_inert a b (mem_operators_of_comparison h)

theorem Condition.tight : ∀ c : Condition, Tight c.chars
  | .named x => x.isWordText.tight
  | .comparison _ _ h a b => infix_tight a b (mem_operators_of_comparison h)

/-! ## Calls -/

theorem isWordText (name : String)
    (h : (name != "" && name.toList.all isNameChar) = true) :
    IsWordText name.toList := by
  simp only [Bool.and_eq_true, bne_iff_ne, List.all_eq_true] at h
  exact ⟨fun hnil => h.1 (by rw [← String.ofList_toList (s := name), hnil]), h.2⟩

theorem call_tight {name : String} (hname : IsWordText name.toList) {inside : List Char}
    (h : Tight inside) : Tight (callChars name inside) :=
  hname.tight.append h.parens

theorem level_of_inert {cs : List Char} (h : cs.all isInert = true)
    (hends : ∀ c ∈ cs, c ≠ ';' ∧ c ≠ '\n') : Level cs := by
  induction cs with
  | nil => exact .nil
  | cons c cs ih =>
      simp only [List.all_cons, Bool.and_eq_true] at h
      obtain ⟨hc, hcs⟩ := List.forall_mem_cons.mp hends
      exact .inert h.1 hc.1 hc.2 (ih h.2 hcs)

theorem IsWordText.ne_end {cs : List Char} (h : IsWordText cs) : ∀ c ∈ cs, c ≠ ';' ∧ c ≠ '\n' := by
  intro c hc
  constructor <;> (rintro rfl; exact absurd (h.chars _ hc) (by decide))

theorem IsWordText.level {cs : List Char} (h : IsWordText cs) : Level cs :=
  level_of_inert h.inert h.ne_end

theorem call_level {name : String} (hname : IsWordText name.toList) {inside : List Char}
    (h : inside.all isInert = true) : Level (callChars name inside) :=
  hname.level.append (.parens h .nil)

theorem infix_level {symbol name : String} (a b : Operand) (h : (symbol, name) ∈ operators) :
    Level (infixChars symbol a b) := by
  have hsymbols : ∀ e ∈ operators, ∀ c ∈ e.1.toList, c ≠ ';' ∧ c ≠ '\n' := by decide
  refine level_of_inert (infix_inert a b h) fun c hc => ?_
  simp only [infixChars, List.mem_append, List.mem_cons] at hc
  rcases hc with hc | rfl | hc | rfl | hc
  · exact a.isWordText.ne_end c hc
  · decide
  · exact hsymbols _ h c hc
  · decide
  · exact b.isWordText.ne_end c hc

namespace Value

theorem level : ∀ v : Value, Level v.chars
  | operand a => a.isWordText.level
  | arithmetic _ _ h a b => infix_level a b (mem_operators_of_arithmetic h)
  | digitalRead pin => call_level (Plain.isWordText "digitalRead" (by decide)) pin.isWordText.inert
  | analogRead pin => call_level (Plain.isWordText "analogRead" (by decide)) pin.isWordText.inert

theorem tight : ∀ v : Value, Tight v.chars
  | operand a => a.isWordText.tight
  | arithmetic _ _ h a b => infix_tight a b (mem_operators_of_arithmetic h)
  | digitalRead pin => call_tight (Plain.isWordText "digitalRead" (by decide)) pin.isWordText.tight
  | analogRead pin => call_tight (Plain.isWordText "analogRead" (by decide)) pin.isWordText.tight

end Value

/-! ## Statements -/

theorem isWordText_mode {mode : String} (h : Blocks.isMode mode = true) :
    IsWordText mode.toList := by
  simp only [Blocks.isMode, Bool.or_eq_true, beq_iff_eq] at h
  rcases h with (rfl | rfl) | rfl <;> exact isWordText _ (by decide)

theorem isWordText_state {state : String} (h : Blocks.isState state = true) :
    IsWordText state.toList := by
  simp only [Blocks.isState, Bool.or_eq_true, beq_iff_eq] at h
  rcases h with rfl | rfl <;> exact isWordText _ (by decide)

theorem isWordText_wait {call : String} (h : call ∈ ["delay", "delayMicroseconds"]) :
    IsWordText call.toList := by
  have hall : ∀ call ∈ ["delay", "delayMicroseconds"],
      (call != "" && call.toList.all isNameChar) = true := by decide
  exact isWordText call (hall call h)

namespace Simple

theorem pair_inert {first second : List Char} (h : first.all isInert = true)
    (h' : second.all isInert = true) : (pairChars first second).all isInert = true := by
  have hcomma : isInert ',' = true := by decide
  have hblank : isInert ' ' = true := by decide
  simp only [pairChars, List.all_append, List.all_cons, h, h', hcomma, hblank, Bool.and_self]

theorem pair_tight {first second : List Char} (h : Tight first) (h' : Tight second) :
    Tight (pairChars first second) := by
  have hcomma : Tight [','] := .free (by decide) (by decide)
  simpa [pairChars] using (h.append hcomma).spaced h'

theorem level : ∀ s : Simple, Level s.chars
  | pinMode pin _ h => call_level (Plain.isWordText "pinMode" (by decide))
      (pair_inert pin.isWordText.inert (isWordText_mode h).inert)
  | digitalWrite pin _ h => call_level (Plain.isWordText "digitalWrite" (by decide))
      (pair_inert pin.isWordText.inert (isWordText_state h).inert)
  | analogWrite pin value => call_level (Plain.isWordText "analogWrite" (by decide))
      (pair_inert pin.isWordText.inert value.isWordText.inert)
  | wait _ h time => call_level (isWordText_wait h) time.isWordText.inert
  | assign x v => x.isWordText.level.append <|
      .inert (by decide) (by decide) (by decide) <|
        .inert (by decide) (by decide) (by decide) <|
          .inert (by decide) (by decide) (by decide) v.level

theorem tight : ∀ s : Simple, Tight s.chars
  | pinMode pin _ h => call_tight (Plain.isWordText "pinMode" (by decide))
      (pair_tight pin.isWordText.tight (isWordText_mode h).tight)
  | digitalWrite pin _ h => call_tight (Plain.isWordText "digitalWrite" (by decide))
      (pair_tight pin.isWordText.tight (isWordText_state h).tight)
  | analogWrite pin value => call_tight (Plain.isWordText "analogWrite" (by decide))
      (pair_tight pin.isWordText.tight value.isWordText.tight)
  | wait _ h time => call_tight (isWordText_wait h) time.isWordText.tight
  | assign x v => by
      have hsign : Tight ['='] := .free (by decide) (by decide)
      simpa [chars] using x.isWordText.tight.spaced (hsign.spaced v.tight)

theorem line_tight (s : Simple) : Tight s.line :=
  s.tight.append (.free (by decide) (by decide))

end Simple

/-! ## Headers -/

def headerFront (word : String) (inside : List Char) : List Char :=
  word.toList ++ ' ' :: '(' :: (inside ++ [')', ' '])

theorem headerChars_eq (word : String) (inside : List Char) :
    headerChars word inside = headerFront word inside ++ ['{'] := by
  simp [headerChars, headerFront]

theorem headerFront_level {word : String} (hword : IsWordText word.toList) {inside : List Char}
    (h : inside.all isInert = true) : Level (headerFront word inside) := by
  have hblank : Level [' '] := .inert (by decide) (by decide) (by decide) .nil
  simpa [headerFront] using hword.level.append (hblank.append (.parens h hblank))

theorem header_tight {word : String} (hword : IsWordText word.toList) {inside : List Char}
    (h : Tight inside) : Tight (headerChars word inside) := by
  have hbrace : Tight ['{'] := .free (by decide) (by decide)
  simpa [headerChars] using (hword.tight.spaced h.parens).spaced hbrace

theorem count_inert (bound : Integer) : (countChars bound).all isInert = true := by
  have hfront : countFront.all isInert = true := by decide
  have hback : countBack.all isInert = true := by decide
  simp only [countChars, List.all_append, bound.isWordText.inert, hfront, hback, Bool.and_self]

theorem count_tight (bound : Integer) : Tight (countChars bound) := by
  have hfront : Tight "int i = 0; i <".toList :=
    ⟨by decide, ⟨'i', "nt i = 0; i <".toList, by decide, by decide⟩,
      ⟨"int i = 0; i ".toList, '<', by decide, by decide⟩⟩
  have hback : Tight countBack :=
    ⟨by decide, ⟨';', " i++".toList, by decide, by decide⟩,
      ⟨"; i+".toList, '+', by decide, by decide⟩⟩
  have hsplit : countFront = "int i = 0; i <".toList ++ [' '] := by decide
  rw [countChars, hsplit, List.append_assoc, List.singleton_append]
  exact hfront.spaced (bound.isWordText.tight.append hback)

namespace Header

theorem isWordText : ∀ h : Header, IsWordText h.word.toList
  | branch _ => Plain.isWordText "if" (by decide)
  | whileLoop _ => Plain.isWordText "while" (by decide)
  | forLoop _ => Plain.isWordText "for" (by decide)

theorem inside_inert : ∀ h : Header, h.inside.all isInert = true
  | branch test => test.inert
  | whileLoop test => test.inert
  | forLoop bound => count_inert bound

theorem inside_tight : ∀ h : Header, Tight h.inside
  | branch test => test.tight
  | whileLoop test => test.tight
  | forLoop bound => count_tight bound

theorem line_tight (h : Header) : Tight h.line :=
  header_tight h.isWordText h.inside_tight

end Header

theorem else_tight : Tight elseChars :=
  ⟨by decide, ⟨'}', " else \x7b".toList, by decide, by decide⟩,
    ⟨"\x7d else ".toList, '{', by decide, by decide⟩⟩

theorem brace_tight : Tight ['}'] :=
  .free (by decide) (by decide)

end Plain

end InoBlocks
