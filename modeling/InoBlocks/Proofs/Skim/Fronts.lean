import InoBlocks.Proofs.Skim.PlainLines
import InoBlocks.Skim.Pattern

/-!
# What a statement begins with

A statement of a plain sketch begins with a word and goes on with a blank or a parenthesis.  Which
shape it has is told by that word alone.
-/

namespace InoBlocks

namespace Text

theorem after?_eq_some {front cs rest : List Char} :
    after? front cs = some rest ↔ cs = front ++ rest := by
  rw [after?, startsWith]
  constructor
  · intro h
    split at h
    · rename_i hfront
      obtain ⟨more, rfl⟩ := List.isPrefixOf_iff_prefix.mp hfront
      rw [List.drop_left, Option.some.injEq] at h
      rw [h]
    · cases h
  · rintro rfl
    rw [if_pos (List.isPrefixOf_iff_prefix.mpr (List.prefix_append front rest)), List.drop_left]

/-- A word in front of a text ends where the text does not go on with characters of names. -/
theorem after?_word {front w rest : List Char} {c : Char}
    (hfront : ∀ d ∈ front, isNameChar d = true) (hc : isNameChar c = false) :
    after? front (w ++ c :: rest) = (after? front w).map (· ++ c :: rest) := by
  cases h : after? front w with
  | some v =>
      rw [after?_eq_some] at h
      rw [h, List.append_assoc, Option.map_some]
      exact after?_eq_some.mpr rfl
  | none =>
      rw [Option.map_none]
      by_contra hne
      obtain ⟨v, hv⟩ := Option.ne_none_iff_exists'.mp hne
      rw [after?_eq_some] at hv
      rcases List.append_eq_append_iff.mp hv with ⟨more, hmore, hrest⟩ | ⟨more, hmore, -⟩
      · cases more with
        | nil =>
            rw [List.append_nil] at hmore
            rw [hmore, after?_eq_some.mpr (List.append_nil w).symm] at h
            cases h
        | cons d more =>
            obtain ⟨rfl, -⟩ := List.cons.inj hrest
            rw [hfront c (by rw [hmore]; simp)] at hc
            cases hc
      · rw [after?_eq_some.mpr hmore] at h
        cases h

end Text

theorem IsSafe.ne {name word : String} (h : IsSafe name) (hword : isReserved word.toList = true) :
    name ≠ word := by
  rintro rfl
  obtain ⟨c, cs, hname, -, -, hfree⟩ := h.exists_cons
  rw [hname, hfree] at hword
  cases hword

namespace Plain

open Text Skim

section Word

variable {w rest : List Char} {c : Char} (hw : IsWordText w) (hc : isNameChar c = false)

include hw hc

/-- A word that is not a given one goes on behind it, or does not begin with it. -/
theorem after?_of_ne {front : List Char} (hfront : ∀ d ∈ front, isNameChar d = true)
    (hne : w ≠ front) (rest : List Char) : after? front (w ++ c :: rest) = none ∨
      ∃ d v, isNameChar d = true ∧ after? front (w ++ c :: rest) = some (d :: v) := by
  rw [after?_word hfront hc]
  cases h : after? front w with
  | none => exact Or.inl rfl
  | some v =>
      rw [after?_eq_some] at h
      cases v with
      | nil => exact absurd (h.trans (List.append_nil front)) hne
      | cons d v =>
          exact Or.inr ⟨d, v ++ c :: rest, hw.chars d (by rw [h]; simp), rfl⟩

theorem startsWithWord_of_ne {word : String} (hword : word.toList.all isNameChar = true)
    (hne : w ≠ word.toList) : startsWithWord word (w ++ c :: rest) = false := by
  rw [startsWithWord]
  rcases after?_of_ne hw hc (List.all_eq_true.mp hword) hne rest with h | ⟨d, v, hd, h⟩
  · rw [h]
    rfl
  · rw [h]
    simp [endsWord, isWord_of_isNameChar hd]

theorem startsHeader_of_ne {word : String} (hword : word.toList.all isNameChar = true)
    (hne : w ≠ word.toList) : startsHeader word (w ++ c :: rest) = false := by
  rw [startsHeader]
  rcases after?_of_ne hw hc (List.all_eq_true.mp hword) hne rest with h | ⟨d, v, hd, h⟩
  · rw [h]
    rfl
  · have hparen : d ≠ '(' := by
      rintro rfl
      exact absurd hd (by decide)
    rw [h, Option.map_some, Option.getD_some, trimStart,
      List.dropWhile_cons_of_neg (by simp [not_isBlank_of_isNameChar hd])]
    simpa using hparen

theorem afterTypeWord?_of_ne (hne : ∀ word ∈ typeWords, w ≠ word.toList) :
    afterTypeWord? (w ++ c :: rest) = none := by
  have hwords : ∀ word ∈ typeWords, word.toList.all isNameChar = true := by decide
  rw [afterTypeWord?]
  cases hany : afterAny? typeWords (w ++ c :: rest) with
  | none => rfl
  | some found =>
      obtain ⟨word, hmem, hfound⟩ := List.exists_of_findSome?_eq_some hany
      obtain ⟨v, hv, rfl⟩ := Option.map_eq_some_iff.mp hfound
      rcases after?_of_ne hw hc (List.all_eq_true.mp (hwords word hmem)) (hne word hmem)
        rest with h | ⟨d, v', hd, h⟩
      · rw [h] at hv
        cases hv
      · rw [h] at hv
        cases hv
        simp [afterBlanks?, not_isBlank_of_isNameChar hd]

theorem afterType?_of_ne (hunsigned : w ≠ "unsigned".toList)
    (hne : ∀ word ∈ typeWords, w ≠ word.toList) : afterType? (w ++ c :: rest) = none := by
  have hnone : (after? "unsigned".toList (w ++ c :: rest)).bind afterBlanks? = none := by
    rcases after?_of_ne hw hc (by decide) hunsigned rest with h | ⟨d, v, hd, h⟩
    · rw [h]
      rfl
    · rw [h]
      simp [afterBlanks?, not_isBlank_of_isNameChar hd]
  rw [afterType?, hnone, afterTypeWord?_of_ne hw hc hne]
  rfl

theorem callInside?_of_ne {name : String} (hname : name.toList.all isNameChar = true)
    (hne : w ≠ name.toList) : callInside? name (w ++ c :: rest) = none := by
  rw [callInside?]
  rcases after?_of_ne hw hc (List.all_eq_true.mp hname) hne rest with h | ⟨d, v, hd, h⟩
  · rw [h]
    rfl
  · have hparen : d ≠ '(' := by
      rintro rfl
      exact absurd hd (by decide)
    have htrim : trimStart (d :: v) = d :: v := by
      rw [trimStart, List.dropWhile_cons_of_neg (by simp [not_isBlank_of_isNameChar hd])]
    rw [h, Option.bind_eq_bind, Option.bind_some, htrim]
    split
    · rename_i heq
      exact absurd (List.cons.inj heq).1 hparen
    · rfl

omit hc in
theorem spanName?_word (hstart : ∃ d ds, w = d :: ds ∧ isNameStart d = true)
    (hc' : isWord c = false) : spanName? (w ++ c :: rest) = some (w, c :: rest) := by
  obtain ⟨d, ds, rfl, hd⟩ := hstart
  have hall : ∀ e ∈ ds, isWord e = true := fun e he =>
    isWord_of_isNameChar (hw.chars e (List.mem_cons_of_mem d he))
  rw [List.cons_append, spanName?, if_pos hd, List.takeWhile_append_of_pos hall,
    List.dropWhile_append_of_pos hall, List.takeWhile_cons_of_neg (by simp [hc']),
    List.dropWhile_cons_of_neg (by simp [hc']), List.append_nil]

end Word

theorem callInside?_call (name : String) (inside : List Char) :
    callInside? name (callChars name inside) = some inside := by
  have hparen : trimStart ('(' :: (inside ++ [')'])) = '(' :: (inside ++ [')']) :=
    List.dropWhile_cons_of_neg (by decide)
  rw [callInside?, callChars, after?_eq_some.mpr rfl, Option.bind_eq_bind, Option.bind_some, hparen]
  simp

/-! ## The words of plain statements -/

/-- The words that a statement with a body begins with, and the one behind it. -/
def headWords : List String := ["else", "if", "for", "while"]

theorem Name.exists_start (x : Name) :
    ∃ d ds, x.text.toList = d :: ds ∧ isNameStart d = true := by
  obtain ⟨d, ds, hname, hstart, -⟩ := x.safe.exists_start
  exact ⟨d, ds, hname, hstart⟩

theorem Name.toList_ne (x : Name) {word : String} (h : isReserved word.toList = true) :
    x.text.toList ≠ word.toList :=
  fun heq => x.safe.ne h (String.toList_inj.mp heq)

/-- A text begins with a word that is none of the words of statements with a body. -/
def BeginsPlainly (cs : List Char) : Prop :=
  ∃ w c rest, cs = w ++ c :: rest ∧ IsWordText w ∧ isNameChar c = false ∧
    ∀ word ∈ headWords, w ≠ word.toList

theorem beginsPlainly_call (name : String) (inside : List Char)
    (h : IsWordText name.toList) (hname : name ∉ headWords) :
    BeginsPlainly (callChars name inside ++ [';']) := by
  refine ⟨name.toList, '(', inside ++ [')'] ++ [';'], by simp [callChars], h, by decide, ?_⟩
  rintro word hword heq
  exact hname (String.toList_inj.mp heq ▸ hword)

theorem Simple.beginsPlainly : ∀ s : Simple, BeginsPlainly s.line
  | .pinMode _ _ _ => beginsPlainly_call _ _ (Plain.isWordText "pinMode" (by decide)) (by decide)
  | .digitalWrite _ _ _ => beginsPlainly_call _ _ (Plain.isWordText "digitalWrite" (by decide)) (by decide)
  | .analogWrite _ _ => beginsPlainly_call _ _ (Plain.isWordText "analogWrite" (by decide)) (by decide)
  | .wait call h time => by
      have hall : ∀ call ∈ ["delay", "delayMicroseconds"], call ∉ headWords := by decide
      exact beginsPlainly_call _ _ (isWordText_wait h) (hall call h)
  | .assign x v => by
      have hreserved : ∀ word ∈ headWords, isReserved word.toList = true := by decide
      exact ⟨x.text.toList, ' ', '=' :: ' ' :: v.chars ++ [';'], by simp [Simple.line, Simple.chars],
        x.isWordText, by decide, fun word hword => x.toList_ne (hreserved word hword)⟩

theorem Header.exists_front (h : Header) :
    ∃ rest, h.line = h.word.toList ++ ' ' :: '(' :: rest ∧ h.word ∈ ["if", "for", "while"] := by
  refine ⟨h.inside ++ [')', ' ', '{'], rfl, ?_⟩
  cases h <;> simp [Header.word]

end Plain

end InoBlocks
