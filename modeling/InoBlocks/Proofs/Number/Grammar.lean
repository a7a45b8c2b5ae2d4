import InoBlocks.Number.Numeral
import InoBlocks.Proofs.Token.FirmText

/-!
# The grammar of typed numbers

A number as it is typed: perhaps a sign, digits of any script with at most one point among them,
and perhaps an exponent.  What `front?` finds at the front of a text is of this form, and of a text
of this form it finds all.
-/

namespace InoBlocks

namespace Text

theorem not_isBlank_of_isDecimal {c : Char} (h : isDecimal c = true) : isBlank c = false := by
  have hscripts : ∀ first ∈ digitZeros, ∀ k < 10, isBlank (Char.ofNat (first + k)) = false := by
    decide +kernel
  by_cases hdigit : c.isDigit = true
  · exact not_isBlank_of_isNameChar (isNameChar_of_isDigit hdigit)
  · rw [isDecimal, digitValue?, if_neg hdigit, Option.isSome_map, List.find?_isSome] at h
    obtain ⟨first, hfirst, hrange⟩ := h
    simp only [Bool.and_eq_true, decide_eq_true_eq] at hrange
    have hblank := hscripts first hfirst (c.toNat - first) (by omega)
    rwa [show first + (c.toNat - first) = c.toNat by omega, Char.ofNat_toNat] at hblank

end Text

namespace Number

open Text

def AllDecimal (cs : List Char) : Prop :=
  ∀ c ∈ cs, isDecimal c = true

/-- A sign, or none. -/
inductive IsSign : List Char → Prop
  | none : IsSign []
  | minus : IsSign ['-']
  | plus : IsSign ['+']

/-- Digits with at most one point among them, before them or behind them. -/
inductive IsMantissa : List Char → Prop
  | whole {ds : List Char} (hne : ds ≠ []) (hds : AllDecimal ds) : IsMantissa ds
  | pointed {ds es : List Char} (hds : AllDecimal ds) (hes : AllDecimal es)
      (hne : ds ≠ [] ∨ es ≠ []) : IsMantissa (ds ++ '.' :: es)

/-- An exponent, or none. -/
inductive IsExponent : List Char → Prop
  | none : IsExponent []
  | letter {c : Char} {sign ds : List Char} (hc : c = 'e' ∨ c = 'E') (hsign : IsSign sign)
      (hne : ds ≠ []) (hds : AllDecimal ds) : IsExponent (c :: (sign ++ ds))

/-- A number as it is typed. -/
inductive IsSpelling : List Char → Prop
  | parts {sign mantissa exponent : List Char} (hsign : IsSign sign)
      (hmantissa : IsMantissa mantissa) (hexponent : IsExponent exponent) :
      IsSpelling (sign ++ (mantissa ++ exponent))

/-! ## Signs and digits -/

theorem not_isDecimal_of_mem_marks {c : Char} (h : c ∈ ['-', '+', '.', 'e', 'E']) :
    isDecimal c = false := by
  have hmarks : ∀ d ∈ ['-', '+', '.', 'e', 'E'], isDecimal d = false := by decide
  exact hmarks c h

theorem isSign_spanSign (cs : List Char) : IsSign (spanSign cs).1 := by
  unfold spanSign
  split
  · exact .minus
  · exact .plus
  · exact .none

theorem spanSign_append {sign cs : List Char} (h : IsSign sign)
    (hcs : ∀ c ∈ cs.head?, c ≠ '-' ∧ c ≠ '+') : spanSign (sign ++ cs) = (sign, cs) := by
  cases h with
  | minus => rfl
  | plus => rfl
  | none =>
      rw [List.nil_append]
      unfold spanSign
      split
      · exact absurd rfl (hcs '-' rfl).1
      · exact absurd rfl (hcs '+' rfl).2
      · rfl

theorem ne_sign_of_isDecimal {c : Char} (h : isDecimal c = true) : c ≠ '-' ∧ c ≠ '+' := by
  constructor
  · rintro rfl
    exact absurd h (by decide)
  · rintro rfl
    exact absurd h (by decide)

theorem spanDigits_append {ds rest : List Char} (h : AllDecimal ds)
    (hrest : ∀ c ∈ rest.head?, isDecimal c = false) : spanDigits (ds ++ rest) = (ds, rest) := by
  rw [spanDigits, List.takeWhile_append_of_pos h, List.dropWhile_append_of_pos h]
  cases rest with
  | nil => simp
  | cons c rest =>
      have hc := Bool.eq_false_iff.mp (hrest c rfl)
      rw [List.takeWhile_cons_of_neg hc, List.dropWhile_cons_of_neg hc, List.append_nil]

theorem spanDigits_of_allDecimal {ds : List Char} (h : AllDecimal ds) :
    spanDigits ds = (ds, []) := by
  have hnil : ∀ c ∈ ([] : List Char).head?, isDecimal c = false := by simp
  simpa using spanDigits_append h hnil

theorem allDecimal_spanDigits (cs : List Char) : AllDecimal (spanDigits cs).1 :=
  List.all_eq_true.mp List.all_takeWhile

/-! ## Exponents -/

theorem isExponent_exponentFront (cs : List Char) : IsExponent (exponentFront cs) := by
  unfold exponentFront
  split
  · exact .none
  · rename_i c cs
    dsimp only
    split
    · rename_i hletter
      simp only [Bool.and_eq_true, Bool.or_eq_true, beq_iff_eq, Bool.not_eq_true',
        List.isEmpty_eq_false_iff] at hletter
      exact .letter hletter.1 (isSign_spanSign cs) hletter.2 (allDecimal_spanDigits _)
    · exact .none

theorem IsExponent.exponentFront {cs : List Char} (h : IsExponent cs) : exponentFront cs = cs := by
  cases h with
  | none => rfl
  | @letter c sign ds hc hsign hne hds =>
      obtain ⟨d, ds, rfl⟩ := List.exists_cons_of_ne_nil hne
      have hfirst := ne_sign_of_isDecimal (hds d List.mem_cons_self)
      have hspan := spanDigits_of_allDecimal hds
      have hletter : (c == 'e' || c == 'E') = true := by
        simpa using hc
      rw [Number.exponentFront, spanSign_append hsign (by simpa using hfirst)]
      dsimp only
      rw [hspan, hletter]
      rfl

/-- An exponent begins with what is neither a digit nor a point. -/
theorem IsExponent.head? {cs : List Char} (h : IsExponent cs) :
    ∀ c ∈ cs.head?, isDecimal c = false ∧ c ≠ '.' := by
  cases h with
  | none => simp
  | letter hc hsign hne hds =>
      intro d hd
      obtain rfl := Option.mem_some_iff.mp hd
      rcases hc with rfl | rfl <;> decide

/-! ## Digits and a point -/

theorem isMantissa_of_mantissaFront? {cs mantissa rest : List Char}
    (h : mantissaFront? cs = some (mantissa, rest)) : IsMantissa mantissa := by
  unfold mantissaFront? at h
  dsimp only at h
  split at h
  · split at h
    · cases h
    · rename_i hsome
      cases h
      refine .pointed (allDecimal_spanDigits _) (allDecimal_spanDigits _) ?_
      simpa [Classical.or_iff_not_imp_left] using hsome
  · split at h
    · cases h
    · rename_i hsome
      cases h
      exact .whole (by simpa using hsome) (allDecimal_spanDigits _)

theorem IsMantissa.mantissaFront? {mantissa rest : List Char} (h : IsMantissa mantissa)
    (hrest : ∀ c ∈ rest.head?, isDecimal c = false ∧ c ≠ '.') :
    mantissaFront? (mantissa ++ rest) = some (mantissa, rest) := by
  have hdigits : ∀ c ∈ rest.head?, isDecimal c = false := fun c hc => (hrest c hc).1
  cases h with
  | whole hne hds =>
      rw [Number.mantissaFront?, spanDigits_append hds hdigits]
      dsimp only
      split
      · exact absurd rfl (hrest '.' rfl).2
      · rw [if_neg (by simpa using hne)]
  | @pointed ds es hds hes hne =>
      have hpoint : ∀ c ∈ ('.' :: (es ++ rest)).head?, isDecimal c = false := by
        simp [not_isDecimal_of_mem_marks]
      have hspan := spanDigits_append hes hdigits
      have hsome : ¬(ds.isEmpty && es.isEmpty) = true := by
        simpa [Classical.or_iff_not_imp_left] using hne
      rw [List.append_assoc, List.cons_append, Number.mantissaFront?, spanDigits_append hds hpoint]
      simp only [hspan, hsome]
      rfl

theorem IsMantissa.head? {mantissa : List Char} (h : IsMantissa mantissa) :
    ∃ c cs, mantissa = c :: cs ∧ (isDecimal c = true ∨ c = '.') := by
  cases h with
  | whole hne hds =>
      obtain ⟨c, cs, rfl⟩ := List.exists_cons_of_ne_nil hne
      exact ⟨c, cs, rfl, Or.inl (hds c List.mem_cons_self)⟩
  | @pointed ds es hds hes hne =>
      cases ds with
      | nil => exact ⟨'.', es, rfl, Or.inr rfl⟩
      | cons c cs => exact ⟨c, cs ++ '.' :: es, rfl, Or.inl (hds c List.mem_cons_self)⟩

/-- What begins with the digits and the point of a number has no sign in front. -/
theorem IsMantissa.ne_sign {mantissa : List Char} (h : IsMantissa mantissa) (rest : List Char) :
    ∀ c ∈ (mantissa ++ rest).head?, c ≠ '-' ∧ c ≠ '+' := by
  obtain ⟨c, cs, rfl, hc⟩ := h.head?
  intro d hd
  obtain rfl := Option.mem_some_iff.mp hd
  rcases hc with hc | rfl
  · exact ne_sign_of_isDecimal hc
  · decide

theorem IsMantissa.isDecimal_or_point {mantissa : List Char} (h : IsMantissa mantissa) {c : Char}
    (hc : c ∈ mantissa) : isDecimal c = true ∨ c = '.' := by
  cases h with
  | whole hne hds => exact Or.inl (hds c hc)
  | pointed hds hes hne =>
      rcases List.mem_append.mp hc with hc | hc
      · exact Or.inl (hds c hc)
      · exact (List.mem_cons.mp hc).symm.imp_left (hes c)

theorem IsMantissa.count_point {mantissa : List Char} (h : IsMantissa mantissa) :
    mantissa.count '.' ≤ 1 := by
  have hnone : ∀ {ds : List Char}, AllDecimal ds → ds.count '.' = 0 := fun hds =>
    List.count_eq_zero_of_not_mem fun hmem => absurd (hds '.' hmem) (by decide)
  cases h with
  | whole hne hds =>
      rw [hnone hds]
      exact Nat.zero_le 1
  | @pointed ds es hds hes hne =>
      have hone : (ds ++ '.' :: es).count '.' = 1 := by
        rw [List.count_append, List.count_cons_self, hnone hds, hnone hes]
      exact Nat.le_of_eq hone

/-! ## Whole numbers -/

/-- What is found at the front of a text is a number. -/
theorem isSpelling_of_front? {cs spelling : List Char} (h : front? cs = some spelling) :
    IsSpelling spelling := by
  obtain ⟨⟨mantissa, rest⟩, hfound, heq⟩ := Option.map_eq_some_iff.mp h
  dsimp only at heq
  rw [← heq, List.append_assoc]
  exact .parts (isSign_spanSign _) (isMantissa_of_mantissaFront? hfound)
    (isExponent_exponentFront rest)

theorem IsMantissa.isSpelling {cs : List Char} (h : IsMantissa cs) : IsSpelling cs := by
  simpa using IsSpelling.parts .none h .none

theorem IsSign.mem_marks {cs : List Char} (h : IsSign cs) {c : Char} (hc : c ∈ cs) :
    c ∈ ['-', '+', '.', 'e', 'E'] := by
  cases h with
  | none => cases hc
  | minus => exact List.mem_cons.mpr (Or.inl (List.mem_singleton.mp hc))
  | plus => exact List.mem_cons_of_mem _ (List.mem_cons.mpr (Or.inl (List.mem_singleton.mp hc)))

theorem IsSpelling.isDecimal_or_mem_marks {cs : List Char} (h : IsSpelling cs) {c : Char}
    (hc : c ∈ cs) : isDecimal c = true ∨ c ∈ ['-', '+', '.', 'e', 'E'] := by
  obtain ⟨hsign, hmantissa, hexponent⟩ := h
  rcases List.mem_append.mp hc with hc | hc
  · exact Or.inr (hsign.mem_marks hc)
  rcases List.mem_append.mp hc with hc | hc
  · exact (hmantissa.isDecimal_or_point hc).imp_right fun hpoint => by simp [hpoint]
  · cases hexponent with
    | none => cases hc
    | letter hletter hmark hne hds =>
        rcases List.mem_cons.mp hc with rfl | hc
        · rcases hletter with rfl | rfl <;> exact Or.inr (by decide)
        · rcases List.mem_append.mp hc with hc | hc
          · exact Or.inr (hmark.mem_marks hc)
          · exact Or.inl (hds c hc)

theorem IsSpelling.not_isBlank {cs : List Char} (h : IsSpelling cs) {c : Char} (hc : c ∈ cs) :
    isBlank c = false := by
  rcases h.isDecimal_or_mem_marks hc with hdecimal | hmark
  · exact not_isBlank_of_isDecimal hdecimal
  · have hmarks : ∀ d ∈ ['-', '+', '.', 'e', 'E'], isBlank d = false := by decide
    exact hmarks c hmark

theorem IsSpelling.front? {cs : List Char} (h : IsSpelling cs) : front? cs = some cs := by
  obtain ⟨hsign, hmantissa, hexponent⟩ := h
  rename_i sign mantissa exponent
  obtain ⟨c, cs, hcons, hc⟩ := hmantissa.head?
  have hblank : isBlank c = false := by
    rcases hc with hc | rfl
    · exact not_isBlank_of_isDecimal hc
    · decide
  have htrim : trimStart (sign ++ (mantissa ++ exponent)) = sign ++ (mantissa ++ exponent) := by
    subst hcons
    cases hsign with
    | none => exact List.dropWhile_cons_of_neg (Bool.eq_false_iff.mp hblank)
    | minus => rfl
    | plus => rfl
  have hspan := spanSign_append hsign (hmantissa.ne_sign exponent)
  rw [Number.front?, htrim, hspan]
  dsimp only
  rw [hmantissa.mantissaFront? hexponent.head?, Option.map_some, hexponent.exponentFront,
    List.append_assoc]

end Number

end InoBlocks
