import InoBlocks.Proofs.Number.Reading

/-!
# Numbers without a sign

A number as the lexer reads it is digits with at most one point behind the first.  Such a text is
all of its own spelling and is not negative, so a field keeps it as it is unless it is too large.
-/

namespace InoBlocks

/-! ## Signs -/

namespace Binary64

def isNegative : Binary64 → Bool
  | finite negative _ _ | infinite negative => negative
  | notANumber => false

theorem isNegative_pack (significand : Nat) (exponent : Int) :
    (pack false significand exponent).isNegative = false := by
  have hite : ∀ (p : Prop) [Decidable p] (m : Nat) (e : Int),
      (if p then infinite false else finite false m e).isNegative = false := by
    intro p _ m e
    split <;> rfl
  exact hite _ _ _

theorem isNegative_ofRatio (num den : Nat) : (ofRatio false num den).isNegative = false := by
  unfold ofRatio
  split
  · rfl
  · exact isNegative_pack _ _

theorem isNegative_ofDecimal (digits : Nat) (exponent : Int) :
    (ofDecimal false digits exponent).isNegative = false := by
  unfold ofDecimal
  split
  · rfl
  · dsimp only
    split
    · rfl
    · split
      · rfl
      · split <;> exact isNegative_ofRatio _ _

theorem ltDyadic_zero_of_isNegative {x : Binary64} (h : x.isNegative = false) :
    x.ltDyadic 0 0 = false := by
  cases x with
  | finite negative significand exponent =>
      have hnegative : negative = false := h
      subst hnegative
      simp only [ltDyadic, numerator, Bool.false_eq_true, if_false, Int.zero_mul,
        decide_eq_false_iff_not, Int.not_lt]
      exact_mod_cast Nat.zero_le _
  | infinite negative => exact h
  | notANumber => rfl

end Binary64

namespace Number

theorem readSign_of_isDigit {c : Char} (hc : c.isDigit = true) (cs : List Char) :
    readSign (c :: cs) = (false, c :: cs) := by
  unfold readSign
  split
  · rename_i hminus
    cases hminus
    exact absurd hc (by decide)
  · rename_i hplus
    cases hplus
    exact absurd hc (by decide)
  · rfl

/-- A text that begins with a digit is not negative. -/
theorem isNegative_double? {raw : String} {c : Char} {cs : List Char} {x : Binary64}
    (htext : raw.toList = c :: cs) (hc : c.isDigit = true) (hx : double? raw = some x) :
    x.isNegative = false := by
  have hblank := Text.not_isBlank_of_isNameChar (Text.isNameChar_of_isDigit hc)
  have htrim : ∃ ds, Text.trim raw.toList = c :: ds := by
    rw [htext, Text.trim, Text.trimStart, List.dropWhile_cons, hblank, if_neg Bool.false_ne_true,
      Text.trimEnd]
    split
    · exact ⟨[], by rw [hblank]; rfl⟩
    · exact ⟨_, rfl⟩
  obtain ⟨ds, hds⟩ := htrim
  rw [double?, hds, readSign_of_isDigit hc] at hx
  dsimp only at hx
  split at hx
  · unfold named? at hx
    dsimp only at hx
    split at hx
    · cases hx
      rfl
    · split at hx <;> cases hx
      rfl
  · split at hx <;> cases hx
    exact Binary64.isNegative_ofDecimal _ _

/-! ## Spellings -/

private theorem isDecimal_of_pointed {cs : List Char} (h : Token.numberLength true cs = cs.length) :
    ∀ c ∈ cs, Text.isDecimal c = true := by
  induction cs with
  | nil => simp
  | cons c cs ih =>
      rw [Token.numberLength] at h
      split at h
      · rename_i hdigit
        have hall := ih (by simpa using h)
        simpa [Text.isDecimal_of_isDigit hdigit] using hall
      · simp at h

/-- The rest of a number with its point behind some of the digits, or with no point. -/
theorem numberLength_cases {cs : List Char} (h : Token.numberLength false cs = cs.length) :
    (∀ c ∈ cs, Text.isDecimal c = true) ∨
    ∃ ds es, cs = ds ++ '.' :: es ∧ (∀ c ∈ ds, Text.isDecimal c = true) ∧
      ∀ c ∈ es, Text.isDecimal c = true := by
  induction cs with
  | nil => exact Or.inl (by simp)
  | cons c cs ih =>
      rw [Token.numberLength] at h
      split at h
      · rename_i hdigit
        have hdecimal := Text.isDecimal_of_isDigit hdigit
        rcases ih (by simpa using h) with hall | ⟨ds, es, rfl, hds, hes⟩
        · exact Or.inl (by simpa [hdecimal] using hall)
        · exact Or.inr ⟨c :: ds, es, rfl, by simpa [hdecimal] using hds, hes⟩
      · split at h
        · rename_i hpoint
          simp only [Bool.and_eq_true, decide_eq_true_eq] at hpoint
          have hlength : Token.numberLength true cs = cs.length := by simpa using h
          exact Or.inr ⟨[], cs, by rw [hpoint.1]; rfl, by simp, isDecimal_of_pointed hlength⟩
        · simp at h

/-- A number as the lexer cuts it is a number as it is typed. -/
theorem isMantissa_of_numberLength {c : Char} {cs : List Char} (hc : c.isDigit = true)
    (h : Token.numberLength false cs = cs.length) : IsMantissa (c :: cs) := by
  have hdecimal := Text.isDecimal_of_isDigit hc
  rcases numberLength_cases h with hall | ⟨ds, es, rfl, hds, hes⟩
  · exact .whole (List.cons_ne_nil c cs) (List.forall_mem_cons.mpr ⟨hdecimal, hall⟩)
  · exact .pointed (List.forall_mem_cons.mpr ⟨hdecimal, hds⟩) hes
      (Or.inl (List.cons_ne_nil c ds))

theorem exists_double? {c : Char} {cs : List Char} (hc : c.isDigit = true)
    (hcs : Token.numberLength false cs = cs.length) :
    ∃ x, double? (String.ofList (c :: cs)) = some x :=
  (isMantissa_of_numberLength hc hcs).isSpelling.exists_double?

theorem front?_of_numberLength {c : Char} {cs : List Char} (hc : c.isDigit = true)
    (h : Token.numberLength false cs = cs.length) : front? (c :: cs) = some (c :: cs) :=
  (isMantissa_of_numberLength hc h).isSpelling.front?

end Number

namespace Numeral

/-- A number without a sign stays as it is in a field, if it is finite, has no zero in front and
is not too large. -/
theorem ofField_unsigned {raw : String} {x : Binary64} (hfirm : Word.Firm ⟨.number, raw⟩)
    (hx : Number.double? raw = some x) (hfinite : x.isFinite = true)
    (hzero : Number.hasLeadingZero raw.toList = false) (default : String) {limits : Limits}
    (hleast : limits.least = none ∨ limits.least = some (.integer 0))
    (hgreatest : ∀ limit, limits.greatest = some limit → limit.isBelow x = false) :
    ofField (some raw) default limits = raw := by
  rcases hfirm.text_cases rfl with ⟨hkind, -⟩ | ⟨-, c, cs, htext, hc, hlength⟩ |
    ⟨hkind, c, cs, htext, hc, -⟩
  · cases hkind
  · have hnegative := Number.isNegative_double? htext hc hx
    have hnumeral : ofText? raw = some ⟨x, some raw.toList⟩ := by
      rw [ofText?, htext, Number.front?_of_numberLength hc hlength, Option.bind_some, ← htext,
        String.ofList_toList, hx]
      simp [hfinite]
    have hcrossed : limits.crossed? x = none := by
      have hlow : limits.least.filter (·.isAbove x) = none := by
        rcases hleast with h | h
        · rw [h]
          rfl
        · rw [h, Option.filter_some, Limit.isAbove, Binary64.ltDyadic_zero_of_isNegative hnegative]
          rfl
      have hhigh : limits.greatest.filter (·.isBelow x) = none := by
        cases h : limits.greatest with
        | none => rfl
        | some limit =>
            rw [Option.filter_some, hgreatest limit h]
            rfl
      rw [Limits.crossed?, hlow, hhigh]
      rfl
    rw [ofField, Option.bind_some, hnumeral]
    dsimp only
    rw [textWithin, hcrossed]
    dsimp only
    rw [text]
    dsimp only
    rw [hzero, String.ofList_toList]
    rfl
  · exact absurd hkind.symm (TokenKind.ofWord_ne raw).2

end Numeral

end InoBlocks
