import InoBlocks.Token.Lexer

/-!
# ASCII classes as ranges

The ASCII classes of the lexer as ranges of code points, so that a question of which class a
character belongs to is one of arithmetic.
-/

namespace InoBlocks

namespace Text

theorem isDigit_iff {c : Char} : c.isDigit = true ↔ 48 ≤ c.toNat ∧ c.toNat ≤ 57 :=
  Char.isDigit_iff_toNat

theorem isNameStart_iff {c : Char} :
    isNameStart c = true ↔
      (65 ≤ c.toNat ∧ c.toNat ≤ 90) ∨ (97 ≤ c.toNat ∧ c.toNat ≤ 122) ∨ c.toNat = 95 := by
  have hunderscore : c = '_' ↔ c.toNat = 95 := by
    rw [← Char.toNat_inj]
    rfl
  have hupper : c.isUpper = true ↔ 65 ≤ c.toNat ∧ c.toNat ≤ 90 := by
    change decide ('A'.val ≤ c.val ∧ c.val ≤ 'Z'.val) = true ↔ _
    rw [decide_eq_true_iff, UInt32.le_iff_toNat_le, UInt32.le_iff_toNat_le]
    rfl
  have hlower : c.isLower = true ↔ 97 ≤ c.toNat ∧ c.toNat ≤ 122 := by
    change (decide ('a'.val ≤ c.val) && decide (c.val ≤ 'z'.val)) = true ↔ _
    rw [Bool.and_eq_true, decide_eq_true_iff, decide_eq_true_iff, UInt32.le_iff_toNat_le,
      UInt32.le_iff_toNat_le]
    rfl
  change ((c.isUpper || c.isLower) || c == '_') = true ↔ _
  rw [Bool.or_eq_true, Bool.or_eq_true, beq_iff_eq, hupper, hlower, hunderscore, or_assoc]

theorem isNameChar_iff {c : Char} :
    isNameChar c = true ↔ isNameStart c = true ∨ c.isDigit = true := by
  simp only [isNameChar, isNameStart, Char.isAlphanum, Bool.or_eq_true]
  constructor
  · rintro ((h | h) | h)
    · exact Or.inl (Or.inl h)
    · exact Or.inr h
    · exact Or.inl (Or.inr h)
  · rintro ((h | h) | h)
    · exact Or.inl (Or.inl h)
    · exact Or.inr h
    · exact Or.inl (Or.inr h)

theorem not_isNameStart_of_isDigit {c : Char} (hc : c.isDigit = true) :
    isNameStart c = false := by
  rw [isDigit_iff] at hc
  cases hstart : isNameStart c with
  | false => rfl
  | true =>
      rw [isNameStart_iff] at hstart
      omega

theorem isNameChar_of_isDigit {c : Char} (hc : c.isDigit = true) : isNameChar c = true :=
  isNameChar_iff.mpr (Or.inr hc)

theorem not_isLayout_of_isNameChar {c : Char} (hc : isNameChar c = true) :
    Token.isLayout c = false := by
  cases hl : Token.isLayout c with
  | false => rfl
  | true =>
      simp only [Token.isLayout, Bool.or_eq_true, beq_iff_eq] at hl
      rcases hl with ((((h | h) | h) | h) | h) | h <;> subst h <;> exact absurd hc (by decide)

end Text

end InoBlocks
