import InoBlocks.Number.Numeral
import InoBlocks.Proofs.Number.Unsigned
import Mathlib.Algebra.Group.Nat.Defs

/-!
# How long numerals are

A double has no more than a few hundred digits in front of its point, and an integer of more digits
than that is read as infinite.  So whatever number stands in a field, its numeral is short.  An
integer of fewer digits is read as a finite number.
-/

namespace InoBlocks

namespace Binary64

theorem twoPow_pos (k : Nat) : 0 < twoPow k :=
  Nat.pow_pos Nat.zero_lt_two

theorem twoPow_add (k l : Nat) : twoPow (k + l) = twoPow k * twoPow l :=
  Nat.pow_add 2 k l

theorem twoPow_le_twoPow {k l : Nat} (h : k ≤ l) : twoPow k ≤ twoPow l :=
  Nat.pow_le_pow_right Nat.zero_lt_two h

theorem tenPow_pos (k : Nat) : 0 < tenPow k :=
  Nat.pow_pos (by decide)

theorem roundDiv_le (num den : Nat) : roundDiv num den ≤ num / den + 1 := by
  unfold roundDiv
  dsimp only
  split <;> omega

theorem le_exponentFor (num den : Nat) :
    (num.log2 : Int) - (den.log2 : Int) - 53 ≤ exponentFor num den := by
  unfold exponentFor
  dsimp only
  split <;> omega

/-- The significand of a rounded quotient has at most two digits more than it may have. -/
theorem roundDiv_scale_le {num den : Nat} (hden : 0 < den) :
    roundDiv (scale num den (exponentFor num den)).1 (scale num den (exponentFor num den)).2 ≤
      twoPow 54 := by
  have hexponent := le_exponentFor num den
  generalize exponentFor num den = e at hexponent
  have hnum : num < twoPow (num.log2 + 1) := Nat.lt_log2_self
  have hden' : twoPow den.log2 ≤ den := Nat.log2_self_le (Nat.pos_iff_ne_zero.mp hden)
  suffices hlt : (scale num den e).1 / (scale num den e).2 < twoPow 54 from
    Nat.le_trans (roundDiv_le _ _) hlt
  unfold scale
  split
  · rename_i hsign
    obtain ⟨k, rfl⟩ := Int.eq_ofNat_of_zero_le hsign
    rw [Int.toNat_natCast]
    refine Nat.div_lt_of_lt_mul ?_
    calc num < twoPow (num.log2 + 1) := hnum
      _ ≤ twoPow (den.log2 + k + 54) := twoPow_le_twoPow (by omega)
      _ = twoPow den.log2 * twoPow k * twoPow 54 := by rw [twoPow_add, twoPow_add]
      _ ≤ den * twoPow k * twoPow 54 :=
          Nat.mul_le_mul_right _ (Nat.mul_le_mul_right _ hden')
  · rename_i hsign
    obtain ⟨k, hk⟩ := Int.eq_ofNat_of_zero_le (show 0 ≤ -e by omega)
    rw [hk, Int.toNat_natCast]
    refine Nat.div_lt_of_lt_mul ?_
    calc num * twoPow k < twoPow (num.log2 + 1) * twoPow k :=
          Nat.mul_lt_mul_of_pos_right hnum (twoPow_pos k)
      _ = twoPow (num.log2 + 1 + k) := (twoPow_add _ _).symm
      _ ≤ twoPow (den.log2 + 54) := twoPow_le_twoPow (by omega)
      _ = twoPow den.log2 * twoPow 54 := twoPow_add _ _
      _ ≤ den * twoPow 54 := Nat.mul_le_mul_right _ hden'

/-- A double whose significand and exponent are those of a double, or little more. -/
def Bounded : Binary64 → Prop
  | finite _ m e => m ≤ twoPow 54 ∧ e ≤ maxExponent
  | _ => True

theorem bounded_pack {m : Nat} (hm : m ≤ twoPow 54) (negative : Bool) (e : Int) :
    (pack negative m e).Bounded := by
  have hite : ∀ (m : Nat) (e : Int), m ≤ twoPow 54 →
      (if maxExponent < e then infinite negative else finite negative m e).Bounded := by
    intro m e hm
    split
    · trivial
    · rename_i hle
      exact ⟨hm, Int.not_lt.mp hle⟩
  refine hite _ _ ?_
  split
  · exact twoPow_le_twoPow (by decide)
  · exact hm

theorem bounded_ofRatio {den : Nat} (hden : 0 < den) (negative : Bool) (num : Nat) :
    (ofRatio negative num den).Bounded := by
  unfold ofRatio
  split
  · exact ⟨Nat.zero_le _, by decide⟩
  · exact bounded_pack (roundDiv_scale_le hden) _ _

theorem bounded_ofDecimal (negative : Bool) (digits : Nat) (exponent : Int) :
    (ofDecimal negative digits exponent).Bounded := by
  have hzero : (zero negative).Bounded := ⟨Nat.zero_le _, by decide⟩
  unfold ofDecimal
  dsimp only
  split
  · exact hzero
  · split
    · exact hzero
    · split
      · trivial
      · split
        · exact bounded_ofRatio Nat.zero_lt_one _ _
        · exact bounded_ofRatio (tenPow_pos _) _ _

theorem Bounded.natAbs_truncate {x : Binary64} (h : x.Bounded) :
    x.truncate.natAbs ≤ twoPow 1025 := by
  rw [truncate, Int.natAbs_tdiv]
  refine Nat.le_trans (Nat.div_le_self _ _) ?_
  cases x with
  | finite negative m e =>
      obtain ⟨hm, he⟩ := h
      have hmagnitude : (if 0 ≤ e then m * twoPow e.toNat else m) ≤ twoPow 1025 := by
        split
        · calc m * twoPow e.toNat ≤ twoPow 54 * twoPow 971 :=
                Nat.mul_le_mul hm (twoPow_le_twoPow (by
                  rw [show maxExponent = 971 from rfl] at he
                  omega))
            _ = twoPow 1025 := (twoPow_add 54 971).symm
        · exact Nat.le_trans hm (twoPow_le_twoPow (by decide))
      unfold numerator
      dsimp only
      split
      · rw [Int.natAbs_neg, Int.natAbs_natCast]
        exact hmagnitude
      · rw [Int.natAbs_natCast]
        exact hmagnitude
  | infinite negative => exact Nat.zero_le _
  | notANumber => exact Nat.zero_le _

theorem exponentFor_one_le (num : Nat) :
    exponentFor num 1 ≤ max minExponent ((num.log2 : Int) - 52) := by
  unfold exponentFor
  dsimp only
  have hlog : Nat.log2 1 = 0 := by decide
  rw [hlog]
  split <;> omega

theorem isFinite_pack {e : Int} (he : e < maxExponent) (negative : Bool) (m : Nat) :
    (pack negative m e).isFinite = true := by
  unfold pack
  dsimp only
  rw [if_neg ?_]
  · rfl
  · split <;> omega

/-- An integer that is not too large is read as a finite number. -/
theorem isFinite_ofDecimal {n : Nat} (h : n.log2 ≤ 1000) (negative : Bool) :
    (ofDecimal negative n 0).isFinite = true := by
  have hexponent : exponentFor n 1 < maxExponent := by
    have hle := exponentFor_one_le n
    rw [minExponent] at hle
    rw [maxExponent]
    omega
  have hratio : (ofRatio negative n 1).isFinite = true := by
    unfold ofRatio
    split
    · rfl
    · exact isFinite_pack hexponent negative _
  unfold ofDecimal
  dsimp only
  split
  · rfl
  · rw [if_neg (by omega), if_neg (by omega), if_pos (Int.le_refl 0)]
    have hten : n * tenPow (0 : Int).toNat = n := Nat.mul_one n
    rw [hten]
    exact hratio

end Binary64

namespace Number

theorem bounded_double? {s : String} {x : Binary64} (h : double? s = some x) : x.Bounded := by
  unfold double? at h
  dsimp only at h
  split at h
  · unfold named? at h
    dsimp only at h
    split at h
    · cases h
      trivial
    · split at h <;> cases h
      trivial
  · split at h <;> cases h
    exact Binary64.bounded_ofDecimal _ _ _

theorem isDigit_of_mem_digits {n : Nat} {c : Char} (h : c ∈ digits n) : c.isDigit = true :=
  Nat.isDigit_of_mem_toDigits (by decide) (by decide) h

theorem length_digits_le {n k : Nat} (h : n ≤ Binary64.twoPow k) : (digits n).length ≤ k + 1 := by
  refine (Nat.length_toDigits_le_iff (by decide) (Nat.succ_pos k)).mpr ?_
  calc n ≤ 2 ^ k := h
    _ < 2 ^ (k + 1) := Nat.pow_lt_pow_right (by decide) (Nat.lt_succ_self k)
    _ ≤ 10 ^ (k + 1) := Nat.pow_le_pow_left (by decide) (k + 1)

/-- Digits with a first one that is not zero have at least the value of their place. -/
theorem pow_le_ofDigits {d : Nat} (hd : d ≠ 0) (ds : List Nat) :
    10 ^ ds.length ≤ ofDigits (d :: ds) := by
  have hfold : ∀ acc, acc * 10 ^ ds.length ≤ ds.foldl (fun n d => n * 10 + d) acc := by
    induction ds with
    | nil => intro acc; simp
    | cons e ds ih =>
        intro acc
        calc acc * 10 ^ (e :: ds).length = acc * 10 * 10 ^ ds.length := by
              rw [List.length_cons, Nat.pow_succ, Nat.mul_assoc, Nat.mul_comm 10]
          _ ≤ (acc * 10 + e) * 10 ^ ds.length := Nat.mul_le_mul_right _ (Nat.le_add_right _ _)
          _ ≤ _ := ih (acc * 10 + e)
  calc 10 ^ ds.length ≤ d * 10 ^ ds.length := Nat.le_mul_of_pos_left _ (Nat.pos_of_ne_zero hd)
    _ = (0 * 10 + d) * 10 ^ ds.length := by rw [Nat.zero_mul, Nat.zero_add]
    _ ≤ ofDigits (d :: ds) := hfold (0 * 10 + d)

/-- An integer of very many digits is read as infinite. -/
theorem length_le_of_isFinite {d : Nat} (hd : d ≠ 0) {ds : List Nat}
    (h : (Binary64.ofDecimal false (ofDigits (d :: ds)) 0).isFinite = true) :
    ds.length ≤ 500 := by
  have hlow := pow_le_ofDigits hd ds
  have hne : ofDigits (d :: ds) ≠ 0 := by
    have hpos := Nat.pow_pos (n := ds.length) (show 0 < 10 by decide)
    omega
  have hlog : 3 * ds.length ≤ (ofDigits (d :: ds)).log2 := by
    refine (Nat.le_log2 hne).mpr (Nat.le_trans ?_ hlow)
    rw [Nat.pow_mul]
    exact Nat.pow_le_pow_left (by decide) _
  refine Nat.le_of_not_lt fun hlong => ?_
  have hmagnitude : (400 : Int) < 0 + ((ofDigits (d :: ds)).log2 : Int) * 30103 / 100000 := by
    omega
  rw [Binary64.ofDecimal, if_neg hne] at h
  dsimp only at h
  rw [if_neg (by omega), if_pos hmagnitude] at h
  cases h

/-- Digits have less than the value of the place in front of them. -/
theorem ofDigits_lt {ds : List Nat} (h : ∀ d ∈ ds, d ≤ 9) : ofDigits ds < 10 ^ ds.length := by
  have hfold : ∀ acc, ds.foldl (fun n d => n * 10 + d) acc < (acc + 1) * 10 ^ ds.length := by
    induction ds with
    | nil => intro acc; simp
    | cons d ds ih =>
        intro acc
        obtain ⟨hd, hds⟩ := List.forall_mem_cons.mp h
        calc (d :: ds).foldl (fun n d => n * 10 + d) acc
          _ < (acc * 10 + d + 1) * 10 ^ ds.length := ih hds (acc * 10 + d)
          _ ≤ ((acc + 1) * 10) * 10 ^ ds.length := Nat.mul_le_mul_right _ (by omega)
          _ = (acc + 1) * 10 ^ (d :: ds).length := by
              rw [List.length_cons, Nat.pow_succ, Nat.mul_assoc, Nat.mul_comm 10]
  have hzero := hfold 0
  rw [Nat.zero_add, Nat.one_mul] at hzero
  exact hzero

theorem value_lt {cs : List Char} (h : ∀ c ∈ cs, c.isDigit = true) : value cs < 10 ^ cs.length := by
  have hvalues : ∀ d ∈ digitValues cs, d ≤ 9 := by
    intro d hd
    obtain ⟨e, he, rfl⟩ := List.mem_map.mp hd
    have hrange := Text.isDigit_iff.mp (h e he)
    have hzero : '0'.toNat = 48 := rfl
    omega
  have hsmall := ofDigits_lt hvalues
  rwa [digitValues, List.length_map] at hsmall

/-- An integer of few digits is read as a finite number. -/
theorem exists_double?_of_short {cs : List Char} (hne : cs ≠ []) (h : ∀ c ∈ cs, c.isDigit = true)
    (hshort : cs.length ≤ 250) :
    ∃ x, double? (String.ofList cs) = some x ∧ x.isFinite = true := by
  have hread := double?_of_isDigit .none hne h
  rw [List.nil_append] at hread
  refine ⟨_, hread, Binary64.isFinite_ofDecimal ?_ _⟩
  by_cases hzero : value cs = 0
  · rw [hzero]
    decide
  · refine Nat.le_of_lt ((Nat.log2_lt hzero).mpr (Nat.lt_of_lt_of_le (value_lt h) ?_))
    calc 10 ^ cs.length ≤ (2 ^ 4) ^ cs.length := Nat.pow_le_pow_left (by decide) _
      _ = 2 ^ (4 * cs.length) := (Nat.pow_mul ..).symm
      _ ≤ 2 ^ 1000 := Nat.pow_le_pow_right (by decide) (by omega)

end Number

end InoBlocks
