import InoBlocks.Proofs.Number.Rounding

/-!
# The shortest decimal reads back

The decimal that names a positive double is among the numbers that are rounded to it.  Seventeen
digits suffice, because the finest grid that is tried is finer than half of the smaller gap next to
the double.
-/

namespace InoBlocks

/-- A positive number has the size that the number of its digits tells. -/
theorem Number.digits_bounds {n : Nat} (hn : 0 < n) :
    10 ^ ((digits n).length - 1) ≤ n ∧ n < 10 ^ (digits n).length := by
  have hle : ∀ k, 0 < k → ((digits n).length ≤ k ↔ n < 10 ^ k) := fun k hk =>
    Nat.length_toDigits_le_iff (by decide) hk
  have hlength : 0 < (digits n).length := Nat.length_toDigits_pos
  refine ⟨?_, (hle _ hlength).mp (Nat.le_refl _)⟩
  by_cases hone : (digits n).length - 1 = 0
  · rw [hone]
    exact hn
  · have hlt := mt (hle _ (Nat.pos_of_ne_zero hone)).mpr (by omega)
    exact Nat.not_lt.mp hlt

namespace Binary64

variable {m : Nat} {e : Int}

/-! ## The interval of a double -/

theorem value_low (hm : 0 < m) (e : Int) : (interval m e).low.value = lowEnd m e * 2 ^ e := by
  have hquarter : (2 : ℚ) ^ (e - 2) * 4 = 2 ^ e := by
    rw [show (4 : ℚ) = 2 ^ (2 : Int) by norm_num, ← two_zpow_add, Int.sub_add_cancel]
  by_cases h : m = twoPow (precision - 1) ∧ e ≠ minExponent
  · have htest : (m == twoPow (precision - 1) && e != minExponent) = true := by
      simp [h.1, h.2]
    rw [interval, if_pos htest, lowEnd, if_pos h, Ratio.value_dyadic, Nat.cast_sub (by omega),
      ← hquarter]
    push_cast
    ring
  · have htest : ¬(m == twoPow (precision - 1) && e != minExponent) = true := by
      simpa using h
    rw [interval, if_neg htest, lowEnd, if_neg h, Ratio.value_dyadic, Nat.cast_sub (by omega),
      ← two_zpow_pred e]
    push_cast
    ring

theorem value_high (m : Nat) (e : Int) : (interval m e).high.value = (m + 1 / 2) * 2 ^ e := by
  rw [interval, Ratio.value_dyadic, ← two_zpow_pred e]
  push_cast
  ring

theorem den_low_pos (m : Nat) (e : Int) : 0 < (interval m e).low.den := by
  unfold interval
  dsimp only
  split <;> exact Ratio.den_dyadic_pos _ _

/-- The interval of a double holds the decimals that are rounded to it. -/
theorem contains_iff (hm : 0 < m) (n : Nat) (k : Int) :
    (interval m e).contains n k = true ↔ Rounds (n * 10 ^ k) m e := by
  have hlow : 0 < ((interval m e).low.overTen k).den := Ratio.den_overTen_pos (den_low_pos m e) k
  have hhigh : 0 < ((interval m e).high.overTen k).den :=
    Ratio.den_overTen_pos (Ratio.den_dyadic_pos _ _) k
  have hpoint : (⟨n, 1⟩ : Ratio).value = n := by
    rw [Ratio.value, Nat.cast_one, div_one]
  have hten := ten_zpow_pos k
  have hunit := two_zpow_pos e
  have hclosed : (interval m e).closed = true ↔ m % 2 = 0 := beq_iff_eq
  unfold Interval.contains
  by_cases heven : m % 2 = 0
  · rw [if_pos (hclosed.mpr heven), Bool.and_eq_true, Ratio.le_iff hlow Nat.one_pos,
      Ratio.le_iff Nat.one_pos hhigh, Ratio.value_overTen, Ratio.value_overTen, value_low hm,
      value_high, hpoint, div_le_iff₀ hten, le_div_iff₀ hten, ← le_div_iff₀ hunit,
      ← div_le_iff₀ hunit]
    exact ⟨fun h => ⟨h.1, h.2, by omega⟩, fun h => ⟨h.low, h.high⟩⟩
  · rw [if_neg (mt hclosed.mp heven), Bool.and_eq_true, Ratio.lt_iff hlow Nat.one_pos,
      Ratio.lt_iff Nat.one_pos hhigh, Ratio.value_overTen, Ratio.value_overTen, value_low hm,
      value_high, hpoint, div_lt_iff₀ hten, lt_div_iff₀ hten, ← lt_div_iff₀ hunit,
      ← div_lt_iff₀ hunit]
    exact ⟨fun h => ⟨h.1.le, h.2.le, fun _ => h⟩, fun h => h.odd (by omega)⟩

/-! ## Grids -/

/-- The leading digit of a ratio that is not too small stands at its leading exponent. -/
theorem leadingExponent_ratio {r : Ratio} (hden : 0 < r.den)
    (hvalue : (10 : ℚ) ^ (-350 : Int) < r.value) :
    (10 : ℚ) ^ leadingExponent r ≤ r.value ∧ r.value < 10 ^ (leadingExponent r + 1) := by
  rw [leadingExponent]
  have hden' : (0 : ℚ) < r.den := Nat.cast_pos.mpr hden
  have hshift : ∀ l : Nat, (10 : ℚ) ^ ((l : Int) - 350) * 10 ^ 350 = 10 ^ l := by
    intro l
    rw [← zpow_natCast, ← zpow_natCast, ← ten_zpow_add, Nat.cast_ofNat, Int.sub_add_cancel]
  have hscaled : ((r.num * tenPow 350 : Nat) : ℚ) / r.den = r.value * 10 ^ 350 := by
    rw [Nat.cast_mul, cast_tenPow, Ratio.value, mul_div_right_comm]
  have hwhole : 0 < r.num * tenPow 350 / r.den := by
    refine Nat.div_pos ?_ hden
    have hone : (1 : ℚ) ≤ r.value * 10 ^ 350 := by
      rw [← div_le_iff₀ (by positivity), one_div, ← zpow_natCast, ← zpow_neg]
      exact hvalue.le
    rw [← hscaled, le_div_iff₀ hden', one_mul] at hone
    exact_mod_cast hone
  obtain ⟨hlow, hhigh⟩ := Number.digits_bounds hwhole
  have hlength : 0 < (Number.digits (r.num * tenPow 350 / r.den)).length :=
    Nat.length_toDigits_pos
  generalize (Number.digits (r.num * tenPow 350 / r.den)).length = l at hlow hhigh hlength
  rw [Nat.le_div_iff_mul_le hden] at hlow
  rw [Nat.div_lt_iff_lt_mul hden] at hhigh
  have hlow : (10 : ℚ) ^ (l - 1) ≤ r.value * 10 ^ 350 := by
    rw [← hscaled, le_div_iff₀ hden']
    exact_mod_cast hlow
  have hhigh : r.value * 10 ^ 350 < (10 : ℚ) ^ l := by
    rw [← hscaled, div_lt_iff₀ hden']
    exact_mod_cast hhigh
  have hlarge : (0 : ℚ) < 10 ^ 350 := by positivity
  constructor
  · rw [show (l : Int) - 351 = ((l - 1 : Nat) : Int) - 350 by omega]
    exact le_of_mul_le_mul_right ((hshift _).trans_le hlow) hlarge
  · rw [show (l : Int) - 351 + 1 = (l : Int) - 350 by omega]
    exact lt_of_mul_lt_mul_right (hhigh.trans_eq (hshift l).symm) hlarge.le

/-- The leading digit of a positive double stands at its leading exponent. -/
theorem leadingExponent_bounds (hm : 0 < m) (he : minExponent ≤ e) :
    (10 : ℚ) ^ leadingExponent (.dyadic m e) ≤ m * 2 ^ e ∧
      (m : ℚ) * 2 ^ e < 10 ^ (leadingExponent (.dyadic m e) + 1) := by
  have hone : (1 : ℚ) ≤ m := by exact_mod_cast hm
  have hpow : (2 : ℚ) ^ minExponent ≤ 2 ^ e := zpow_le_zpow_right₀ (by norm_num) he
  have hten : (10 : ℚ) ^ (-350 : Int) < 2 ^ minExponent := by
    rw [show (-350 : Int) = -((350 : Nat) : Int) from rfl,
      show minExponent = -((1074 : Nat) : Int) from rfl, zpow_neg, zpow_neg, zpow_natCast,
      zpow_natCast, inv_lt_inv₀ (by positivity) (by positivity)]
    have : (2 : Nat) ^ 1074 < 10 ^ 350 := by decide +kernel
    exact_mod_cast this
  rw [← Ratio.value_dyadic m e]
  refine leadingExponent_ratio (Ratio.den_dyadic_pos m e) ?_
  rw [Ratio.value_dyadic]
  exact lt_of_lt_of_le (lt_of_lt_of_le hten hpow)
    (le_mul_of_one_le_left (two_zpow_pos e).le hone)

/-- What is found on a grid lies in the interval and next to the value. -/
theorem of_onGrid? {v : Ratio} {i : Interval} {k : Int} {n : Nat} (h : onGrid? v i k = some n) :
    i.contains n k = true ∧ n ≤ (v.overTen k).num / (v.overTen k).den + 1 := by
  unfold onGrid? at h
  dsimp only at h
  split at h
  · rename_i hboth
    rw [Bool.and_eq_true] at hboth
    split at h <;> cases h
    · exact ⟨hboth.1, Nat.le_succ _⟩
    · exact ⟨hboth.2, Nat.le_refl _⟩
  · split at h
    · cases h
      exact ⟨by assumption, Nat.le_succ _⟩
    · split at h <;> cases h
      exact ⟨by assumption, Nat.le_refl _⟩

theorem onGrid?_isSome {v : Ratio} {i : Interval} {k : Int}
    (h : i.contains ((v.overTen k).num / (v.overTen k).den) k = true) :
    (onGrid? v i k).isSome = true := by
  unfold onGrid?
  dsimp only
  rw [h]
  split
  · split <;> rfl
  · rfl

/-- The search finds a point, if one of its grids has one. -/
theorem searchGrids_spec {v : Ratio} {i : Interval} {fuel : Nat} {k : Int}
    (h : ∃ j < fuel, (onGrid? v i (k - (j : Nat))).isSome = true) :
    ∃ j < fuel, (searchGrids v i fuel k).2 = k - (j : Nat) ∧
      onGrid? v i (searchGrids v i fuel k).2 = some (searchGrids v i fuel k).1 := by
  induction fuel generalizing k with
  | zero =>
      obtain ⟨j, hj, -⟩ := h
      omega
  | succ fuel ih =>
      rw [searchGrids]
      cases hgrid : onGrid? v i k with
      | some n => exact ⟨0, Nat.succ_pos _, by simp, hgrid⟩
      | none =>
          obtain ⟨j, hj, hfound⟩ := h
          have hrest : ∃ j < fuel, (onGrid? v i (k - 1 - (j : Nat))).isSome = true := by
            cases j with
            | zero =>
                rw [Nat.cast_zero, Int.sub_zero, hgrid] at hfound
                cases hfound
            | succ j =>
                refine ⟨j, Nat.lt_of_succ_lt_succ hj, ?_⟩
                rwa [show k - ((j + 1 : Nat) : Int) = k - 1 - (j : Nat) by omega] at hfound
          obtain ⟨j, hj, hexponent, hfound⟩ := ih hrest
          exact ⟨j + 1, Nat.succ_lt_succ hj, by rw [hexponent]; omega, hfound⟩

theorem dropZeros_value (fuel n : Nat) (k : Int) :
    ((dropZeros fuel n k).1 : ℚ) * 10 ^ (dropZeros fuel n k).2 = n * 10 ^ k ∧
      (dropZeros fuel n k).1 ≤ n := by
  induction fuel generalizing n k with
  | zero => exact ⟨rfl, Nat.le_refl _⟩
  | succ fuel ih =>
      rw [dropZeros]
      split
      · rename_i hzero
        rw [Bool.and_eq_true, beq_iff_eq] at hzero
        obtain ⟨hvalue, hle⟩ := ih (n / 10) (k + 1)
        have hn : (n : ℚ) = (n / 10 : Nat) * 10 := by
          exact_mod_cast (Nat.div_mul_cancel (Nat.dvd_of_mod_eq_zero hzero.1)).symm
        refine ⟨?_, hle.trans (Nat.div_le_self n 10)⟩
        rw [hvalue, hn, ten_zpow_add, zpow_one]
        ring
      · exact ⟨rfl, Nat.le_refl _⟩

/-! ## The shortest decimal -/

/-- On the finest grid the neighbour below a double is in its interval. -/
theorem contains_seventeen (hm : 0 < m) (hcanonical : (finite false m e).Canonical) {k : Int}
    (hk : leadingExponent (.dyadic m e) = 17 + k) :
    (interval m e).contains
      (((Ratio.dyadic m e).overTen k).num / ((Ratio.dyadic m e).overTen k).den) k = true := by
  obtain ⟨hprecision, hleast, -⟩ := hcanonical
  have hten := ten_zpow_pos k
  have hunit := two_zpow_pos e
  have hsize : (m : ℚ) < 2 ^ 53 := by
    have : m < 2 ^ 53 := hprecision
    exact_mod_cast this
  have hfine : 10 ^ 17 * (10 : ℚ) ^ k ≤ m * 2 ^ e := by
    have hlow := (leadingExponent_bounds hm hleast).1
    rwa [hk, ten_zpow_add, show (10 : ℚ) ^ (17 : Int) = 10 ^ 17 by norm_num] at hlow
  obtain ⟨hbelow, habove⟩ :=
    Ratio.floor_bounds (Ratio.den_overTen_pos (Ratio.den_dyadic_pos m e) k)
  rw [Ratio.value_overTen, Ratio.value_dyadic] at hbelow habove
  rw [le_div_iff₀ hten] at hbelow
  rw [div_lt_iff₀ hten, add_one_mul] at habove
  have hgap : (m : ℚ) * 2 ^ e < 2 ^ 53 * 2 ^ e := mul_lt_mul_of_pos_right hsize hunit
  rw [contains_iff hm]
  refine Rounds.of_lt ?_ ?_
  · linarith
  · linarith

/-- A double is rounded to from its shortest decimal, which has at most eighteen digits. -/
theorem rounds_shortest (hm : 0 < m) (hcanonical : (finite false m e).Canonical) :
    Rounds ((shortest m e).1 * 10 ^ (shortest m e).2) m e ∧ (shortest m e).1 ≤ 10 ^ 18 := by
  have hleast := hcanonical.2.1
  have hlast : ∃ j < 18, (onGrid? (.dyadic m e) (interval m e)
      (leadingExponent (.dyadic m e) - (j : Nat))).isSome = true :=
    ⟨17, by omega, onGrid?_isSome (contains_seventeen hm hcanonical (by omega))⟩
  obtain ⟨j, hj, hexponent, hfound⟩ := searchGrids_spec hlast
  rw [shortest]
  generalize searchGrids (.dyadic m e) (interval m e) 18 (leadingExponent (.dyadic m e)) = found
    at hexponent hfound
  obtain ⟨hvalue, hle⟩ := dropZeros_value 20 found.1 found.2
  obtain ⟨hcontains, hnext⟩ := of_onGrid? hfound
  rw [hvalue]
  refine ⟨(contains_iff hm _ _).mp hcontains, hle.trans (hnext.trans ?_)⟩
  have hfloor :=
    (Ratio.floor_bounds (Ratio.den_overTen_pos (Ratio.den_dyadic_pos m e) found.2)).1
  have hfew : (Ratio.dyadic m e).value / 10 ^ found.2 < 10 ^ 18 := by
    rw [div_lt_iff₀ (ten_zpow_pos _), Ratio.value_dyadic]
    calc (m : ℚ) * 2 ^ e < 10 ^ (leadingExponent (.dyadic m e) + 1) :=
          (leadingExponent_bounds hm hleast).2
      _ ≤ 10 ^ ((18 : Int) + found.2) := zpow_le_zpow_right₀ (by norm_num) (by omega)
      _ = 10 ^ 18 * 10 ^ found.2 := ten_zpow_add _ _
  rw [Ratio.value_overTen] at hfloor
  exact_mod_cast hfloor.trans_lt hfew

end Binary64

end InoBlocks
