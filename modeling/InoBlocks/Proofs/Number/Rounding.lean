import InoBlocks.Number.Shortest
import InoBlocks.Proofs.Number.Magnitude
import Mathlib.Algebra.Order.Field.Power
import Mathlib.Data.Nat.Cast.Order.Field
import Mathlib.Data.Rat.Cast.Order
import Mathlib.Tactic.FieldSimp
import Mathlib.Tactic.Linarith
import Mathlib.Tactic.NormNum
import Mathlib.Tactic.Positivity
import Mathlib.Tactic.Ring

/-!
# Which numbers are rounded to a double

The doubles next to a finite one are a unit of its last place away, or half a unit below a power
of two.  A positive number is rounded to the double in whose half of each gap it lies, and to the
even one in the middle of a gap.  The statements here are about rational numbers; `ofRatio` and
`ofDecimal` are related to them once.
-/

namespace InoBlocks

namespace Binary64

/-! ## Exact values -/

theorem cast_twoPow (k : Nat) : (twoPow k : ℚ) = 2 ^ k :=
  Nat.cast_pow 2 k

theorem cast_tenPow (k : Nat) : (tenPow k : ℚ) = 10 ^ k :=
  Nat.cast_pow 10 k

theorem pow_toNat (b : ℚ) {e : Int} (h : 0 ≤ e) : b ^ e.toNat = b ^ e := by
  rw [← zpow_natCast, Int.toNat_of_nonneg h]

theorem pow_toNat_neg (b : ℚ) {e : Int} (h : ¬0 ≤ e) : b ^ (-e).toNat = (b ^ e)⁻¹ := by
  rw [← zpow_natCast, Int.toNat_of_nonneg (by omega), zpow_neg]

theorem two_zpow_pos (e : Int) : (0 : ℚ) < 2 ^ e :=
  zpow_pos two_pos e

theorem ten_zpow_pos (e : Int) : (0 : ℚ) < 10 ^ e :=
  zpow_pos (by norm_num) e

theorem two_zpow_add (d e : Int) : (2 : ℚ) ^ (d + e) = 2 ^ d * 2 ^ e :=
  zpow_add₀ two_ne_zero d e

theorem two_zpow_pred (e : Int) : (2 : ℚ) ^ (e - 1) * 2 = 2 ^ e := by
  rw [← zpow_add_one₀ two_ne_zero, Int.sub_add_cancel]

theorem ten_zpow_add (d e : Int) : (10 : ℚ) ^ (d + e) = 10 ^ d * 10 ^ e :=
  zpow_add₀ (by norm_num) d e

/-- The rational number that a finite double stands for. -/
def toRat (x : Binary64) : ℚ :=
  x.numerator / 2 ^ x.denominatorLog

theorem toRat_finite (negative : Bool) (m : Nat) (e : Int) :
    (finite negative m e).toRat = if negative then -(m * 2 ^ e : ℚ) else m * 2 ^ e := by
  have hmagnitude : (((if 0 ≤ e then m * twoPow e.toNat else m : Nat) : Int) : ℚ) /
      2 ^ (-e).toNat = m * 2 ^ e := by
    by_cases he : 0 ≤ e
    · have hzero : (-e).toNat = 0 := by omega
      rw [if_pos he, hzero, pow_zero, div_one, Int.cast_natCast, Nat.cast_mul, cast_twoPow,
        pow_toNat 2 he]
    · rw [if_neg he, Int.cast_natCast, pow_toNat_neg 2 he, div_inv_eq_mul]
  rw [toRat, numerator, denominatorLog]
  cases negative with
  | false => exact hmagnitude
  | true =>
      rw [if_pos rfl, if_pos rfl, Int.cast_neg, neg_div, hmagnitude]

def Ratio.value (r : Ratio) : ℚ :=
  r.num / r.den

theorem Ratio.value_dyadic (m : Nat) (e : Int) : (dyadic m e).value = m * 2 ^ e := by
  by_cases he : 0 ≤ e
  · rw [dyadic, if_pos he, value, Nat.cast_mul, cast_twoPow, pow_toNat 2 he, Nat.cast_one, div_one]
  · rw [dyadic, if_neg he, value, cast_twoPow, pow_toNat_neg 2 he, div_inv_eq_mul]

theorem Ratio.den_dyadic_pos (m : Nat) (e : Int) : 0 < (dyadic m e).den := by
  unfold dyadic
  split
  · exact Nat.one_pos
  · exact twoPow_pos _

theorem Ratio.value_overTen (r : Ratio) (k : Int) : (r.overTen k).value = r.value / 10 ^ k := by
  by_cases hk : 0 ≤ k
  · rw [overTen, if_pos hk, value, value, Nat.cast_mul, cast_tenPow, pow_toNat 10 hk, div_div]
  · rw [overTen, if_neg hk, value, value, Nat.cast_mul, cast_tenPow, pow_toNat_neg 10 hk,
      mul_div_right_comm, div_eq_mul_inv _ ((10 : ℚ) ^ k)]

theorem Ratio.den_overTen_pos {r : Ratio} (hr : 0 < r.den) (k : Int) : 0 < (r.overTen k).den := by
  unfold overTen
  split
  · exact Nat.mul_pos hr (tenPow_pos _)
  · exact hr

theorem Ratio.le_iff {r s : Ratio} (hr : 0 < r.den) (hs : 0 < s.den) :
    r.le s = true ↔ r.value ≤ s.value := by
  have hr' : (0 : ℚ) < r.den := Nat.cast_pos.mpr hr
  have hs' : (0 : ℚ) < s.den := Nat.cast_pos.mpr hs
  rw [le, decide_eq_true_eq, value, value, div_le_div_iff₀ hr' hs']
  exact_mod_cast Iff.rfl

theorem Ratio.lt_iff {r s : Ratio} (hr : 0 < r.den) (hs : 0 < s.den) :
    r.lt s = true ↔ r.value < s.value := by
  have hr' : (0 : ℚ) < r.den := Nat.cast_pos.mpr hr
  have hs' : (0 : ℚ) < s.den := Nat.cast_pos.mpr hs
  rw [lt, decide_eq_true_eq, value, value, div_lt_div_iff₀ hr' hs']
  exact_mod_cast Iff.rfl

theorem Ratio.floor_bounds {r : Ratio} (hr : 0 < r.den) :
    ((r.num / r.den : Nat) : ℚ) ≤ r.value ∧ r.value < (r.num / r.den : Nat) + 1 := by
  refine ⟨Nat.cast_div_le, ?_⟩
  rw [value, div_lt_iff₀ (Nat.cast_pos.mpr hr), mul_comm]
  exact_mod_cast Nat.lt_mul_div_succ r.num hr

theorem value_scale (num den : Nat) (e : Int) :
    ((scale num den e).1 : ℚ) / (scale num den e).2 = num / den / 2 ^ e := by
  by_cases he : 0 ≤ e
  · rw [scale, if_pos he, Nat.cast_mul, cast_twoPow, pow_toNat 2 he, div_div]
  · rw [scale, if_neg he, Nat.cast_mul, cast_twoPow, pow_toNat_neg 2 he, mul_div_right_comm,
      div_eq_mul_inv _ ((2 : ℚ) ^ e)]

theorem scale_den_pos {den : Nat} (hden : 0 < den) (num : Nat) (e : Int) :
    0 < (scale num den e).2 := by
  unfold scale
  split
  · exact Nat.mul_pos hden (twoPow_pos _)
  · exact hden

/-! ## Rounding to an integer -/

/-- A natural number nearest to a rational one; an odd one is nearer than every other. -/
structure Nearest (n : Nat) (q : ℚ) : Prop where
  low : n - 1 / 2 ≤ q
  high : q ≤ n + 1 / 2
  odd : n % 2 = 1 → n - 1 / 2 < q ∧ q < n + 1 / 2

theorem Nearest.mul_den {num den n : Nat} (hden : 0 < den) (h : Nearest n (num / den)) :
    2 * (n * den) ≤ 2 * num + den ∧ 2 * num ≤ 2 * (n * den) + den ∧
      (n % 2 = 1 → 2 * (n * den) < 2 * num + den ∧ 2 * num < 2 * (n * den) + den) := by
  obtain ⟨hlow, hhigh, hodd⟩ := h
  have hden' : (0 : ℚ) < den := Nat.cast_pos.mpr hden
  rw [le_div_iff₀ hden'] at hlow
  rw [div_le_iff₀ hden'] at hhigh
  rw [lt_div_iff₀ hden', div_lt_iff₀ hden'] at hodd
  refine ⟨?_, ?_, fun h => ⟨?_, ?_⟩⟩
  · have : (2 * (n * den) : ℚ) ≤ 2 * num + den := by linarith
    exact_mod_cast this
  · have : (2 * num : ℚ) ≤ 2 * (n * den) + den := by linarith
    exact_mod_cast this
  · have : (2 * (n * den) : ℚ) < 2 * num + den := by linarith [(hodd h).1]
    exact_mod_cast this
  · have : (2 * num : ℚ) < 2 * (n * den) + den := by linarith [(hodd h).2]
    exact_mod_cast this

theorem roundDiv_eq {num den n : Nat} (hden : 0 < den) (h : Nearest n (num / den)) :
    roundDiv num den = n := by
  obtain ⟨hlow, hhigh, hodd⟩ := h.mul_den hden
  have hnum := Nat.div_add_mod num den
  have hrest := Nat.mod_lt num hden
  unfold roundDiv
  generalize num / den = q at hnum ⊢
  generalize num % den = r at hnum hrest ⊢
  rw [Nat.mul_comm] at hnum
  -- the quotient is the number itself or the one below it
  have hle : q ≤ n := by
    by_contra hlt
    have := Nat.mul_le_mul_right den (show n + 1 ≤ q by omega)
    rw [Nat.add_mul] at this
    omega
  have hge : n ≤ q + 1 := by
    by_contra hlt
    have := Nat.mul_le_mul_right den (show q + 2 ≤ n by omega)
    rw [Nat.add_mul] at this
    omega
  obtain rfl | rfl : n = q ∨ n = q + 1 := by omega
  · rw [if_neg ?_]
    simp only [Bool.or_eq_true, Bool.and_eq_true, decide_eq_true_eq, beq_iff_eq]
    omega
  · rw [Nat.add_mul] at hlow hhigh hodd
    rw [if_pos ?_]
    simp only [Bool.or_eq_true, Bool.and_eq_true, decide_eq_true_eq, beq_iff_eq]
    omega

/-! ## The exponent of a number -/

/-- The exponent at which a number has a full significand, but at least the smallest. -/
structure FullAt (q : ℚ) (e : Int) : Prop where
  least : minExponent ≤ e
  fits : q < 2 ^ 53 * 2 ^ e
  full : e = minExponent ∨ 2 ^ 52 * 2 ^ e ≤ q

theorem FullAt.le {q : ℚ} {d e : Int} (hd : FullAt q d) (he : FullAt q e) : d ≤ e := by
  by_contra hlt
  have hfull := hd.full.resolve_left (by have := he.least; omega)
  have hpow : (2 : ℚ) ^ (1 + e) ≤ 2 ^ d := zpow_le_zpow_right₀ (by norm_num) (by omega)
  rw [two_zpow_add, zpow_one] at hpow
  linarith [he.fits]

theorem FullAt.unique {q : ℚ} {d e : Int} (hd : FullAt q d) (he : FullAt q e) : d = e :=
  Int.le_antisymm (hd.le he) (he.le hd)

theorem log2_bounds {n : Nat} (hn : 0 < n) :
    (2 : ℚ) ^ (n.log2 : Int) ≤ n ∧ (n : ℚ) < 2 * 2 ^ (n.log2 : Int) := by
  have hlow : 2 ^ n.log2 ≤ n := Nat.log2_self_le hn.ne'
  have hhigh : n < 2 * 2 ^ n.log2 := by
    rw [← Nat.pow_succ']
    exact Nat.lt_log2_self
  rw [zpow_natCast]
  exact ⟨by exact_mod_cast hlow, by exact_mod_cast hhigh⟩

/-- The logarithms of both parts of a ratio tell its exponent, or one too many. -/
theorem guess_bounds {num den : Nat} (hnum : 0 < num) (hden : 0 < den) {guess : Int}
    (hguess : (num.log2 : Int) - (den.log2 : Int) - 52 = guess) :
    (2 : ℚ) ^ 51 * 2 ^ guess ≤ num / den ∧ (num / den : ℚ) < 2 ^ 53 * 2 ^ guess := by
  obtain ⟨hnumLow, hnumHigh⟩ := log2_bounds hnum
  obtain ⟨hdenLow, hdenHigh⟩ := log2_bounds hden
  have hden' : (0 : ℚ) < den := Nat.cast_pos.mpr hden
  have hpow : (2 : ℚ) ^ (num.log2 : Int) = 2 ^ 52 * 2 ^ guess * 2 ^ (den.log2 : Int) := by
    rw [show (2 : ℚ) ^ 52 = 2 ^ (52 : Int) by norm_num, ← two_zpow_add, ← two_zpow_add]
    congr 1
    omega
  rw [hpow] at hnumLow hnumHigh
  have hunit := two_zpow_pos guess
  rw [le_div_iff₀ hden', div_lt_iff₀ hden']
  constructor <;> nlinarith

/-- A scaled ratio falls short of a full significand if the exponent is too large. -/
theorem scale_lt_iff {den : Nat} (hden : 0 < den) (num : Nat) (e : Int) :
    (scale num den e).1 < twoPow (precision - 1) * (scale num den e).2 ↔
      (num / den : ℚ) < 2 ^ 52 * 2 ^ e := by
  have hscaledDen : (0 : ℚ) < (scale num den e).2 := Nat.cast_pos.mpr (scale_den_pos hden num e)
  rw [← div_lt_iff₀ (two_zpow_pos e), ← value_scale, div_lt_iff₀ hscaledDen, ← Nat.cast_lt (α := ℚ),
    Nat.cast_mul, cast_twoPow]
  rfl

/-- Below the smallest exponent a significand need not be full. -/
theorem FullAt.of_exponent {q : ℚ} {e : Int} (hfits : q < 2 ^ 53 * 2 ^ e)
    (hfull : 2 ^ 52 * 2 ^ e ≤ q) : FullAt q (max minExponent e) := by
  by_cases hmin : e ≤ minExponent
  · rw [max_eq_left hmin]
    refine ⟨le_refl _, lt_of_lt_of_le hfits ?_, Or.inl rfl⟩
    exact mul_le_mul_of_nonneg_left (zpow_le_zpow_right₀ (by norm_num) hmin) (by positivity)
  · rw [max_eq_right (by omega)]
    exact ⟨by omega, hfits, Or.inr hfull⟩

theorem fullAt_exponentFor {num den : Nat} (hnum : 0 < num) (hden : 0 < den) :
    FullAt (num / den) (exponentFor num den) := by
  obtain ⟨hlow, hhigh⟩ := guess_bounds hnum hden rfl
  unfold exponentFor
  dsimp only
  generalize (num.log2 : Int) - (den.log2 : Int) - 52 = guess at hlow hhigh ⊢
  by_cases h : (num / den : ℚ) < 2 ^ 52 * 2 ^ guess
  · rw [if_pos ((scale_lt_iff hden num guess).mpr h)]
    rw [← two_zpow_pred guess] at h hlow
    exact .of_exponent (by linarith) (by linarith)
  · rw [if_neg (mt (scale_lt_iff hden num guess).mp h)]
    exact .of_exponent hhigh (not_lt.mp h)

/-! ## Rounding to a double -/

/-- Where the numbers that are rounded to a double begin, in units of its last place. -/
def lowEnd (m : Nat) (e : Int) : ℚ :=
  if m = twoPow (precision - 1) ∧ e ≠ minExponent then m - 1 / 4 else m - 1 / 2

theorem le_lowEnd (m : Nat) (e : Int) : (m : ℚ) - 1 / 2 ≤ lowEnd m e := by
  unfold lowEnd
  split <;> linarith

theorem lowEnd_lt (m : Nat) (e : Int) : lowEnd m e ≤ m - 1 / 4 := by
  unfold lowEnd
  split <;> linarith

/-- The numbers that are rounded to `m * 2 ^ e`. -/
structure Rounds (q : ℚ) (m : Nat) (e : Int) : Prop where
  low : lowEnd m e ≤ q / 2 ^ e
  high : q / 2 ^ e ≤ m + 1 / 2
  odd : m % 2 = 1 → lowEnd m e < q / 2 ^ e ∧ q / 2 ^ e < m + 1 / 2

theorem Rounds.nearest {q : ℚ} {m : Nat} {e : Int} (h : Rounds q m e) : Nearest m (q / 2 ^ e) :=
  ⟨(le_lowEnd m e).trans h.low, h.high,
    fun hodd => ⟨lt_of_le_of_lt (le_lowEnd m e) (h.odd hodd).1, (h.odd hodd).2⟩⟩

/-- A number well inside of the two gaps is rounded to the double between them. -/
theorem Rounds.of_lt {q : ℚ} {m : Nat} {e : Int} (hlow : (m - 1 / 4) * 2 ^ e < q)
    (hhigh : q < (m + 1 / 2) * 2 ^ e) : Rounds q m e := by
  rw [← lt_div_iff₀ (two_zpow_pos e)] at hlow
  rw [← div_lt_iff₀ (two_zpow_pos e)] at hhigh
  have hlow := lt_of_le_of_lt (lowEnd_lt m e) hlow
  exact ⟨hlow.le, hhigh.le, fun _ => ⟨hlow, hhigh⟩⟩

theorem Rounds.self (m : Nat) (e : Int) : Rounds (m * 2 ^ e) m e := by
  have hunit := two_zpow_pos e
  exact .of_lt (by linarith) (by linarith)

theorem Rounds.pos {q : ℚ} {m : Nat} {e : Int} (h : Rounds q m e) (hm : 0 < m) : 0 < q := by
  have hone : (1 : ℚ) ≤ m := by exact_mod_cast hm
  have hscaled : 0 < q / 2 ^ e := by linarith [h.nearest.low]
  exact (div_pos_iff_of_pos_right (two_zpow_pos e)).mp hscaled

theorem pack_of_lt {m : Nat} {e : Int} (hm : m < twoPow precision) (he : e ≤ maxExponent)
    (negative : Bool) : pack negative m e = finite negative m e := by
  have hne : (m == twoPow precision) = false := beq_false_of_ne (Nat.ne_of_lt hm)
  simp only [pack, hne, Bool.false_eq_true, if_false, Int.not_lt.mpr he]

theorem pack_carried {e : Int} (he : e < maxExponent) (negative : Bool) :
    pack negative (twoPow precision) e = finite negative (twoPow (precision - 1)) (e + 1) := by
  simp only [pack, beq_self_eq_true, if_true, Int.not_lt.mpr (Int.add_one_le_of_lt he), if_false]

/-- Just below a power of two the exponent is one less, until the significand is rounded. -/
theorem Rounds.below {q : ℚ} {m : Nat} {e : Int} (h : Rounds q m e) (he : minExponent < e)
    (hfull : twoPow (precision - 1) ≤ m) (hbelow : q < 2 ^ 52 * 2 ^ e) :
    m = twoPow (precision - 1) ∧ FullAt q (e - 1) ∧
      Nearest (twoPow precision) (q / 2 ^ (e - 1)) := by
  rw [← div_lt_iff₀ (two_zpow_pos e)] at hbelow
  have hpower : m = twoPow (precision - 1) := by
    refine Nat.le_antisymm ?_ hfull
    have : (m : ℚ) < 2 ^ 52 + 1 := by linarith [h.nearest.low]
    have : m < 2 ^ 52 + 1 := by exact_mod_cast this
    exact Nat.le_of_lt_succ this
  have hlow : (2 : ℚ) ^ 52 - 1 / 4 ≤ q / 2 ^ e := by
    have hlow := h.low
    rw [lowEnd, if_pos ⟨hpower, he.ne'⟩, hpower, cast_twoPow] at hlow
    exact hlow
  have hhalf : q / 2 ^ (e - 1) = 2 * (q / 2 ^ e) := by
    have hunit := two_zpow_pos (e - 1)
    rw [← two_zpow_pred e]
    field_simp
  refine ⟨hpower, ⟨by omega, ?_, Or.inr ?_⟩, ⟨?_, ?_, fun hodd => absurd hodd (by decide)⟩⟩
  · rw [← div_lt_iff₀ (two_zpow_pos _), hhalf]
    linarith
  · rw [← le_div_iff₀ (two_zpow_pos _), hhalf]
    linarith
  · rw [cast_twoPow, precision, hhalf]
    linarith
  · rw [cast_twoPow, precision, hhalf]
    linarith

/-- A ratio is rounded to the one double whose numbers it is among. -/
theorem ofRatio_eq {num den m : Nat} {e : Int} {negative : Bool} (hden : 0 < den) (hm : 0 < m)
    (hcanonical : (finite negative m e).Canonical) (h : Rounds (num / den) m e) :
    ofRatio negative num den = finite negative m e := by
  obtain ⟨hprecision, hleast, hgreatest, hfull⟩ := hcanonical
  have hnum : 0 < num := by
    have hpos := h.pos hm
    by_contra hzero
    rw [Nat.eq_zero_of_not_pos hzero, Nat.cast_zero, zero_div] at hpos
    exact lt_irrefl _ hpos
  have hexponent := fullAt_exponentFor hnum hden
  have hsize : (m : ℚ) + 1 ≤ 2 ^ 53 := by
    have : m + 1 ≤ 2 ^ 53 := hprecision
    exact_mod_cast this
  have hfits : (num / den : ℚ) < 2 ^ 53 * 2 ^ e := by
    rw [← div_lt_iff₀ (two_zpow_pos e)]
    linarith [h.high]
  rw [ofRatio, if_neg hnum.ne']
  dsimp only
  by_cases hup : e = minExponent ∨ (2 : ℚ) ^ 52 * 2 ^ e ≤ num / den
  · have hnearest := h.nearest
    rw [← value_scale] at hnearest
    rw [hexponent.unique ⟨hleast, hfits, hup⟩, roundDiv_eq (scale_den_pos hden num e) hnearest]
    exact pack_of_lt hprecision hgreatest negative
  · rw [not_or, not_le] at hup
    obtain ⟨hne, hbelow⟩ := hup
    obtain ⟨hpower, hfullAt, hnearest⟩ :=
      h.below (lt_of_le_of_ne hleast (Ne.symm hne)) (hfull.resolve_left hne) hbelow
    rw [← value_scale] at hnearest
    rw [hexponent.unique hfullAt, roundDiv_eq (scale_den_pos hden num (e - 1)) hnearest,
      pack_carried (by omega), Int.sub_add_cancel, hpower]

/-! ## Doubles in their one form -/

theorem canonical_zero (negative : Bool) : (zero negative).Canonical :=
  ⟨twoPow_pos _, le_refl _, by decide, Or.inl rfl⟩

theorem canonical_pack {m : Nat} {e : Int} (hm : m ≤ twoPow precision) (he : minExponent ≤ e)
    (hfull : e = minExponent ∨ twoPow (precision - 1) ≤ m) (negative : Bool) :
    (pack negative m e).Canonical := by
  have hite : ∀ {m : Nat} {e : Int}, m < twoPow precision → minExponent ≤ e →
      (e = minExponent ∨ twoPow (precision - 1) ≤ m) →
      (if maxExponent < e then infinite negative else finite negative m e).Canonical := by
    intro m e hm he hfull
    by_cases hover : maxExponent < e
    · rw [if_pos hover]
      trivial
    · rw [if_neg hover]
      exact ⟨hm, he, Int.not_lt.mp hover, hfull⟩
  unfold pack
  dsimp only
  by_cases hcarried : m = twoPow precision
  · rw [if_pos (beq_iff_eq.mpr hcarried), if_pos (beq_iff_eq.mpr hcarried)]
    exact hite (by decide) (by omega) (Or.inr (le_refl _))
  · have hne : ¬(m == twoPow precision) = true := fun h => hcarried (beq_iff_eq.mp h)
    rw [if_neg hne, if_neg hne]
    exact hite (lt_of_le_of_ne hm hcarried) he hfull

theorem le_roundDiv (num den : Nat) : num / den ≤ roundDiv num den := by
  unfold roundDiv
  dsimp only
  split <;> omega

theorem canonical_ofRatio {den : Nat} (hden : 0 < den) (negative : Bool) (num : Nat) :
    (ofRatio negative num den).Canonical := by
  unfold ofRatio
  dsimp only
  by_cases hnum : num = 0
  · rw [if_pos hnum]
    exact canonical_zero negative
  · rw [if_neg hnum]
    have hexponent := fullAt_exponentFor (Nat.pos_of_ne_zero hnum) hden
    generalize exponentFor num den = e at hexponent
    obtain ⟨hleast, hfits, hfull⟩ := hexponent
    rw [← div_lt_iff₀ (two_zpow_pos e), ← value_scale] at hfits
    rw [← le_div_iff₀ (two_zpow_pos e), ← value_scale] at hfull
    have hscaled := scale_den_pos hden num e
    have hscaled' : (0 : ℚ) < (scale num den e).2 := Nat.cast_pos.mpr hscaled
    refine canonical_pack ?_ hleast (hfull.imp id fun hfull => ?_) negative
    · refine Nat.le_trans (roundDiv_le _ _) (Nat.div_lt_of_lt_mul ?_)
      rw [div_lt_iff₀ hscaled'] at hfits
      rw [Nat.mul_comm]
      exact_mod_cast hfits
    · refine Nat.le_trans ((Nat.le_div_iff_mul_le hscaled).mpr ?_) (le_roundDiv _ _)
      rw [le_div_iff₀ hscaled'] at hfull
      exact_mod_cast hfull

theorem canonical_ofDecimal (negative : Bool) (digits : Nat) (exponent : Int) :
    (ofDecimal negative digits exponent).Canonical := by
  unfold ofDecimal
  dsimp only
  split
  · exact canonical_zero negative
  · split
    · exact canonical_zero negative
    · split
      · trivial
      · split
        · exact canonical_ofRatio Nat.zero_lt_one _ _
        · exact canonical_ofRatio (tenPow_pos _) _ _

/-! ## Rounding decimals -/

/-- A decimal that is not cut off by its magnitude is rounded as the number it stands for. -/
theorem ofDecimal_eq {n m : Nat} {k e : Int} {negative : Bool} (hm : 0 < m)
    (hcanonical : (finite negative m e).Canonical) (h : Rounds (n * 10 ^ k) m e)
    (hlow : -400 ≤ k + (n.log2 : Int) * 30103 / 100000)
    (hhigh : k + (n.log2 : Int) * 30103 / 100000 ≤ 400) :
    ofDecimal negative n k = finite negative m e := by
  have hn : n ≠ 0 := by
    rintro rfl
    have hpos := h.pos hm
    rw [Nat.cast_zero, zero_mul] at hpos
    exact lt_irrefl _ hpos
  rw [ofDecimal, if_neg hn]
  dsimp only
  rw [if_neg (Int.not_lt.mpr hlow), if_neg (Int.not_lt.mpr hhigh)]
  by_cases hk : 0 ≤ k
  · rw [if_pos hk]
    refine ofRatio_eq Nat.one_pos hm hcanonical ?_
    rwa [Nat.cast_one, div_one, Nat.cast_mul, cast_tenPow, pow_toNat 10 hk]
  · rw [if_neg hk]
    refine ofRatio_eq (tenPow_pos _) hm hcanonical ?_
    rwa [cast_tenPow, pow_toNat_neg 10 hk, div_inv_eq_mul]

/-- The numbers that are rounded to doubles are neither very small nor very large. -/
theorem Rounds.bounds {q : ℚ} {m : Nat} {e : Int} {negative : Bool} (h : Rounds q m e)
    (hm : 0 < m) (hcanonical : (finite negative m e).Canonical) :
    (10 : ℚ) ^ (-324 : Int) < q ∧ q < 10 ^ (309 : Int) := by
  obtain ⟨hprecision, hleast, hgreatest, -⟩ := hcanonical
  have hunit := two_zpow_pos e
  have hone : (1 : ℚ) ≤ m := by exact_mod_cast hm
  have hsize : (m : ℚ) + 1 ≤ 2 ^ 53 := by
    have : m + 1 ≤ 2 ^ 53 := hprecision
    exact_mod_cast this
  have hlow := h.nearest.low
  have hhigh := h.high
  rw [le_div_iff₀ hunit] at hlow
  rw [div_le_iff₀ hunit] at hhigh
  constructor
  · have hpow : (2 : ℚ) ^ minExponent ≤ 2 ^ e := zpow_le_zpow_right₀ (by norm_num) hleast
    have hten : (10 : ℚ) ^ (-324 : Int) < 2 ^ (-1 + minExponent) := by
      rw [show (-324 : Int) = -((324 : Nat) : Int) from rfl,
        show -1 + minExponent = -((1075 : Nat) : Int) from rfl, zpow_neg, zpow_neg, zpow_natCast,
        zpow_natCast, inv_lt_inv₀ (by positivity) (by positivity)]
      have : (2 : Nat) ^ 1075 < 10 ^ 324 := by decide +kernel
      exact_mod_cast this
    rw [two_zpow_add, zpow_neg_one] at hten
    nlinarith
  · have hpow : (2 : ℚ) ^ e ≤ 2 ^ maxExponent := zpow_le_zpow_right₀ (by norm_num) hgreatest
    have hten : (2 : ℚ) ^ (53 + maxExponent) < 10 ^ (309 : Int) := by
      rw [show (53 + maxExponent : Int) = ((1024 : Nat) : Int) from rfl,
        show (309 : Int) = ((309 : Nat) : Int) from rfl, zpow_natCast, zpow_natCast]
      have : (2 : Nat) ^ 1024 < 10 ^ 309 := by decide +kernel
      exact_mod_cast this
    rw [two_zpow_add, show (2 : ℚ) ^ (53 : Int) = 2 ^ 53 by norm_num] at hten
    calc q ≤ (m + 1 / 2) * 2 ^ e := hhigh
      _ ≤ 2 ^ 53 * 2 ^ maxExponent :=
          mul_le_mul (by linarith) hpow hunit.le (by positivity)
      _ < 10 ^ (309 : Int) := hten

/-- A decimal of few digits is rounded as the number it stands for. -/
theorem ofDecimal_eq_of_lt {n m : Nat} {k e : Int} {negative : Bool} (hm : 0 < m)
    (hcanonical : (finite negative m e).Canonical) (h : Rounds (n * 10 ^ k) m e)
    (hn : n < 10 ^ 36) : ofDecimal negative n k = finite negative m e := by
  have hpos := h.pos hm
  have hten := ten_zpow_pos k
  have hn' : 0 < n := by
    have := (mul_pos_iff_of_pos_right hten).mp hpos
    exact_mod_cast this
  obtain ⟨hlow, hhigh⟩ := h.bounds hm hcanonical
  have hbelow : k < 309 := by
    have hone : (1 : ℚ) ≤ n := by exact_mod_cast hn'
    have := lt_of_le_of_lt (le_mul_of_one_le_left hten.le hone) hhigh
    exact (zpow_lt_zpow_iff_right₀ (by norm_num)).mp this
  have habove : -324 < 36 + k := by
    have hsize : (n : ℚ) < 10 ^ (36 : Int) := by exact_mod_cast hn
    have : (10 : ℚ) ^ (-324 : Int) < 10 ^ (36 + k) := by
      rw [ten_zpow_add]
      nlinarith
    exact (zpow_lt_zpow_iff_right₀ (by norm_num)).mp this
  have hlog : n.log2 < 120 := (Nat.log2_lt hn'.ne').mpr (Nat.lt_trans hn (by decide +kernel))
  exact ofDecimal_eq hm hcanonical h (by omega) (by omega)

end Binary64

theorem Number.canonical_double? {s : String} {x : Binary64} (h : double? s = some x) :
    x.Canonical := by
  unfold double? at h
  dsimp only at h
  split at h
  · unfold named? at h
    dsimp only at h
    split at h
    · cases h
      trivial
    · split at h <;> cases h
      trivial
  · split at h <;> cases h
    exact Binary64.canonical_ofDecimal _ _ _

end InoBlocks
