import InoBlocks.Number.Layout
import InoBlocks.Proofs.Number.Reading
import InoBlocks.Proofs.Number.ShortestDecimal

/-!
# A written double reads back

The text of a double is a number as it is typed, without a zero too many in front, and it is read
as that double.  A zero is written without its sign, so there the two are equal as numbers only.
-/

namespace InoBlocks

namespace Number

/-! ## The value of digits -/

theorem value_eq_ofDigitChars (cs : List Char) : value cs = Nat.ofDigitChars 10 cs 0 := by
  rw [value, ofDigits, digitValues, List.foldl_map, Nat.ofDigitChars_eq_foldl]
  simp only [Nat.mul_comm]

theorem value_append (cs ds : List Char) :
    value (cs ++ ds) = value cs * 10 ^ ds.length + value ds := by
  rw [value_eq_ofDigitChars, Nat.ofDigitChars_append, Nat.ofDigitChars_eq_ofDigitChars_zero,
    ← value_eq_ofDigitChars, ← value_eq_ofDigitChars, Nat.mul_comm]

theorem value_zeros (k : Nat) : value (List.replicate k '0') = 0 := by
  rw [value_eq_ofDigitChars, Nat.ofDigitChars_replicate_zero, Nat.mul_zero]

theorem value_zeros_append (k : Nat) (cs : List Char) :
    value (List.replicate k '0' ++ cs) = value cs := by
  rw [value_append, value_zeros, Nat.zero_mul, Nat.zero_add]

theorem value_append_zeros (cs : List Char) (k : Nat) :
    value (cs ++ List.replicate k '0') = value cs * 10 ^ k := by
  rw [value_append, value_zeros, List.length_replicate, Nat.add_zero]

theorem value_digits (n : Nat) : value (digits n) = n := by
  rw [value_eq_ofDigitChars]
  exact Nat.ofDigitChars_ten_toDigits

theorem digits_ne_nil (n : Nat) : digits n ≠ [] :=
  Nat.toDigits_ne_nil

theorem isDigit_of_mem_zeros {k : Nat} {c : Char} (h : c ∈ List.replicate k '0') :
    c.isDigit = true := by
  rw [List.eq_of_mem_replicate h]
  decide

/-- A positive number is written without a zero in front. -/
theorem head?_digits_ne_zero {n : Nat} (hn : 0 < n) : (digits n).head? ≠ some '0' := by
  intro hzero
  obtain ⟨ds, hds⟩ : ∃ ds, digits n = '0' :: ds := by
    cases hdigits : digits n with
    | nil => exact absurd hdigits (digits_ne_nil n)
    | cons c ds =>
        rw [hdigits] at hzero
        exact ⟨ds, by rw [Option.some.inj hzero]⟩
  have hlow := (digits_bounds hn).1
  have hvalue := value_digits n
  rw [hds, List.length_cons, Nat.add_sub_cancel] at hlow
  rw [hds] at hvalue
  have hdrop : value ('0' :: ds) = value ds := value_zeros_append 1 ds
  have hsmall : value ds < 10 ^ ds.length := value_lt fun c hc => by
    refine isDigit_of_mem_digits (n := n) ?_
    rw [hds]
    exact List.mem_cons_of_mem _ hc
  omega

/-- Padded digits after a sign are an exponent, which is read as the number that was written. -/
theorem readExponent_padZeros (width : Nat) (n : Int) :
    IsExponent ('e' :: (if n < 0 then '-' else '+') ::
        Binary64.padZeros width (digits n.natAbs)) ∧
      readExponent ('e' :: (if n < 0 then '-' else '+') ::
        Binary64.padZeros width (digits n.natAbs)) = some (n, []) := by
  have hdigits : ∀ c ∈ Binary64.padZeros width (digits n.natAbs), c.isDigit = true := by
    intro c hc
    rcases List.mem_append.mp hc with hc | hc
    · exact isDigit_of_mem_zeros hc
    · exact isDigit_of_mem_digits hc
  have hne : Binary64.padZeros width (digits n.natAbs) ≠ [] :=
    List.append_ne_nil_of_right_ne_nil _ (digits_ne_nil _)
  have hvalue : ofDigits ((Binary64.padZeros width (digits n.natAbs)).filterMap Text.digitValue?) =
      n.natAbs := by
    rw [filterMap_digitValue? hdigits]
    exact (value_zeros_append _ _).trans (value_digits _)
  have hall := allDecimal_of_isDigit hdigits
  by_cases hn : n < 0
  · rw [if_pos hn]
    refine ⟨.letter (Or.inl rfl) .minus hne hall, ?_⟩
    have hread := readExponent_letter (Or.inl rfl) .minus hne hall
    rw [List.singleton_append] at hread
    rw [hread, hvalue, if_pos rfl]
    congr 2
    omega
  · rw [if_neg hn]
    refine ⟨.letter (Or.inl rfl) .plus hne hall, ?_⟩
    have hread := readExponent_letter (Or.inl rfl) .plus hne hall
    rw [List.singleton_append] at hread
    rw [hread, hvalue,
      if_neg (by decide)]
    congr 2
    omega

/-! ## Zeros in front -/

theorem hasLeadingZero_of_head? {sign cs : List Char} (hsign : IsSign sign)
    (hcs : ∀ c ∈ cs.head?, c.isDigit = true ∧ c ≠ '0') : hasLeadingZero (sign ++ cs) = false := by
  have hfirst : ∀ c ∈ cs.head?, c ≠ '-' ∧ c ≠ '+' := fun c hc =>
    ne_sign_of_isDecimal (Text.isDecimal_of_isDigit (hcs c hc).1)
  rw [hasLeadingZero, spanSign_append hsign hfirst]
  dsimp only
  split
  · exact absurd rfl (hcs '0' rfl).2
  · rfl

theorem hasLeadingZero_point {sign : List Char} (hsign : IsSign sign) (cs : List Char) :
    hasLeadingZero (sign ++ '0' :: '.' :: cs) = false := by
  have hfirst : ∀ c ∈ ('0' :: '.' :: cs).head?, c ≠ '-' ∧ c ≠ '+' := by
    intro c hc
    obtain rfl := Option.mem_some_iff.mp hc
    decide
  rw [hasLeadingZero, spanSign_append hsign hfirst]
  exact not_isDecimal_of_mem_marks (by decide)

end Number

namespace Binary64

/-! ## Positional notation -/

/-- Digits with a point after some of them, which is what positional notation is. -/
structure Pointed (text digits : List Char) (position : Int) (whole fraction : List Char) :
    Prop where
  text_eq : text = whole ++ '.' :: fraction
  ne_nil : whole ≠ []
  head? : whole = ['0'] ∨ whole.head? = digits.head?
  isDigit : (∀ c ∈ whole, c.isDigit = true) ∧ ∀ c ∈ fraction, c.isDigit = true
  value_eq : (Number.value (whole ++ fraction) : ℚ) * 10 ^ (-(fraction.length : Int)) =
    Number.value digits * 10 ^ (position - (digits.length : Int))
  value_le : Number.value (whole ++ fraction) ≤ Number.value digits * 10 ^ (position.toNat + 1)

theorem forall_mem_zeros_append (k : Nat) {cs : List Char} (hcs : ∀ c ∈ cs, c.isDigit = true) :
    ∀ c ∈ List.replicate k '0' ++ cs, c.isDigit = true := fun c hc =>
  (List.mem_append.mp hc).elim Number.isDigit_of_mem_zeros (hcs c)

/-- Digits behind the point, with zeros in front of them. -/
theorem pointed_behind {ds : List Char} (hds : ∀ c ∈ ds, c.isDigit = true) {p : Int} (hp : p ≤ 0) :
    Pointed (positional ds p) ds p ['0'] (List.replicate (-p).toNat '0' ++ ds) := by
  have hvalue : Number.value (['0'] ++ (List.replicate (-p).toNat '0' ++ ds)) = Number.value ds :=
    (Number.value_zeros_append 1 _).trans (Number.value_zeros_append _ _)
  refine ⟨?_, List.cons_ne_nil _ _, Or.inl rfl,
    ⟨fun c => Number.isDigit_of_mem_zeros (k := 1), forall_mem_zeros_append _ hds⟩, ?_, ?_⟩
  · rw [positional, if_pos hp]
    rfl
  · rw [hvalue, List.length_append, List.length_replicate]
    congr 2
    omega
  · rw [hvalue]
    exact Nat.le_mul_of_pos_right _ (Nat.pow_pos (by decide))

/-- Digits in front of the point, with zeros behind them. -/
theorem pointed_before {ds : List Char} (hne : ds ≠ []) (hds : ∀ c ∈ ds, c.isDigit = true) {p : Int}
    (hlong : (ds.length : Int) ≤ p) :
    Pointed (positional ds p) ds p (ds ++ List.replicate (p.toNat - ds.length) '0') ['0'] := by
  have hlength : 0 < ds.length := List.length_pos_iff.mpr hne
  have hvalue : Number.value (ds ++ List.replicate (p.toNat - ds.length) '0' ++ ['0']) =
      Number.value ds * 10 ^ (p.toNat - ds.length + 1) := by
    have happended := Number.value_append_zeros ds (p.toNat - ds.length + 1)
    rwa [List.replicate_succ', ← List.append_assoc] at happended
  refine ⟨?_, List.append_ne_nil_of_left_ne_nil hne _, Or.inr (List.head?_append_of_ne_nil _ hne),
    ⟨fun c hc => (List.mem_append.mp hc).elim (hds c) Number.isDigit_of_mem_zeros,
      fun c => Number.isDigit_of_mem_zeros (k := 1)⟩, ?_, ?_⟩
  · rw [positional, if_neg (by omega), if_pos (by omega)]
  · have hshift : (10 : ℚ) ^ (p.toNat - ds.length + 1) * 10 ^ (-(1 : Int)) =
        10 ^ (p - (ds.length : Int)) := by
      rw [← zpow_natCast, ← ten_zpow_add]
      congr 1
      omega
    rw [hvalue, Nat.cast_mul, Nat.cast_pow, Nat.cast_ofNat, List.length_singleton, Nat.cast_one,
      mul_assoc, hshift]
  · rw [hvalue]
    exact Nat.mul_le_mul_left _ (Nat.pow_le_pow_right (by decide) (by omega))

theorem pointed_inside {ds : List Char} (hds : ∀ c ∈ ds, c.isDigit = true) {p : Int} (hp : 0 < p)
    (hshort : p < ds.length) :
    Pointed (positional ds p) ds p (ds.take p.toNat) (ds.drop p.toNat) := by
  refine ⟨?_, ?_, Or.inr ?_, ⟨fun c hc => hds c (List.mem_of_mem_take hc),
    fun c hc => hds c (List.mem_of_mem_drop hc)⟩, ?_, ?_⟩
  · rw [positional, if_neg (by omega), if_neg (by omega)]
  · rw [Ne, List.take_eq_nil_iff, not_or]
    refine ⟨by omega, ?_⟩
    rintro rfl
    simp at hshort
    omega
  · rw [List.head?_take, if_neg (by omega)]
  · rw [List.take_append_drop, List.length_drop]
    congr 2
    omega
  · rw [List.take_append_drop]
    exact Nat.le_mul_of_pos_right _ (Nat.pow_pos (by decide))

theorem exists_pointed {ds : List Char} (hne : ds ≠ []) (hds : ∀ c ∈ ds, c.isDigit = true)
    (p : Int) : ∃ whole fraction, Pointed (positional ds p) ds p whole fraction := by
  by_cases hp : p ≤ 0
  · exact ⟨_, _, pointed_behind hds hp⟩
  by_cases hlong : (ds.length : Int) ≤ p
  · exact ⟨_, _, pointed_before hne hds hlong⟩
  · exact ⟨_, _, pointed_inside hds (Int.not_le.mp hp) (Int.not_le.mp hlong)⟩

/-! ## Both notations -/

/-- A text is read as a double, is all of its own spelling and has no zero too many in front. -/
structure ReadsAs (cs : List Char) (x : Binary64) : Prop where
  spelling : Number.IsSpelling cs
  leading : Number.hasLeadingZero cs = false
  double? : Number.double? (String.ofList cs) = some x

theorem readsAs_positional {sign : List Char} {m n : Nat} {e k : Int} (hsign : Number.IsSign sign)
    (hm : 0 < m) (hcanonical : (finite (sign == ['-']) m e).Canonical)
    (h : Rounds (n * 10 ^ k) m e) (hn : 0 < n) (hfew : n ≤ 10 ^ 18) {p : Int}
    (hp : p = k + (Number.digits n).length) (hsmall : p ≤ 16) :
    ReadsAs (sign ++ positional (Number.digits n) p) (finite (sign == ['-']) m e) := by
  obtain ⟨whole, fraction, hpointed⟩ :=
    exists_pointed (Number.digits_ne_nil n) (fun _ => Number.isDigit_of_mem_digits) p
  obtain ⟨htext, hne, hhead, ⟨hwhole, hfraction⟩, hvalue, hle⟩ := hpointed
  rw [Number.value_digits] at hvalue hle
  rw [htext]
  refine ⟨?_, ?_, ?_⟩
  · have hmantissa := Number.IsMantissa.pointed (Number.allDecimal_of_isDigit hwhole)
      (Number.allDecimal_of_isDigit hfraction) (Or.inl hne)
    simpa using Number.IsSpelling.parts hsign hmantissa .none
  · rcases hhead with rfl | hhead
    · exact Number.hasLeadingZero_point hsign fraction
    · refine Number.hasLeadingZero_of_head? hsign fun c hc => ?_
      rw [List.head?_append_of_ne_nil _ hne] at hc
      refine ⟨hwhole c (List.mem_of_mem_head? hc), ?_⟩
      rintro rfl
      exact Number.head?_digits_ne_zero hn (hhead ▸ hc)
  · have hread := Number.double?_pointed hsign hne hwhole hfraction .none rfl
    rw [List.append_nil] at hread
    rw [hread, ofDecimal_eq_of_lt hm hcanonical]
    · rw [Int.zero_sub, hvalue, hp, Int.add_sub_cancel]
      exact h
    · calc Number.value (whole ++ fraction) ≤ n * 10 ^ (p.toNat + 1) := hle
        _ ≤ 10 ^ 18 * 10 ^ 17 :=
            Nat.mul_le_mul hfew (Nat.pow_le_pow_right (by decide) (by omega))
        _ < 10 ^ 36 := by decide

theorem readsAs_exponential {sign : List Char} {m n : Nat} {e k : Int} (hsign : Number.IsSign sign)
    (hm : 0 < m) (hcanonical : (finite (sign == ['-']) m e).Canonical)
    (h : Rounds (n * 10 ^ k) m e) (hn : 0 < n) (hfew : n ≤ 10 ^ 18) (layout : Layout) {l : Int}
    (hl : l = k + (Number.digits n).length - 1) :
    ReadsAs (sign ++ exponential layout (Number.digits n) l) (finite (sign == ['-']) m e) := by
  obtain ⟨hexponent, hread⟩ := Number.readExponent_padZeros layout.exponentWidth l
  have hdigits : ∀ c ∈ Number.digits n, c.isDigit = true := fun _ => Number.isDigit_of_mem_digits
  have hhead := Number.head?_digits_ne_zero hn
  have hvalue := Number.value_digits n
  have hsize : n < 10 ^ 36 := Nat.lt_of_le_of_lt hfew (by decide)
  cases hcons : Number.digits n with
  | nil => exact absurd hcons (Number.digits_ne_nil n)
  | cons d ds =>
      rw [hcons] at hdigits hhead hvalue hl
      obtain ⟨hd, hds⟩ := List.forall_mem_cons.mp hdigits
      have hfirst : d.isDigit = true ∧ d ≠ '0' := ⟨hd, fun h => hhead (congrArg some h)⟩
      have hleading : ∀ cs, Number.hasLeadingZero (sign ++ d :: cs) = false := fun cs =>
        Number.hasLeadingZero_of_head? hsign fun c hc => Option.mem_some_iff.mp hc ▸ hfirst
      have hwhole : ∀ c ∈ [d], c.isDigit = true := List.forall_mem_singleton.mpr hd
      cases ds with
      | nil =>
          have hl : l = k := by
            rw [hl, List.length_singleton]
            omega
          refine ⟨.parts hsign (.whole (List.cons_ne_nil d []) (Number.allDecimal_of_isDigit hwhole))
            hexponent, hleading _, ?_⟩
          have hdouble := Number.double?_whole hsign (List.cons_ne_nil d []) hwhole hexponent hread
          rw [hvalue, hl, ofDecimal_eq_of_lt hm hcanonical h hsize] at hdouble
          exact hl ▸ hdouble
      | cons d' ds =>
          have hplaces : l - ((d' :: ds).length : Int) = k := by
            rw [hl, List.length_cons (a := d)]
            omega
          have hmantissa := Number.IsMantissa.pointed (Number.allDecimal_of_isDigit hwhole)
            (Number.allDecimal_of_isDigit hds) (Or.inl (List.cons_ne_nil d []))
          refine ⟨.parts hsign hmantissa hexponent, hleading _, ?_⟩
          have hdouble :=
            Number.double?_pointed hsign (List.cons_ne_nil d []) hwhole hds hexponent hread
          rw [show [d] ++ d' :: ds = d :: d' :: ds from rfl, hvalue, hplaces,
            ofDecimal_eq_of_lt hm hcanonical h hsize] at hdouble
          exact hdouble

/-- The text of a positive double, after a sign or none, is read as that double. -/
theorem readsAs_layoutPositive {sign : List Char} {m : Nat} {e : Int} (hsign : Number.IsSign sign)
    (hm : 0 < m) (hcanonical : (finite (sign == ['-']) m e).Canonical) :
    ReadsAs (sign ++ layoutPositive standardLayout m e) (finite (sign == ['-']) m e) := by
  obtain ⟨hrounds, hfew⟩ := rounds_shortest hm hcanonical
  have hpos := hrounds.pos hm
  rw [mul_pos_iff_of_pos_right (ten_zpow_pos _), Nat.cast_pos] at hpos
  unfold layoutPositive
  dsimp only
  generalize shortest m e = found at hrounds hfew hpos
  by_cases hrange : standardLayout.leastPositional ≤
        found.2 + ((Number.digits found.1).length : Int) - 1 ∧
      found.2 + ((Number.digits found.1).length : Int) - 1 < standardLayout.leastExponential
  · have hbelow : found.2 + ((Number.digits found.1).length : Int) - 1 < 16 := hrange.2
    rw [if_pos (by simpa using hrange)]
    exact readsAs_positional hsign hm hcanonical hrounds hpos hfew (by omega) (by omega)
  · rw [if_neg (by simpa using hrange)]
    exact readsAs_exponential hsign hm hcanonical hrounds hpos hfew standardLayout rfl

/-! ## Numerals -/

/-- A text that stands for a rational number: it is all of its own spelling, has no zero too many
in front and is read as a finite double that is that number. -/
structure Names (s : String) (q : ℚ) : Prop where
  spelling : Number.IsSpelling s.toList
  leading : Number.hasLeadingZero s.toList = false
  double? : ∃ x, Number.double? s = some x ∧ x.isFinite = true ∧ x.toRat = q

theorem ReadsAs.names {cs : List Char} {x : Binary64} (h : ReadsAs cs x)
    (hfinite : x.isFinite = true) : Names (String.ofList cs) x.toRat :=
  ⟨String.toList_ofList.symm ▸ h.spelling, String.toList_ofList.symm ▸ h.leading,
    x, h.double?, hfinite, rfl⟩

theorem readsAs_digits {sign : List Char} {n m : Nat} {e : Int} (hsign : Number.IsSign sign)
    (hm : 0 < m) (hcanonical : (finite (sign == ['-']) m e).Canonical) (h : (n : ℚ) = m * 2 ^ e) :
    ReadsAs (sign ++ Number.digits n) (finite (sign == ['-']) m e) := by
  have hrounds : Rounds (n * 10 ^ (0 : Int)) m e := by
    rw [zpow_zero, mul_one, h]
    exact .self m e
  have hdigits : ∀ c ∈ Number.digits n, c.isDigit = true := fun _ => Number.isDigit_of_mem_digits
  have hn : 0 < n := by
    have hpos := hrounds.pos hm
    rw [zpow_zero, mul_one] at hpos
    exact_mod_cast hpos
  refine ⟨?_, ?_, ?_⟩
  · have hmantissa :=
      Number.IsMantissa.whole (Number.digits_ne_nil n) (Number.allDecimal_of_isDigit hdigits)
    simpa using Number.IsSpelling.parts hsign hmantissa .none
  · refine Number.hasLeadingZero_of_head? hsign fun c hc => ?_
    refine ⟨hdigits c (List.mem_of_mem_head? hc), ?_⟩
    rintro rfl
    exact Number.head?_digits_ne_zero hn hc
  · have hlog : n.log2 < 1030 := by
      have hbound := (hrounds.bounds hm hcanonical).2
      rw [zpow_zero, mul_one] at hbound
      have hbound : n < 10 ^ 309 := by exact_mod_cast hbound
      exact (Nat.log2_lt hn.ne').mpr (hbound.trans (by decide +kernel))
    rw [Number.double?_of_isDigit hsign (Number.digits_ne_nil n) hdigits, Number.value_digits,
      ofDecimal_eq hm hcanonical hrounds (by omega) (by omega)]

theorem names_zero : Names "0" 0 := by
  have hmantissa : Number.IsMantissa ['0'] :=
    .whole (List.cons_ne_nil _ _) (List.forall_mem_singleton.mpr (by decide))
  exact ⟨hmantissa.isSpelling, by decide, zero false, by decide +kernel, rfl,
    by rw [zero, toRat_finite]; simp⟩

theorem signedDecimal_eq (i : Int) : Number.signedDecimal i =
    String.ofList ((if i < 0 then ['-'] else []) ++ Number.digits i.natAbs) := by
  cases i with
  | ofNat n =>
      have hn : ¬Int.ofNat n < 0 := Int.not_lt.mpr (Int.natCast_nonneg n)
      rw [if_neg hn]
      rfl
  | negSucc n =>
      rw [if_pos (Int.negSucc_lt_zero n), Number.signedDecimal, Number.decimal, ← String.toList_inj]
      simp

theorem natAbs_eq_of_toRat {i : Int} {negative : Bool} {m : Nat} {e : Int}
    (h : (finite negative m e).toRat = i) : (i.natAbs : ℚ) = m * 2 ^ e := by
  have hmagnitude : (0 : ℚ) ≤ m * 2 ^ e := mul_nonneg (Nat.cast_nonneg m) (two_zpow_pos e).le
  rw [Nat.cast_natAbs, Int.cast_abs, ← h, toRat_finite]
  split
  · rw [abs_neg, abs_of_nonneg hmagnitude]
  · exact abs_of_nonneg hmagnitude

/-- The text of an integer that is a double stands for it. -/
theorem names_signedDecimal {i : Int} {x : Binary64} (hfinite : x.isFinite = true)
    (hcanonical : x.Canonical) (hx : x.toRat = i) : Names (Number.signedDecimal i) i := by
  cases x with
  | infinite negative => cases hfinite
  | notANumber => cases hfinite
  | finite negative m e =>
      have habs := natAbs_eq_of_toRat hx
      rcases Nat.eq_zero_or_pos m with rfl | hm
      · have hzero : i = 0 := by
          rw [Nat.cast_zero, zero_mul, Nat.cast_eq_zero, Int.natAbs_eq_zero] at habs
          exact habs
        rw [hzero, Int.cast_zero]
        exact names_zero
      · rw [signedDecimal_eq]
        by_cases hi : i < 0
        · have hvalue : (finite true m e).toRat = i := by
            rw [toRat_finite, if_pos rfl, ← habs, Nat.cast_natAbs, abs_of_neg hi, Int.cast_neg,
              neg_neg]
          rw [if_pos hi, ← hvalue]
          exact (readsAs_digits .minus hm hcanonical habs).names rfl
        · have hvalue : (finite false m e).toRat = i := by
            rw [toRat_finite, if_neg Bool.false_ne_true, ← habs, Nat.cast_natAbs,
              abs_of_nonneg (Int.not_lt.mp hi)]
          rw [if_neg hi, ← hvalue]
          exact (readsAs_digits .none hm hcanonical habs).names rfl

theorem toRat_eq_truncate {x : Binary64} (h : x.isInteger = true) : x.toRat = x.truncate := by
  rw [isInteger, Bool.and_eq_true, beq_iff_eq] at h
  have hexact := Int.tdiv_mul_cancel (Int.dvd_of_emod_eq_zero h.2)
  have hpow : (0 : ℚ) < 2 ^ x.denominatorLog := by positivity
  rw [toRat, div_eq_iff hpow.ne', ← cast_twoPow]
  exact_mod_cast hexact.symm

theorem names_toNumeral {x : Binary64} (hfinite : x.isFinite = true) (hcanonical : x.Canonical) :
    Names x.toNumeral x.toRat := by
  unfold toNumeral
  by_cases hinteger : x.isInteger = true
  · rw [if_pos hinteger, toRat_eq_truncate hinteger]
    exact names_signedDecimal hfinite hcanonical (toRat_eq_truncate hinteger)
  · rw [if_neg hinteger]
    cases x with
    | infinite negative => cases hfinite
    | notANumber => cases hfinite
    | finite negative m e =>
        have hm : m ≠ 0 := by
          rintro rfl
          have hzero : (finite negative 0 e).numerator = 0 := by
            cases negative <;> simp [numerator]
          refine hinteger ?_
          rw [isInteger, hzero]
          exact beq_iff_eq.mpr (Int.zero_emod _)
        rw [toText, layOut, if_neg hm]
        cases negative with
        | true =>
            have hreads := readsAs_layoutPositive .minus (Nat.pos_of_ne_zero hm) hcanonical
            exact hreads.names rfl
        | false =>
            have hreads := readsAs_layoutPositive .none (Nat.pos_of_ne_zero hm) hcanonical
            exact hreads.names rfl

end Binary64

end InoBlocks
