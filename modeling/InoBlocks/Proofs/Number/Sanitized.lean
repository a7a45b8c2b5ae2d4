import InoBlocks.Proofs.Number.Written

/-!
# Numbers in fields, inside limits

Whatever is typed into a field, what is written for it is the default, or a number that is all of
its own spelling, has no zero too many in front and lies inside the limits.  Such a number is
written as it is, so writing a number a second time changes nothing.
-/

namespace InoBlocks

/-! ## Limits as numbers -/

namespace Binary64

theorem ltDyadic_iff {x : Binary64} (hx : x.isFinite = true) (num : Int) (log : Nat) :
    x.ltDyadic num log = true ↔ x.toRat < num / 2 ^ log := by
  cases x with
  | infinite negative => cases hx
  | notANumber => cases hx
  | finite negative m e =>
      rw [ltDyadic, decide_eq_true_eq, toRat, div_lt_div_iff₀ (by positivity) (by positivity),
        ← cast_twoPow, ← cast_twoPow]
      exact_mod_cast Iff.rfl

theorem gtDyadic_iff {x : Binary64} (hx : x.isFinite = true) (num : Int) (log : Nat) :
    x.gtDyadic num log = true ↔ num / 2 ^ log < x.toRat := by
  cases x with
  | infinite negative => cases hx
  | notANumber => cases hx
  | finite negative m e =>
      rw [gtDyadic, decide_eq_true_eq, toRat, div_lt_div_iff₀ (by positivity) (by positivity),
        ← cast_twoPow, ← cast_twoPow]
      exact_mod_cast Iff.rfl

theorem lt_iff {x y : Binary64} (hx : x.isFinite = true) (hy : y.isFinite = true) :
    x.lt y = true ↔ x.toRat < y.toRat := by
  cases y with
  | infinite negative => cases hy
  | notANumber => cases hy
  | finite negative m e => exact ltDyadic_iff hx _ _

end Binary64

namespace Limit

def toRat : Limit → ℚ
  | integer n => n
  | real x => x.toRat

def Exact : Limit → Prop
  | integer n => ∃ x : Binary64, x.isFinite = true ∧ x.Canonical ∧ x.toRat = n
  | real x => x.isFinite = true ∧ x.Canonical

variable {limit : Limit} {x : Binary64}

theorem isAbove_iff (h : limit.Exact) (hx : x.isFinite = true) :
    limit.isAbove x = true ↔ x.toRat < limit.toRat := by
  cases limit with
  | integer n =>
      rw [isAbove, Binary64.ltDyadic_iff hx, pow_zero, div_one]
      exact Iff.rfl
  | real y => exact Binary64.lt_iff hx h.1

theorem isBelow_iff (h : limit.Exact) (hx : x.isFinite = true) :
    limit.isBelow x = true ↔ limit.toRat < x.toRat := by
  cases limit with
  | integer n =>
      rw [isBelow, Binary64.gtDyadic_iff hx, pow_zero, div_one]
      exact Iff.rfl
  | real y => exact Binary64.lt_iff h.1 hx

theorem filter_isAbove_eq_none {low : Option Limit} (h : ∀ limit ∈ low, limit.Exact)
    (hx : x.isFinite = true) :
    low.filter (·.isAbove x) = none ↔ ∀ limit ∈ low, limit.toRat ≤ x.toRat := by
  rw [Option.filter_eq_none_iff]
  refine forall₂_congr fun limit hlimit => ?_
  rw [isAbove_iff (h limit hlimit) hx, not_lt]

theorem filter_isBelow_eq_none {high : Option Limit} (h : ∀ limit ∈ high, limit.Exact)
    (hx : x.isFinite = true) :
    high.filter (·.isBelow x) = none ↔ ∀ limit ∈ high, x.toRat ≤ limit.toRat := by
  rw [Option.filter_eq_none_iff]
  refine forall₂_congr fun limit hlimit => ?_
  rw [isBelow_iff (h limit hlimit) hx, not_lt]

theorem Exact.names (h : limit.Exact) : Binary64.Names limit.text limit.toRat := by
  cases limit with
  | integer n =>
      obtain ⟨x, hfinite, hcanonical, hx⟩ := h
      exact Binary64.names_signedDecimal hfinite hcanonical hx
  | real x => exact Binary64.names_toNumeral h.1 h.2

/-- Every natural number up to the precision of a double is one. -/
theorem exact_of_lt {n : Nat} (h : n < 2 ^ 53) : (integer n).Exact := by
  by_cases hn : n = 0
  · refine ⟨.zero false, rfl, Binary64.canonical_zero false, ?_⟩
    rw [hn, Binary64.zero, Binary64.toRat_finite]
    simp
  · have hlog : n.log2 < 53 := (Nat.log2_lt hn).mpr h
    have hlow : 2 ^ n.log2 ≤ n := Nat.log2_self_le hn
    have hhigh : n < 2 ^ (n.log2 + 1) := Nat.lt_log2_self
    refine ⟨.finite false (n * 2 ^ (52 - n.log2)) (n.log2 - 52), rfl, ⟨?_, ?_, ?_, Or.inr ?_⟩, ?_⟩
    · calc n * 2 ^ (52 - n.log2) < 2 ^ (n.log2 + 1) * 2 ^ (52 - n.log2) :=
            Nat.mul_lt_mul_of_pos_right hhigh (Nat.two_pow_pos _)
        _ = 2 ^ 53 := by
            rw [← Nat.pow_add]
            congr 1
            omega
    · rw [Binary64.minExponent]
      omega
    · rw [Binary64.maxExponent]
      omega
    · calc 2 ^ 52 = 2 ^ n.log2 * 2 ^ (52 - n.log2) := by
            rw [← Nat.pow_add]
            congr 1
            omega
        _ ≤ n * 2 ^ (52 - n.log2) := Nat.mul_le_mul_right _ hlow
    · have hshift : (2 : ℚ) ^ (52 - n.log2) * 2 ^ ((n.log2 : Int) - 52) = 1 := by
        rw [← zpow_natCast, ← Binary64.two_zpow_add, Nat.cast_sub (Nat.le_of_lt_succ hlog)]
        simp
      rw [Binary64.toRat_finite, if_neg Bool.false_ne_true, Nat.cast_mul, Nat.cast_pow,
        Nat.cast_ofNat, mul_assoc, hshift, mul_one, Int.cast_natCast]

theorem Exact.isInRange (h : limit.Exact) : limit.isInRange = true := by
  cases limit with
  | real x => rfl
  | integer n =>
      obtain ⟨x, hfinite, hcanonical, hx⟩ := h
      cases x with
      | infinite negative => cases hfinite
      | notANumber => cases hfinite
      | finite negative m e =>
          have habs := Binary64.natAbs_eq_of_toRat hx
          rw [isInRange, Binary64.ofInt?]
          rcases Nat.eq_zero_or_pos m with rfl | hm
          · rw [Nat.cast_zero, zero_mul, Nat.cast_eq_zero] at habs
            rw [habs]
            rfl
          · have hrounds : Binary64.Rounds (n.natAbs / (1 : Nat)) m e := by
              rw [Nat.cast_one, div_one, habs]
              exact .self m e
            have hcanonical : (Binary64.finite (decide (n < 0)) m e).Canonical := hcanonical
            rw [Binary64.ofRatio_eq Nat.one_pos hm hcanonical hrounds]
            rfl

end Limit

/-! ## Typed numbers -/

namespace Numeral

/-- What is typed is written as a number, its own spelling if that has no zero too many. -/
theorem names_text {t : String} {n : Numeral} (h : ofText? t = some n) :
    Binary64.Names n.text n.value.toRat := by
  obtain ⟨spelling, hfront, hspelling, hx, hfinite⟩ := spelling_of_ofText? h
  rw [text, hspelling]
  dsimp only
  by_cases hzero : Number.hasLeadingZero spelling = true
  · rw [if_pos hzero]
    exact Binary64.names_toNumeral hfinite (Number.canonical_double? hx)
  · rw [if_neg hzero]
    rw [Bool.not_eq_true] at hzero
    exact Binary64.ReadsAs.names ⟨Number.isSpelling_of_front? hfront, hzero, hx⟩ hfinite

/-- A field without limits is written as a number, if its default is one. -/
theorem names_ofField (field? : Option String) :
    ∃ q, Binary64.Names (ofField field? "0" .none) q := by
  rw [ofField]
  cases hnumber : field?.bind ofText? with
  | none => exact ⟨0, Binary64.names_zero⟩
  | some n =>
      obtain ⟨t, -, ht⟩ := Option.bind_eq_some_iff.mp hnumber
      exact ⟨n.value.toRat, names_text ht⟩

/-- A text that stands for a number is typed and written the same. -/
theorem ofText?_of_names {r : String} {q : ℚ} (h : Binary64.Names r q) :
    ∃ n, ofText? r = some n ∧ n.value.isFinite = true ∧ n.value.toRat = q ∧ n.text = r := by
  obtain ⟨x, hx, hfinite, hq⟩ := h.double?
  refine ⟨⟨x, some r.toList⟩, ?_, hfinite, hq, ?_⟩
  · rw [ofText?, h.spelling.front?, Option.bind_some, String.ofList_toList, hx]
    exact if_pos hfinite
  · simp [text, h.leading]

end Numeral

namespace Scalar

theorem limitText_of_exact {limit : Limit} (h : limit.Exact) :
    limitText limit = .ok limit.text := by
  rw [limitText, if_pos h.isInRange]

/-! ## Numbers inside limits -/

/-- Whether a rational number lies inside limits, where there are any. -/
def Within (least greatest : Option Limit) (q : ℚ) : Prop :=
  (∀ limit ∈ least, limit.toRat ≤ q) ∧ ∀ limit ∈ greatest, q ≤ limit.toRat

/-- The ends of a range of numbers: what stands for them, and that they are doubles in order. -/
structure Range (least greatest : Scalar) (low high : Option Limit) : Prop where
  least_eq : least.limit? = .ok low
  greatest_eq : greatest.limit? = .ok high
  low_exact : ∀ limit ∈ low, limit.Exact
  high_exact : ∀ limit ∈ high, limit.Exact
  ordered : ∀ l ∈ low, ∀ h ∈ high, l.toRat ≤ h.toRat

variable {least greatest : Scalar} {low high : Option Limit} {default : String}

theorem sanitizeNumber_text {t : String} {n : Numeral} (h : Numeral.ofText? t = some n)
    (hrange : Range least greatest low high) :
    (text t).sanitizeNumber default least greatest =
      match low.filter (·.isAbove n.value) with
      | some limit => limitText limit
      | none =>
          match high.filter (·.isBelow n.value) with
          | some limit => limitText limit
          | none => .ok n.text := by
  rw [sanitizeNumber, numeral?, h, hrange.least_eq, hrange.greatest_eq]
  rfl

/-- A number inside the limits is written as it is typed. -/
theorem sanitizeNumber_of_within {t : String} {n : Numeral} (h : Numeral.ofText? t = some n)
    (hrange : Range least greatest low high) (hfinite : n.value.isFinite = true)
    (hwithin : Within low high n.value.toRat) :
    (text t).sanitizeNumber default least greatest = .ok n.text := by
  have hlow := (Limit.filter_isAbove_eq_none hrange.low_exact hfinite).mpr hwithin.1
  have hhigh := (Limit.filter_isBelow_eq_none hrange.high_exact hfinite).mpr hwithin.2
  rw [sanitizeNumber_text h hrange, hlow, hhigh]

/-- What is written for a typed number is a number inside the limits. -/
theorem exists_names_of_ofText? {t : String} {n : Numeral} (h : Numeral.ofText? t = some n)
    (hrange : Range least greatest low high) :
    ∃ r q, (text t).sanitizeNumber default least greatest = .ok r ∧ Binary64.Names r q ∧
      Within low high q := by
  obtain ⟨spelling, -, -, -, hfinite⟩ := Numeral.spelling_of_ofText? h
  cases hlow : low.filter (·.isAbove n.value) with
  | some limit =>
      obtain ⟨hmem, habove⟩ := Option.filter_eq_some_iff.mp hlow
      have hexact := hrange.low_exact limit hmem
      refine ⟨limit.text, limit.toRat, ?_, hexact.names, ?_, hrange.ordered limit hmem⟩
      · rw [sanitizeNumber_text h hrange, hlow]
        exact limitText_of_exact hexact
      · intro l hl
        rw [Option.mem_unique hl hmem]
  | none =>
      cases hhigh : high.filter (·.isBelow n.value) with
      | some limit =>
          obtain ⟨hmem, hbelow⟩ := Option.filter_eq_some_iff.mp hhigh
          have hexact := hrange.high_exact limit hmem
          refine ⟨limit.text, limit.toRat, ?_, hexact.names,
            fun l hl => hrange.ordered l hl limit hmem, ?_⟩
          · rw [sanitizeNumber_text h hrange, hlow, hhigh]
            exact limitText_of_exact hexact
          · intro l hl
            rw [Option.mem_unique hl hmem]
      | none =>
          have hwithin : Within low high n.value.toRat :=
            ⟨(Limit.filter_isAbove_eq_none hrange.low_exact hfinite).mp hlow,
              (Limit.filter_isBelow_eq_none hrange.high_exact hfinite).mp hhigh⟩
          exact ⟨n.text, n.value.toRat, sanitizeNumber_of_within h hrange hfinite hwithin,
            Numeral.names_text h, hwithin⟩

theorem sanitizeNumber_of_names {r : String} {q : ℚ} (h : Binary64.Names r q)
    (hrange : Range least greatest low high) (hwithin : Within low high q) :
    (text r).sanitizeNumber default least greatest = .ok r := by
  obtain ⟨x, hx, hfinite, rfl, htext⟩ := Numeral.ofText?_of_names h
  rw [sanitizeNumber_of_within hx hrange hfinite hwithin, htext]

/-! ## The ranges of fields -/

/-- A field that is a text, a flag or empty; numbers are typed as texts. -/
def IsTyped : Scalar → Prop
  | text _ | flag _ | null => True
  | integer _ | real _ => False

/-- The limits that fields have: none, counts and times from zero on, pins and levels of output. -/
def fieldRanges : List (Scalar × Scalar) :=
  [(null, null), (integer 0, null), (integer 0, integer 53), (integer 0, integer 255)]

/-- A typed field that holds no finite number is written as the default. -/
theorem sanitizeNumber_eq_default {s : Scalar} (h : s.numeral? = .ok none) :
    s.sanitizeNumber default least greatest = .ok default := by
  rw [sanitizeNumber, h]
  rfl

theorem exists_range (h : (least, greatest) ∈ fieldRanges) :
    ∃ low high, Range least greatest low high := by
  have hzero : (Limit.integer 0).Exact := Limit.exact_of_lt (n := 0) (by decide)
  have hpin : (Limit.integer 53).Exact := Limit.exact_of_lt (n := 53) (by decide)
  have hlevel : (Limit.integer 255).Exact := Limit.exact_of_lt (n := 255) (by decide)
  have hnone : ∀ limit ∈ (none : Option Limit), limit.Exact := fun _ h => by cases h
  have hsome : ∀ {limit : Limit}, limit.Exact → ∀ l ∈ some limit, l.Exact := by
    intro limit hlimit l hl
    rwa [← Option.mem_some_iff.mp hl]
  simp only [fieldRanges, List.mem_cons, Prod.mk.injEq, List.not_mem_nil, or_false] at h
  rcases h with ⟨rfl, rfl⟩ | ⟨rfl, rfl⟩ | ⟨rfl, rfl⟩ | ⟨rfl, rfl⟩
  · exact ⟨none, none, rfl, rfl, hnone, hnone, by simp⟩
  · exact ⟨some (.integer 0), none, rfl, rfl, hsome hzero, hnone, by simp⟩
  · exact ⟨some (.integer 0), some (.integer 53), rfl, rfl, hsome hzero, hsome hpin,
      by simp [Limit.toRat]⟩
  · exact ⟨some (.integer 0), some (.integer 255), rfl, rfl, hsome hzero, hsome hlevel,
      by simp [Limit.toRat]⟩

/-- What is written for a typed field is the default, or a text that is all of its own spelling and
is read as a finite double inside the limits; and it is written the same the next time. -/
theorem sanitizeNumber_settles {s : Scalar} (hs : s.IsTyped)
    (hrange : (least, greatest) ∈ fieldRanges)
    (hdefault : (text default).sanitizeNumber default least greatest = .ok default) :
    ∃ r, s.sanitizeNumber default least greatest = .ok r ∧
      (r = default ∨
        Number.front? r.toList = some r.toList ∧
          ∃ x, Number.double? r = some x ∧ x.isFinite = true ∧
            (∀ n, least = integer n → (n : ℚ) ≤ x.toRat) ∧
            ∀ n, greatest = integer n → x.toRat ≤ (n : ℚ)) ∧
      (text r).sanitizeNumber default least greatest = .ok r := by
  obtain ⟨low, high, hrange⟩ := exists_range hrange
  by_cases hnone : s.numeral? = .ok none
  · exact ⟨default, sanitizeNumber_eq_default hnone, Or.inl rfl, hdefault⟩
  cases s with
  | integer n => exact hs.elim
  | real x => exact hs.elim
  | flag b => exact absurd rfl hnone
  | null => exact absurd rfl hnone
  | text t =>
      cases hnumber : Numeral.ofText? t with
      | none => exact absurd (congrArg Except.ok hnumber) hnone
      | some n =>
          obtain ⟨r, q, hr, hnames, hwithin⟩ := exists_names_of_ofText? hnumber hrange
          refine ⟨r, hr, Or.inr ⟨hnames.spelling.front?, ?_⟩,
            sanitizeNumber_of_names hnames hrange hwithin⟩
          obtain ⟨x, hx, hfinite, rfl⟩ := hnames.double?
          refine ⟨x, hx, hfinite, ?_, ?_⟩
          · rintro n rfl
            exact hwithin.1 _ (Except.ok.inj hrange.least_eq).symm
          · rintro n rfl
            exact hwithin.2 _ (Except.ok.inj hrange.greatest_eq).symm

/-- A time with zeros in front and a unit behind it, for a pin. -/
theorem sanitizeNumber_settles_zeros :
    (text "13").sanitizeNumber "13" (integer 0) (integer 53) = .ok "13" ∧
      (text "007.50ms").sanitizeNumber "13" (integer 0) (integer 53) = .ok "7.5" ∧
      (text "7.5").sanitizeNumber "13" (integer 0) (integer 53) = .ok "7.5" := by
  have hdefault : (text "13").sanitizeNumber "13" (integer 0) (integer 53) = .ok "13" := by
    decide +kernel
  have hwritten : (text "007.50ms").sanitizeNumber "13" (integer 0) (integer 53) = .ok "7.5" := by
    decide +kernel
  obtain ⟨r, hr, -, hagain⟩ :=
    sanitizeNumber_settles (s := text "007.50ms") trivial (by simp [fieldRanges]) hdefault
  rw [hwritten] at hr
  cases hr
  exact ⟨hdefault, hwritten, hagain⟩

end Scalar

end InoBlocks
