import InoBlocks.Proofs.Check.Fragment
import InoBlocks.Proofs.Number.Magnitude

/-!
# Numerals as values

Whatever is typed into a field for a number, its numeral is the text of a value: it has digits,
signs, a point and an exponent and nothing else, and an integer among them is never too long to be
read.
-/

namespace InoBlocks

namespace Check

open Text

/-! ## Digits -/

theorem isSimple_of_isDecimal {c : Char} (h : isDecimal c = true) : isSimple c = true := by
  have hmarks : ∀ d ∈ ['(', ')', '{', '}', ',', '/', '"', '\'', '\n'], isDecimal d = false := by
    decide
  have hc : c ∉ ['(', ')', '{', '}', ',', '/', '"', '\'', '\n'] := by
    intro hmem
    rw [hmarks c hmem] at h
    cases h
  simp only [List.mem_cons, List.not_mem_nil, or_false, not_or] at hc
  simp [isSimple, isPlain, isCode, hc]

def isNumeralChar (c : Char) : Bool :=
  isDecimal c || ['-', '+', '.', 'e', 'E'].contains c

theorem isSimple_of_isNumeralChar {c : Char} (h : isNumeralChar c = true) : isSimple c = true := by
  rw [isNumeralChar, Bool.or_eq_true, List.contains_iff_mem] at h
  rcases h with h | h
  · exact isSimple_of_isDecimal h
  · have hmarks : ∀ d ∈ ['-', '+', '.', 'e', 'E'], isSimple d = true := by decide
    exact hmarks c h

theorem not_isBlank_of_isNumeralChar {c : Char} (h : isNumeralChar c = true) :
    isBlank c = false := by
  rw [isNumeralChar, Bool.or_eq_true, List.contains_iff_mem] at h
  rcases h with h | h
  · exact not_isBlank_of_isDecimal h
  · have hmarks : ∀ d ∈ ['-', '+', '.', 'e', 'E'], isBlank d = false := by decide
    exact hmarks c h

theorem isNumeralChar_of_isDigit {c : Char} (h : c.isDigit = true) : isNumeralChar c = true := by
  rw [isNumeralChar, isDecimal_of_isDigit h, Bool.true_or]

/-- A numeral that is short, if it is an integer, is the text of a value. -/
theorem ValueText.numeral {cs : List Char} (h : ∀ c ∈ cs, isNumeralChar c = true)
    (hshort : cs.all Char.isDigit = true → cs.length ≤ Number.maxIntegerDigits) :
    ValueText (String.ofList cs) := by
  refine .simple (fun c hc => ?_) ?_
  · rw [String.toList_ofList] at hc
    exact isSimple_of_isNumeralChar (h c hc)
  · rw [String.toList_ofList, trim_eq_self fun c hc => not_isBlank_of_isNumeralChar (h c hc)]
    exact hshort

/-! ## Typed numerals -/

/-- The spelling of a number is made of the characters of numerals. -/
theorem isNumeralChar_of_front? {cs spelling : List Char} (h : Number.front? cs = some spelling) :
    ∀ c ∈ spelling, isNumeralChar c = true := by
  intro c hc
  rw [isNumeralChar, Bool.or_eq_true, List.contains_iff_mem]
  exact (Number.isSpelling_of_front? h).isDecimal_or_mem_marks hc

/-- A finite integer without a zero in front is short. -/
theorem length_le_of_finite {cs : List Char} (hdigits : ∀ c ∈ cs, c.isDigit = true)
    (hzero : Number.hasLeadingZero cs = false) {x : Binary64}
    (hx : Number.double? (String.ofList cs) = some x) (hfinite : x.isFinite = true) :
    cs.length ≤ Number.maxIntegerDigits := by
  cases cs with
  | nil => exact Nat.zero_le _
  | cons c cs =>
      have hc := hdigits c List.mem_cons_self
      have hdecimal : x = Binary64.ofDecimal false (Number.value (c :: cs)) 0 := by
        have hread := Number.double?_of_isDigit .none (List.cons_ne_nil c cs) hdigits
        rw [List.nil_append, hx] at hread
        exact Option.some.inj hread
      by_cases hfirst : c = '0'
      · subst hfirst
        cases cs with
        | nil => decide
        | cons d cs =>
            have hd := isDecimal_of_isDigit (hdigits d (by simp))
            have hlead : Number.hasLeadingZero ('0' :: d :: cs) = isDecimal d := rfl
            rw [hlead, hd] at hzero
            cases hzero
      · have hvalue : c.toNat - '0'.toNat ≠ 0 := by
          have hrange := isDigit_iff.mp hc
          have hne : c.toNat ≠ '0'.toNat := fun heq => hfirst (Char.toNat_inj.mp heq)
          have hzero : '0'.toNat = 48 := rfl
          omega
        rw [hdecimal] at hfinite
        have hlength := Number.length_le_of_isFinite hvalue hfinite
        rw [List.length_map] at hlength
        rw [List.length_cons]
        exact Nat.le_trans (Nat.succ_le_succ hlength) (by decide)

/-! ## Numerals of doubles -/

/-- An integer of not too many digits is the text of a value. -/
theorem ValueText.integer {n : Int} (h : n.natAbs ≤ Binary64.twoPow 1025) :
    ValueText (Number.signedDecimal n) := by
  have hlength := Number.length_digits_le h
  have hdigits : ∀ c ∈ Number.digits n.natAbs, isNumeralChar c = true :=
    fun c hc => isNumeralChar_of_isDigit (Number.isDigit_of_mem_digits hc)
  cases n with
  | ofNat n =>
      exact .numeral hdigits fun _ => Nat.le_trans hlength (by decide)
  | negSucc n =>
      have htext : Number.signedDecimal (.negSucc n) =
          String.ofList ('-' :: Number.digits (n + 1)) := by
        rw [Number.signedDecimal, Number.decimal, ← String.toList_inj]
        simp
      rw [htext]
      exact .numeral (List.forall_mem_cons.mpr ⟨by decide, hdigits⟩) fun hall =>
        absurd (List.all_eq_true.mp hall '-' List.mem_cons_self) (by decide)

/-- The layout of a finite double has a point or an exponent. -/
theorem layoutPositive_chars (layout : Binary64.Layout) (m : Nat) (e : Int) :
    (∀ c ∈ Binary64.layoutPositive layout m e, isNumeralChar c = true) ∧
      ∃ c ∈ Binary64.layoutPositive layout m e, c.isDigit = false := by
  have hzeros : ∀ k, ∀ c ∈ List.replicate k '0', isNumeralChar c = true := by
    intro k c hc
    obtain rfl := (List.mem_replicate.mp hc).2
    decide
  have hdigits : ∀ n, ∀ c ∈ Number.digits n, isNumeralChar c = true :=
    fun n c hc => isNumeralChar_of_isDigit (Number.isDigit_of_mem_digits hc)
  have happend : ∀ {cs ds : List Char}, (∀ c ∈ cs, isNumeralChar c = true) →
      (∀ c ∈ ds, isNumeralChar c = true) → ∀ c ∈ cs ++ ds, isNumeralChar c = true :=
    fun hcs hds c hc => (List.mem_append.mp hc).elim (hcs c) (hds c)
  have hcons : ∀ {d : Char} {cs : List Char}, isNumeralChar d = true →
      (∀ c ∈ cs, isNumeralChar c = true) → ∀ c ∈ d :: cs, isNumeralChar c = true :=
    fun hd hcs => List.forall_mem_cons.mpr ⟨hd, hcs⟩
  have hpositional : ∀ (ds : List Char) (p : Int), (∀ c ∈ ds, isNumeralChar c = true) →
      (∀ c ∈ Binary64.positional ds p, isNumeralChar c = true) ∧ '.' ∈ Binary64.positional ds p := by
    intro ds p hds
    unfold Binary64.positional
    dsimp only
    split
    · exact ⟨hcons (by decide) (hcons (by decide) (happend (hzeros _) hds)), by simp⟩
    · split
      · exact ⟨happend (happend hds (hzeros _)) (by decide), by simp⟩
      · exact ⟨happend (fun c hc => hds c (List.mem_of_mem_take hc))
          (hcons (by decide) fun c hc => hds c (List.mem_of_mem_drop hc)), by simp⟩
  have hexponential : ∀ (ds : List Char) (p : Int), (∀ c ∈ ds, isNumeralChar c = true) →
      (∀ c ∈ Binary64.exponential layout ds p, isNumeralChar c = true) ∧
        'e' ∈ Binary64.exponential layout ds p := by
    intro ds p hds
    unfold Binary64.exponential
    dsimp only
    refine ⟨happend ?_ (hcons (by decide) (hcons ?_ (happend (hzeros _) (hdigits _)))), by simp⟩
    · split
      · obtain ⟨hd, hrest⟩ := List.forall_mem_cons.mp hds
        exact hcons hd (hcons (by decide) hrest)
      · exact hds
    · split <;> decide
  rw [Binary64.layoutPositive]
  split
  · obtain ⟨hall, hpoint⟩ := hpositional _ _ (hdigits _)
    exact ⟨hall, '.', hpoint, by decide⟩
  · obtain ⟨hall, hletter⟩ := hexponential _ _ (hdigits _)
    exact ⟨hall, 'e', hletter, by decide⟩

/-- The numeral of a finite double is the text of a value. -/
theorem ValueText.toNumeral {x : Binary64} (hfinite : x.isFinite = true) (h : x.Bounded) :
    ValueText x.toNumeral := by
  rw [Binary64.toNumeral]
  split
  · exact .integer h.natAbs_truncate
  · cases x with
    | infinite negative => cases hfinite
    | notANumber => cases hfinite
    | finite negative m e =>
        have hbody : ∀ body, body = (if m = 0 then ['0', '.', '0']
            else Binary64.layoutPositive Binary64.standardLayout m e) →
            (∀ c ∈ body, isNumeralChar c = true) ∧ ∃ c ∈ body, c.isDigit = false := by
          rintro body rfl
          split
          · exact ⟨by decide, '.', by simp, by decide⟩
          · exact layoutPositive_chars _ m e
        obtain ⟨hall, c, hc, hdigit⟩ := hbody _ rfl
        have hno : ∀ {cs : List Char}, c ∈ cs → cs.all Char.isDigit = true →
            cs.length ≤ Number.maxIntegerDigits := by
          intro cs hmem hdigits
          rw [List.all_eq_true.mp hdigits c hmem] at hdigit
          cases hdigit
        rw [Binary64.toText, Binary64.layOut]
        split
        · exact .numeral (List.forall_mem_cons.mpr ⟨by decide, hall⟩)
            (hno (List.mem_cons_of_mem _ hc))
        · exact .numeral hall (hno hc)

/-! ## Numerals in fields -/

def LimitTexts (limits : Limits) : Prop :=
  ∀ limit, limits.least = some limit ∨ limits.greatest = some limit → ValueText limit.text

theorem eq_of_crossed? {limits : Limits} {x : Binary64} {limit : Limit}
    (h : limits.crossed? x = some limit) :
    limits.least = some limit ∨ limits.greatest = some limit := by
  rw [Limits.crossed?] at h
  cases hleast : limits.least.filter (·.isAbove x) with
  | some l =>
      rw [hleast] at h
      cases h
      exact Or.inl (Option.eq_some_of_filter_eq_some hleast)
  | none =>
      rw [hleast] at h
      exact Or.inr (Option.eq_some_of_filter_eq_some h)

/-- The numeral of a field is the text of a value, whatever is typed there. -/
theorem ValueText.ofField {default : String} {limits : Limits} (hdefault : ValueText default)
    (hlimits : LimitTexts limits) (field? : Option String) :
    ValueText (Numeral.ofField field? default limits) := by
  rw [Numeral.ofField]
  cases hfound : field?.bind Numeral.ofText? with
  | none => exact hdefault
  | some n =>
      obtain ⟨s, -, hs⟩ := Option.bind_eq_some_iff.mp hfound
      obtain ⟨spelling, hfront, hspelling, hx, hfinite⟩ := Numeral.spelling_of_ofText? hs
      dsimp only
      rw [Numeral.textWithin]
      split
      · rename_i limit hcrossed
        exact hlimits limit (eq_of_crossed? hcrossed)
      · rw [Numeral.text, hspelling]
        dsimp only
        cases hzero : Number.hasLeadingZero spelling with
        | true => exact .toNumeral hfinite (Number.bounded_double? hx)
        | false =>
            exact .numeral (isNumeralChar_of_front? hfront) fun hall =>
              length_le_of_finite (List.all_eq_true.mp hall) hzero hx hfinite

theorem limitTexts_none : LimitTexts .none := by
  rintro limit (h | h) <;> cases h

theorem limitTexts_natural : LimitTexts .natural := by
  rintro limit (h | h) <;> cases h
  exact ValueText.integer (n := 0) (Nat.zero_le _)

theorem limitTexts_upTo {n : Nat} (hn : n ≤ 1025) : LimitTexts (.upTo n) := by
  have hbound : n ≤ Binary64.twoPow 1025 :=
    Nat.le_trans (Nat.le_of_lt Nat.lt_two_pow_self) (Binary64.twoPow_le_twoPow hn)
  rintro limit (h | h) <;> cases h
  · exact ValueText.integer (n := 0) (Nat.zero_le _)
  · exact ValueText.integer (n := Int.ofNat n) hbound

end Check

end InoBlocks
