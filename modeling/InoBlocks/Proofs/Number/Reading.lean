import InoBlocks.Proofs.Number.Grammar

/-!
# Typed numbers are read

A text that has the form of a number is read as one, digit by digit: its digits without the point
are the number, and the digits behind the point lower the exponent by one each.
-/

namespace InoBlocks

namespace Number

open Text

/-! ## Digits -/

/-- Digits are read up to what is neither a digit nor an underscore. -/
theorem readDigits_append {ds rest : List Char} (h : AllDecimal ds)
    (hrest : ∀ c ∈ rest.head?, isDecimal c = false ∧ c ≠ '_') (inside : Bool) :
    readDigits inside (ds ++ rest) = (ds.filterMap digitValue?, rest) := by
  induction ds generalizing inside with
  | nil =>
      cases rest with
      | nil => rfl
      | cons c rest =>
          obtain ⟨hc, hunderscore⟩ := hrest c rfl
          have hnone : digitValue? c = none := by
            rwa [isDecimal, Option.isSome_eq_false_iff, Option.isNone_iff_eq_none] at hc
          simp [readDigits, hnone, hunderscore]
  | cons c ds ih =>
      obtain ⟨hc, hds⟩ := List.forall_mem_cons.mp h
      obtain ⟨d, hd⟩ := Option.isSome_iff_exists.mp hc
      simp [readDigits, hd, ih hds true]

theorem readDigits_of_allDecimal {ds : List Char} (h : AllDecimal ds) (inside : Bool) :
    readDigits inside ds = (ds.filterMap digitValue?, []) := by
  have hnil : ∀ c ∈ ([] : List Char).head?, isDecimal c = false ∧ c ≠ '_' := by simp
  simpa using readDigits_append h hnil inside

theorem allDecimal_of_isDigit {ds : List Char} (h : ∀ c ∈ ds, c.isDigit = true) : AllDecimal ds :=
  fun c hc => isDecimal_of_isDigit (h c hc)

theorem filterMap_digitValue? {ds : List Char} (h : ∀ c ∈ ds, c.isDigit = true) :
    ds.filterMap digitValue? = digitValues ds := by
  induction ds with
  | nil => rfl
  | cons c ds ih =>
      obtain ⟨hc, hds⟩ := List.forall_mem_cons.mp h
      have hvalue : digitValue? c = some (c.toNat - '0'.toNat) := by
        rw [digitValue?, if_pos hc]
      rw [List.filterMap_cons_some hvalue, ih hds]
      rfl

theorem filterMap_digitValue?_ne_nil {ds : List Char} (hne : ds ≠ []) (h : AllDecimal ds) :
    ds.filterMap digitValue? ≠ [] := by
  obtain ⟨c, ds, rfl⟩ := List.exists_cons_of_ne_nil hne
  obtain ⟨d, hd⟩ := Option.isSome_iff_exists.mp (h c List.mem_cons_self)
  simp [List.filterMap_cons_some hd]

/-! ## The parts of a number -/

def Ends (rest : List Char) : Prop :=
  ∀ c ∈ rest.head?, isDecimal c = false ∧ c ≠ '.' ∧ c ≠ '_'

theorem IsExponent.ends {cs : List Char} (h : IsExponent cs) : Ends cs := by
  cases h with
  | none => simp [Ends]
  | letter hc hsign hne hds =>
      intro d hd
      obtain rfl := Option.mem_some_iff.mp hd
      rcases hc with rfl | rfl <;> decide

theorem readSign_append {sign cs : List Char} (h : IsSign sign)
    (hcs : ∀ c ∈ cs.head?, c ≠ '-' ∧ c ≠ '+') : readSign (sign ++ cs) = (sign == ['-'], cs) := by
  cases h with
  | minus => rfl
  | plus => rfl
  | none =>
      rw [List.nil_append]
      unfold readSign
      split
      · exact absurd rfl (hcs '-' rfl).1
      · exact absurd rfl (hcs '+' rfl).2
      · rfl

theorem readMantissa_whole {ds rest : List Char} (hds : AllDecimal ds) (hrest : Ends rest) :
    readMantissa (ds ++ rest) = (ds.filterMap digitValue?, 0, rest) := by
  rw [readMantissa, readDigits_append hds fun c hc => ⟨(hrest c hc).1, (hrest c hc).2.2⟩]
  dsimp only
  split
  · exact absurd rfl (hrest '.' rfl).2.1
  · rfl

theorem readMantissa_pointed {ds es rest : List Char} (hds : AllDecimal ds) (hes : AllDecimal es)
    (hrest : Ends rest) : readMantissa (ds ++ '.' :: (es ++ rest)) =
      (ds.filterMap digitValue? ++ es.filterMap digitValue?,
        (es.filterMap digitValue?).length, rest) := by
  have hpoint : ∀ c ∈ ('.' :: (es ++ rest)).head?, isDecimal c = false ∧ c ≠ '_' := by
    simp [not_isDecimal_of_mem_marks]
  have hfraction := readDigits_append hes (fun c hc => ⟨(hrest c hc).1, (hrest c hc).2.2⟩) false
  rw [readMantissa, readDigits_append hds hpoint]
  simp only [hfraction]

theorem readExponent_letter {c : Char} {sign ds : List Char} (hc : c = 'e' ∨ c = 'E')
    (hsign : IsSign sign) (hne : ds ≠ []) (hds : AllDecimal ds) :
    readExponent (c :: (sign ++ ds)) = some (if sign = ['-'] then
      -(ofDigits (ds.filterMap digitValue?) : Int) else ofDigits (ds.filterMap digitValue?), []) := by
  obtain ⟨d, ds, rfl⟩ := List.exists_cons_of_ne_nil hne
  have hfirst := ne_sign_of_isDecimal (hds d List.mem_cons_self)
  have hletter : (c == 'e' || c == 'E') = true := by
    simpa using hc
  rw [readExponent, if_pos hletter, readSign_append hsign (by simpa using hfirst)]
  simp only [readDigits_of_allDecimal hds]
  split
  · rename_i hnil
    exact absurd (congrArg Prod.fst hnil) (filterMap_digitValue?_ne_nil hne hds)
  · rename_i hread
    cases hread
    simp only [beq_iff_eq]

theorem double?_parts {sign mantissa exponent : List Char} {values : List Nat} {places : Nat}
    {n : Int} (hsign : IsSign sign) (hmantissa : IsMantissa mantissa)
    (hexponent : IsExponent exponent)
    (hvalues : readMantissa (mantissa ++ exponent) = (values, places, exponent))
    (hne : values ≠ []) (hn : readExponent exponent = some (n, [])) :
    double? (String.ofList (sign ++ (mantissa ++ exponent))) =
      some (Binary64.ofDecimal (sign == ['-']) (ofDigits values) (n - (places : Int))) := by
  have hspelling := IsSpelling.parts hsign hmantissa hexponent
  have hfirst := hmantissa.ne_sign exponent
  obtain ⟨v, values, rfl⟩ := List.exists_cons_of_ne_nil hne
  rw [double?, String.toList_ofList, trim_eq_self fun c hc => hspelling.not_isBlank hc,
    readSign_append hsign hfirst]
  simp only [hvalues, hn]

/-! ## Whole numbers -/

theorem IsMantissa.exists_readMantissa {mantissa rest : List Char} (h : IsMantissa mantissa)
    (hrest : Ends rest) :
    ∃ values places, readMantissa (mantissa ++ rest) = (values, places, rest) ∧ values ≠ [] := by
  cases h with
  | whole hne hds =>
      exact ⟨_, _, readMantissa_whole hds hrest, filterMap_digitValue?_ne_nil hne hds⟩
  | pointed hds hes hne =>
      refine ⟨_, _, by simpa using readMantissa_pointed hds hes hrest, ?_⟩
      rw [Ne, List.append_eq_nil_iff, Classical.not_and_iff_not_or_not]
      exact hne.imp (filterMap_digitValue?_ne_nil · hds) (filterMap_digitValue?_ne_nil · hes)

theorem IsExponent.exists_readExponent {exponent : List Char} (h : IsExponent exponent) :
    ∃ n, readExponent exponent = some (n, []) := by
  cases h with
  | none => exact ⟨0, rfl⟩
  | letter hc hsign hne hds => exact ⟨_, readExponent_letter hc hsign hne hds⟩

theorem IsSpelling.exists_double? {cs : List Char} (h : IsSpelling cs) :
    ∃ x, double? (String.ofList cs) = some x := by
  obtain ⟨hsign, hmantissa, hexponent⟩ := h
  obtain ⟨values, places, hvalues, hne⟩ := hmantissa.exists_readMantissa hexponent.ends
  obtain ⟨n, hn⟩ := hexponent.exists_readExponent
  exact ⟨_, double?_parts hsign hmantissa hexponent hvalues hne hn⟩

/-! ## Numbers in ASCII -/

/-- A number without a point is read as the integer that its digits spell. -/
theorem double?_whole {sign ds exponent : List Char} {n : Int} (hsign : IsSign sign) (hne : ds ≠ [])
    (hds : ∀ c ∈ ds, c.isDigit = true) (hexponent : IsExponent exponent)
    (hn : readExponent exponent = some (n, [])) :
    double? (String.ofList (sign ++ (ds ++ exponent))) =
      some (Binary64.ofDecimal (sign == ['-']) (value ds) n) := by
  have hall := allDecimal_of_isDigit hds
  have hread := double?_parts hsign (.whole hne hall) hexponent
    (readMantissa_whole hall hexponent.ends) (filterMap_digitValue?_ne_nil hne hall) hn
  rwa [filterMap_digitValue? hds, Int.natCast_zero, Int.sub_zero] at hread

/-- A number with a point is read as the integer that its digits spell, so many places lower. -/
theorem double?_pointed {sign ds es exponent : List Char} {n : Int} (hsign : IsSign sign)
    (hne : ds ≠ []) (hds : ∀ c ∈ ds, c.isDigit = true) (hes : ∀ c ∈ es, c.isDigit = true)
    (hexponent : IsExponent exponent) (hn : readExponent exponent = some (n, [])) :
    double? (String.ofList (sign ++ ((ds ++ '.' :: es) ++ exponent))) =
      some (Binary64.ofDecimal (sign == ['-']) (value (ds ++ es)) (n - (es.length : Int))) := by
  have hall := allDecimal_of_isDigit hds
  have hrest := allDecimal_of_isDigit hes
  have hvalues := readMantissa_pointed hall hrest hexponent.ends
  rw [← List.cons_append, ← List.append_assoc] at hvalues
  have hread := double?_parts hsign (.pointed hall hrest (Or.inl hne)) hexponent hvalues
    (List.append_ne_nil_of_left_ne_nil (filterMap_digitValue?_ne_nil hne hall) _) hn
  have hlength : (digitValues es).length = es.length := List.length_map _
  rw [filterMap_digitValue? hds, filterMap_digitValue? hes, hlength] at hread
  rwa [value, digitValues, List.map_append]

/-- ASCII digits are read as the integer that they spell. -/
theorem double?_of_isDigit {sign ds : List Char} (hsign : IsSign sign) (hne : ds ≠ [])
    (hds : ∀ c ∈ ds, c.isDigit = true) :
    double? (String.ofList (sign ++ ds)) =
      some (Binary64.ofDecimal (sign == ['-']) (value ds) 0) := by
  have hread := double?_whole hsign hne hds .none rfl
  rwa [List.append_nil] at hread

end Number

namespace Numeral

/-- A typed number has a spelling, which is read as its value. -/
theorem spelling_of_ofText? {s : String} {n : Numeral} (h : ofText? s = some n) :
    ∃ spelling, Number.front? s.toList = some spelling ∧ n.spelling = some spelling ∧
      Number.double? (String.ofList spelling) = some n.value ∧ n.value.isFinite = true := by
  obtain ⟨spelling, hspelling, hn⟩ := Option.bind_eq_some_iff.mp h
  dsimp only at hn
  split at hn
  · rename_i hfinite
    injection hn with hn
    subst hn
    refine ⟨spelling, hspelling, rfl, ?_, hfinite⟩
    cases hx : Number.double? (String.ofList spelling) with
    | some x => rfl
    | none =>
        rw [hx] at hfinite
        cases hfinite
  · cases hn

end Numeral

end InoBlocks
