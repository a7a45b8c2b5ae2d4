import InoBlocks.Proofs.Token.Places
import InoBlocks.Sketch.SafeName
import InoBlocks.Sketch.Source

/-!
# Names that are safe

A name that stays as it is when it is made safe is a name of the lexer, and no keyword.  A name
of the lexer stays as it is unless it is taken.  So the names that stay as they are can be told
without making them safe, `isSafe_iff_isFree`, and whatever text a name is made of, it becomes one
of them.
-/

namespace InoBlocks

theorem guardDigit_cases (cs : List Char) :
    guardDigit cs = cs ∨ guardDigit cs = '_' :: cs := by
  cases cs with
  | nil => exact Or.inl rfl
  | cons c cs =>
      rw [guardDigit]
      split
      · exact Or.inr rfl
      · exact Or.inl rfl

theorem guardReserved_cases (cs : List Char) :
    guardReserved cs = cs ∨ guardReserved cs = '_' :: cs := by
  rw [guardReserved]
  split
  · exact Or.inr rfl
  · exact Or.inl rfl

/-- What is put in front of a name is a character of names. -/
theorem isNameChar_of_guarded {cs : List Char} (h : ∀ c ∈ cs, Text.isNameChar c = true) :
    ∀ c ∈ guardReserved (guardDigit cs), Text.isNameChar c = true := by
  have hscore : Text.isNameChar '_' = true := by decide
  have hdigit : ∀ c ∈ guardDigit cs, Text.isNameChar c = true := by
    rcases guardDigit_cases cs with hcs | hcs <;> rw [hcs]
    · exact h
    · simpa [hscore] using h
  rcases guardReserved_cases (guardDigit cs) with hcs | hcs <;> rw [hcs]
  · exact hdigit
  · simpa [hscore] using hdigit

def IsSafe (name : String) : Prop :=
  safeName name unnamed = name

instance (name : String) : Decidable (IsSafe name) :=
  inferInstanceAs (Decidable (safeName name unnamed = name))

namespace IsSafe

variable {name : String}

/-- A safe name has only characters of names, no digit in front, and is not taken. -/
theorem exists_cons (h : IsSafe name) :
    ∃ c cs, name.toList = c :: cs ∧ c.isDigit = false ∧
      (∀ d ∈ c :: cs, Text.isNameChar d = true) ∧ isReserved (c :: cs) = false := by
  rw [IsSafe, safeName] at h
  split at h
  · rename_i hnone
    rw [← h] at hnone
    exact absurd hnone (by decide)
  · rename_i cs hne
    have hlist : guardReserved (guardDigit (name.toList.filter Text.isNameChar)) = name.toList := by
      rw [← String.toList_ofList (l := guardReserved _), h]
    have hself : name.toList.filter Text.isNameChar = name.toList := by
      refine List.filter_eq_self.mpr fun c hc => ?_
      rw [← hlist] at hc
      exact isNameChar_of_guarded (fun c hc => (List.mem_filter.mp hc).2) c hc
    rw [hself] at hlist hne
    cases hname : name.toList with
    | nil => exact absurd hname hne
    | cons c ds =>
        rw [hname] at hself hlist
        have hdigit : guardDigit (c :: ds) = c :: ds := by
          have hlength := congrArg List.length hlist
          rcases guardDigit_cases (c :: ds) with hcs | hcs
          · exact hcs
          · rcases guardReserved_cases (guardDigit (c :: ds)) with hcs' | hcs' <;>
              rw [hcs', hcs] at hlength <;> simp only [List.length_cons] at hlength <;> omega
        rw [hdigit] at hlist
        refine ⟨c, ds, rfl, ?_, fun d hd => List.filter_eq_self.mp hself d hd, ?_⟩
        · rw [guardDigit] at hdigit
          cases hc : c.isDigit with
          | false => rfl
          | true =>
              rw [if_pos hc] at hdigit
              exact absurd (congrArg List.length hdigit) (by simp)
        · rw [guardReserved] at hlist
          cases hc : isReserved (c :: ds) with
          | false => rfl
          | true =>
              rw [hc, if_pos rfl] at hlist
              exact absurd (congrArg List.length hlist) (by simp)

/-- A safe name stays as it is, whatever else would be put in the place of nothing. -/
theorem safeName_eq (h : IsSafe name) (default : String) : safeName name default = name := by
  obtain ⟨c, cs, hname, -, hchars, -⟩ := h.exists_cons
  have hself : name.toList.filter Text.isNameChar = c :: cs := by
    rw [hname]
    exact List.filter_eq_self.mpr hchars
  rw [IsSafe, safeName, hself] at h
  rw [safeName, hself, h]

/-- A safe name is not taken, in whatever case it is written. -/
theorem untaken (h : IsSafe name) : lowerCase name.toList ∉ reservedNames := by
  obtain ⟨c, cs, hname, -, -, hfree⟩ := h.exists_cons
  intro hmem
  rw [← hname, isReserved, List.contains_iff_mem.mpr hmem] at hfree
  cases hfree

theorem ofWord_eq (h : IsSafe name) : TokenKind.ofWord name = .identifier := by
  rcases TokenKind.ofWord_cases name with hword | ⟨entry, hentry, hspelled, -⟩
  · exact hword
  · refine absurd ?_ h.untaken
    rw [reservedNames, ← hspelled]
    exact List.mem_append_left _ (List.mem_map_of_mem hentry)

/-- A safe name begins with a letter or an underscore. -/
theorem exists_start (h : IsSafe name) :
    ∃ c cs, name.toList = c :: cs ∧ Text.isNameStart c = true ∧
      ∀ d ∈ cs, Text.isNameChar d = true := by
  obtain ⟨c, cs, hname, hdigit, hchars, -⟩ := h.exists_cons
  obtain ⟨hc, hcs⟩ := List.forall_mem_cons.mp hchars
  refine ⟨c, cs, hname, ?_, hcs⟩
  rcases Text.isNameChar_iff.mp hc with hstart | hnumber
  · exact hstart
  · rw [hdigit] at hnumber
    cases hnumber

theorem firm (h : IsSafe name) : Word.Firm ⟨.identifier, name⟩ := by
  obtain ⟨c, cs, hname, hstart, hchars⟩ := h.exists_start
  have hfirm := Word.firm_name c cs hstart (List.all_eq_true.mpr hchars)
  rwa [← hname, String.ofList_toList, h.ofWord_eq] at hfirm

end IsSafe

/-! ## Names that are made safe -/

/-- No taken name begins with the character that guards names. -/
theorem not_isReserved_guarded (cs : List Char) : isReserved ('_' :: cs) = false := by
  have hfronts : ∀ name ∈ reservedNames, name.head? ≠ some '_' := by decide +kernel
  rw [isReserved, ← Bool.not_eq_true, List.contains_iff_mem]
  intro hmem
  exact hfronts _ hmem rfl

theorem guardDigit_guarded (cs : List Char) :
    guardDigit (guardReserved (guardDigit cs)) = guardReserved (guardDigit cs) := by
  have hscore : ∀ cs, guardDigit ('_' :: cs) = '_' :: cs := by
    intro cs
    rw [guardDigit, if_neg (by decide)]
  rcases guardReserved_cases (guardDigit cs) with hcs | hcs <;> rw [hcs]
  · cases cs with
    | nil => rfl
    | cons c cs =>
        rw [guardDigit]
        split
        · exact hscore _
        · rename_i hc
          rw [guardDigit, if_neg hc]
  · exact hscore _

theorem guardReserved_guarded (cs : List Char) :
    guardReserved (guardReserved cs) = guardReserved cs := by
  cases hcs : isReserved cs with
  | false =>
      have hself : guardReserved cs = cs := by rw [guardReserved, hcs, if_neg Bool.false_ne_true]
      rw [hself, hself]
  | true =>
      have hguarded : guardReserved cs = '_' :: cs := by rw [guardReserved, hcs, if_pos rfl]
      rw [hguarded, guardReserved, not_isReserved_guarded, if_neg Bool.false_ne_true]

theorem isSafe_safeName (name : String) {default : String} (hdefault : IsSafe default) :
    IsSafe (safeName name default) := by
  rw [safeName]
  split
  · exact hdefault
  · rename_i cs hne
    generalize hkept : name.toList.filter Text.isNameChar = kept at hne
    have hchars : ∀ c ∈ kept, Text.isNameChar c = true := by
      intro c hc
      rw [← hkept] at hc
      exact (List.mem_filter.mp hc).2
    have hself := List.filter_eq_self.mpr (isNameChar_of_guarded hchars)
    rw [IsSafe, safeName, String.toList_ofList, hself]
    split
    · rename_i hnone
      rcases guardReserved_cases (guardDigit kept) with hcs | hcs
      · rcases guardDigit_cases kept with hdigit | hdigit <;> rw [hcs, hdigit] at hnone
        · exact absurd hnone hne
        · cases hnone
      · rw [hcs] at hnone
        cases hnone
    · rw [guardDigit_guarded, guardReserved_guarded]

theorem isSafe_safeNameOf (field? : Option String) {default : String} (hdefault : IsSafe default) :
    IsSafe (safeNameOf field? default) := by
  cases field? with
  | none => exact hdefault
  | some name => exact isSafe_safeName name hdefault

/-! ## Free names -/

/-- A name that a sketch is free to use: a letter or an underscore, then letters, digits and
underscores, and no name that is taken, in whatever case. -/
structure IsFree (name : String) : Prop where
  spelled : ∃ c cs, name.toList = c :: cs ∧ Text.isNameStart c = true ∧
    ∀ d ∈ cs, Text.isNameChar d = true
  untaken : lowerCase name.toList ∉ reservedNames

theorem IsSafe.isFree {name : String} (h : IsSafe name) : IsFree name :=
  ⟨h.exists_start, h.untaken⟩

theorem IsFree.isSafe {name : String} (h : IsFree name) : IsSafe name := by
  obtain ⟨c, cs, hname, hstart, hchars⟩ := h.spelled
  have hself : name.toList.filter Text.isNameChar = c :: cs := by
    rw [hname, List.filter_eq_self]
    exact List.forall_mem_cons.mpr ⟨Text.isNameChar_of_isNameStart hstart, hchars⟩
  have hdigit : guardDigit (c :: cs) = c :: cs := by
    rw [guardDigit]
    by_cases hc : c.isDigit = true
    · rw [Text.not_isNameStart_of_isDigit hc] at hstart
      cases hstart
    · rw [if_neg hc]
  have hfree : isReserved (c :: cs) = false := by
    rw [← hname, isReserved, ← Bool.not_eq_true, List.contains_iff_mem]
    exact h.untaken
  rw [IsSafe, safeName, hself]
  dsimp only
  rw [hdigit, guardReserved, hfree, if_neg Bool.false_ne_true, ← hname, String.ofList_toList]

theorem isSafe_iff_isFree (name : String) : IsSafe name ↔ IsFree name :=
  ⟨IsSafe.isFree, IsFree.isSafe⟩

/-- Whatever text it is made of, a name that is made safe is free, and to the lexer it is one
identifier from its front to its end.  Made safe again it stays as it is, as free names do and no
others. -/
theorem safeName_isIdentifier (name file : String) :
    IsFree (safeName name unnamed) ∧
    Token.tokenize (safeName name unnamed) file =
      [⟨.identifier, safeName name unnamed, 0, (safeName name unnamed).toList.length, ⟨file, 1, 1⟩⟩,
        Token.endAt (Cursor.start.advanceAll (safeName name unnamed).toList) file] ∧
    safeName (safeName name unnamed) unnamed = safeName name unnamed ∧
    (safeName name unnamed = name ↔ IsFree name) := by
  have hsafe : IsSafe (safeName name unnamed) := isSafe_safeName name rfl
  have htokens := Token.tokenize_firm hsafe.firm file
  rw [Token.ofWord, Cursor.start, Nat.zero_add] at htokens
  exact ⟨hsafe.isFree, htokens, hsafe, isSafe_iff_isFree name⟩

end InoBlocks
