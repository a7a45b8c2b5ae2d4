import InoBlocks.Code.Generate
import Mathlib.Data.List.SplitBy

/-!
# Spacing

Generated code is squeezed at the end, so that no two empty lines follow one another.  Where there
are no such lines in the first place, squeezing changes nothing.
-/

namespace InoBlocks

namespace Code

open Text

/-- Whether no run of blanks in a text has more than two line feeds; `feeds` are in the run in
front of it. -/
def isSpaced (feeds : Nat) : List Char → Bool
  | [] => true
  | c :: cs =>
      if c == '\n' then decide (feeds < 2) && isSpaced (feeds + 1) cs
      else if isBlank c then isSpaced feeds cs
      else isSpaced 0 cs

section

variable {c : Char} (feeds : Nat) (cs : List Char)

theorem isSpaced_feed :
    isSpaced feeds ('\n' :: cs) = (decide (feeds < 2) && isSpaced (feeds + 1) cs) := rfl

theorem isSpaced_blank (hblank : isBlank c = true) (hfeed : c ≠ '\n') :
    isSpaced feeds (c :: cs) = isSpaced feeds cs := by
  rw [isSpaced, if_neg (by simpa using hfeed), if_pos hblank]

theorem isSpaced_solid (hblank : isBlank c = false) :
    isSpaced feeds (c :: cs) = isSpaced 0 cs := by
  have hfeed : c ≠ '\n' := by
    rintro rfl
    cases hblank
  rw [isSpaced, if_neg (by simpa using hfeed), if_neg (by simp [hblank])]

end

theorem isSpaced_of_append {feeds : Nat} {cs ds : List Char}
    (h : isSpaced feeds (cs ++ ds) = true) : isSpaced feeds cs = true := by
  induction cs generalizing feeds with
  | nil => rfl
  | cons c cs ih =>
      rw [List.cons_append, isSpaced] at h
      rw [isSpaced]
      split
      · rename_i hfeed
        rw [if_pos hfeed, Bool.and_eq_true] at h
        rw [Bool.and_eq_true]
        exact ⟨h.1, ih h.2⟩
      · rename_i hfeed
        rw [if_neg hfeed] at h
        split
        · rename_i hblank
          rw [if_pos hblank] at h
          exact ih h
        · rename_i hblank
          rw [if_neg hblank] at h
          exact ih h

theorem exists_isSpaced_of_append {feeds : Nat} {cs ds : List Char}
    (h : isSpaced feeds (cs ++ ds) = true) : ∃ feeds', isSpaced feeds' ds = true := by
  induction cs generalizing feeds with
  | nil => exact ⟨feeds, h⟩
  | cons c cs ih =>
      rw [List.cons_append, isSpaced] at h
      split at h
      · rw [Bool.and_eq_true] at h
        exact ih h.2
      · split at h
        · exact ih h
        · exact ih h

/-- A run of blanks in a spaced text has at most two line feeds. -/
theorem count_of_isSpaced {feeds : Nat} {run : List Char} (hblank : ∀ c ∈ run, isBlank c = true)
    (h : isSpaced feeds run = true) : run.count '\n' = 0 ∨ feeds + run.count '\n' ≤ 2 := by
  induction run generalizing feeds with
  | nil => exact Or.inl rfl
  | cons c run ih =>
      have hrest := fun d hd => hblank d (List.mem_cons_of_mem c hd)
      by_cases hfeed : c = '\n'
      · subst hfeed
        rw [isSpaced_feed, Bool.and_eq_true, decide_eq_true_iff] at h
        rw [List.count_cons_self]
        rcases ih hrest h.2 with hcount | hcount <;> omega
      · rw [isSpaced_blank _ _ (hblank c List.mem_cons_self) hfeed] at h
        rw [List.count_cons_of_ne hfeed]
        exact ih hrest h

/-- A text is squeezed run by run, and a run is of blanks or has none. -/
theorem isBlank_eq_of_mem_splitBy {cs run : List Char}
    (h : run ∈ cs.splitBy fun a b => isBlank a == isBlank b) :
    ∀ c ∈ run, ∀ d ∈ run, isBlank c = isBlank d := by
  have hchain : run.IsChain fun a b => isBlank a = isBlank b :=
    (List.isChain_of_mem_splitBy h).imp fun _ _ => eq_of_beq
  have htrans : IsTrans Char fun a b => isBlank a = isBlank b := ⟨fun _ _ _ => Eq.trans⟩
  have hsymm : Std.Symm fun a b : Char => isBlank a = isBlank b := ⟨fun _ _ => Eq.symm⟩
  exact (List.isChain_iff_pairwise.mp hchain).forall_of_forall fun _ _ => rfl

theorem squeeze_eq_self {cs : List Char} (h : isSpaced 0 cs = true) : squeeze cs = cs := by
  let alike : Char → Char → Bool := fun a b => isBlank a == isBlank b
  have hrun : ∀ run ∈ cs.splitBy alike, squeezeRun run = run := by
    intro run hmem
    refine if_neg (Nat.not_le_of_lt ?_)
    cases run with
    | nil => exact Nat.zero_lt_succ 2
    | cons c run =>
        have halike : ∀ d ∈ c :: run, isBlank d = isBlank c :=
          fun d hd => isBlank_eq_of_mem_splitBy hmem d hd c List.mem_cons_self
        cases hblank : isBlank c with
        | false =>
            have hnone : (c :: run).count '\n' = 0 := by
              refine List.count_eq_zero.mpr fun hfeed => ?_
              rw [hblank] at halike
              cases halike '\n' hfeed
            omega
        | true =>
            obtain ⟨front, back, hsplit⟩ := List.infix_of_mem_flatten hmem
            rw [List.flatten_splitBy] at hsplit
            rw [← hsplit] at h
            obtain ⟨feeds, hfeeds⟩ := exists_isSpaced_of_append (isSpaced_of_append h)
            have hcount := count_of_isSpaced (fun d hd => (halike d hd).trans hblank) hfeeds
            omega
  calc squeeze cs = (cs.splitBy alike).flatMap squeezeRun := rfl
    _ = (cs.splitBy alike).flatten := by
        rw [List.flatMap, List.map_congr_left hrun, List.map_id']
    _ = cs := List.flatten_splitBy _ _

end Code

end InoBlocks
