import InoBlocks.Proofs.Sketch.Quoting
import InoBlocks.Sketch.Mask

/-!
# Texts that are masked by themselves

A sketch is masked from left to right, so a comment or a quoted text that is not closed would
swallow what stands behind it.  `MasksTo cs m` says that `cs` does not: it is masked as `m`,
whatever follows, and what follows is masked as if it stood alone.
-/

namespace InoBlocks

attribute [grind =] maskFrom

/-- A text of code that is masked in one way, in front of anything. -/
def MasksTo (cs m : List Char) : Prop :=
  ∀ rest, mask (cs ++ rest) = m ++ mask rest

namespace MasksTo

variable {cs ds m n : List Char}

theorem nil : MasksTo [] [] :=
  fun _ => rfl

theorem append (hcs : MasksTo cs m) (hds : MasksTo ds n) : MasksTo (cs ++ ds) (m ++ n) := by
  intro rest
  rw [List.append_assoc, hcs, hds, List.append_assoc]

theorem mask_eq (h : MasksTo cs m) : mask cs = m := by
  have hnil := h []
  rw [List.append_nil] at hnil
  exact hnil.trans (List.append_nil m)

end MasksTo

/-! ## Code -/

/-- Whether a character begins neither a comment nor a quoted text. -/
def isCode (c : Char) : Bool :=
  c != '/' && c != '"' && c != '\''

theorem mask_cons {c : Char} (h : isCode c = true) (cs : List Char) :
    mask (c :: cs) = c :: mask cs := by
  simp only [isCode, Bool.and_eq_true, bne_iff_ne, ne_eq] at h
  obtain ⟨⟨hslash, hdouble⟩, hsingle⟩ := h
  have hafter : Region.afterCode c = .code := by
    rw [Region.afterCode, if_neg (by simp [hdouble, hsingle])]
  rw [mask, maskFrom, hafter]
  · rfl
  · exact fun _ heq => absurd heq hslash
  · exact fun _ heq => absurd heq hslash

theorem MasksTo.code {cs : List Char} (h : ∀ c ∈ cs, isCode c = true) : MasksTo cs cs := by
  intro rest
  induction cs with
  | nil => rfl
  | cons c cs ih =>
      rw [List.cons_append, mask_cons (h c List.mem_cons_self),
        ih fun d hd => h d (List.mem_cons_of_mem c hd), List.cons_append]

theorem MasksTo.slash : MasksTo [' ', '/', ' '] [' ', '/', ' '] :=
  fun _ => rfl

/-! ## Quoted texts -/

/-- An escaped text is blanked out up to the quote that closes it. -/
theorem Escaped.maskFrom {cs : List Char} (h : Escaped cs) (rest : List Char) :
    InoBlocks.maskFrom (.literal '"') (cs ++ '"' :: rest) =
      List.replicate cs.length ' ' ++ '"' :: mask rest := by
  induction h with
  | nil => rfl
  | pair _ _ ih =>
      rw [List.cons_append, List.cons_append, InoBlocks.maskFrom, ih]
      rfl
  | plain hslash hquote hfeed _ _ ih =>
      rw [List.cons_append, InoBlocks.maskFrom, if_neg (by simpa using hquote), blanked,
        if_neg (by simpa using hfeed), if_neg (by simpa using hfeed), ih]
      · rfl
      · exact fun _ _ heq => absurd heq hslash

/-- The mask of a quoted text: blanks between its quotes. -/
def quotedMask (s : String) : List Char :=
  '"' :: List.replicate (escapeText s.toList).length ' ' ++ ['"']

theorem MasksTo.quoted (s : String) : MasksTo (quoteText s).toList (quotedMask s) := by
  intro rest
  rw [quoteText, String.toList_ofList, List.append_assoc, List.cons_append, List.singleton_append]
  change '"' :: maskFrom (.literal '"') _ = _
  rw [(escaped_escapeText _).maskFrom, quotedMask, List.append_assoc]
  rfl

/-! ## Comments -/

theorem blanked_of_ne {c : Char} (h : c ≠ '\n') : blanked c = ' ' := by
  rw [blanked, if_neg (by simpa using h)]

theorem MasksTo.lineComment {cs : List Char} (h : '\n' ∉ cs) :
    MasksTo ('/' :: '/' :: cs ++ ['\n']) (List.replicate (cs.length + 2) ' ' ++ ['\n']) := by
  have hinside : ∀ rest, maskFrom .lineComment (cs ++ '\n' :: rest) =
      List.replicate cs.length ' ' ++ '\n' :: mask rest := by
    intro rest
    induction cs with
    | nil => rfl
    | cons c cs ih =>
        rw [List.mem_cons, not_or] at h
        rw [List.cons_append, maskFrom, if_neg (by simpa using Ne.symm h.1), ih h.2,
          blanked_of_ne (Ne.symm h.1)]
        rfl
  intro rest
  change ' ' :: ' ' :: maskFrom .lineComment (cs ++ ['\n'] ++ rest) = _
  rw [List.append_assoc, List.singleton_append, hinside, List.append_assoc]
  rfl

theorem MasksTo.blockComment {cs : List Char} (hstar : '*' ∉ cs) (hfeed : '\n' ∉ cs) :
    MasksTo ('/' :: '*' :: cs ++ ['*', '/']) (List.replicate (cs.length + 4) ' ') := by
  have hinside : ∀ rest, maskFrom .blockComment (cs ++ '*' :: '/' :: rest) =
      List.replicate cs.length ' ' ++ ' ' :: ' ' :: mask rest := by
    intro rest
    induction cs with
    | nil => rfl
    | cons c cs ih =>
        rw [List.mem_cons, not_or] at hstar hfeed
        rw [List.cons_append, maskFrom, ih hstar.2 hfeed.2, blanked_of_ne (Ne.symm hfeed.1)]
        · rfl
        · exact fun _ heq => absurd heq (Ne.symm hstar.1)
  have hblanks : List.replicate (cs.length + 4) ' ' =
      List.replicate 2 ' ' ++ (List.replicate cs.length ' ' ++ List.replicate 2 ' ') := by
    rw [List.replicate_append_replicate, List.replicate_append_replicate]
    congr 1
    omega
  intro rest
  change ' ' :: ' ' :: maskFrom .blockComment (cs ++ ['*', '/'] ++ rest) = _
  rw [List.append_assoc, List.cons_append, List.singleton_append, hinside, hblanks,
    List.append_assoc, List.append_assoc]
  rfl

end InoBlocks
