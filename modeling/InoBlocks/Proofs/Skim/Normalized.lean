import InoBlocks.Proofs.Skim.SameWords

/-!
# Normal forms of sketches

Dropping comments joins what stands around them, and squeezing blanks turns line feeds into
spaces.  Neither lets a comment open where there was none: once the line comments are gone no two
slashes stand side by side, so that a block comment is never dropped behind a slash, and blanks
are only put where there were blanks.  What normalizing leaves has no comment and no blank in it
that would go if it were normalized again.
-/

namespace InoBlocks

/-! ## Pieces put together again -/

namespace Text

variable {separates : Char → Bool} {word : List Char}

theorem cut_append_cons (hword : ∀ c ∈ word, separates c = false) {d : Char}
    (hd : separates d = true) (rest : List Char) :
    cut separates (word ++ d :: rest) = word :: cut separates rest := by
  induction word with
  | nil => rw [List.nil_append, cut, if_pos hd]
  | cons c word ih =>
      obtain ⟨hc, hword⟩ := List.forall_mem_cons.mp hword
      rw [List.cons_append, cut, if_neg (by simp [hc]), ih hword]

theorem cut_eq_singleton (hword : ∀ c ∈ word, separates c = false) :
    cut separates word = [word] := by
  induction word with
  | nil => rfl
  | cons c word ih =>
      obtain ⟨hc, hword⟩ := List.forall_mem_cons.mp hword
      rw [cut, if_neg (by simp [hc]), ih hword]

theorem not_separates_of_mem_cut (cs : List Char) :
    ∀ piece ∈ cut separates cs, ∀ c ∈ piece, separates c = false := by
  induction cs with
  | nil => simp [cut]
  | cons c cs ih =>
      rw [cut]
      by_cases hc : separates c = true
      · rw [if_pos hc]
        exact List.forall_mem_cons.mpr ⟨by simp, ih⟩
      · rw [if_neg hc]
        cases hcut : cut separates cs with
        | nil => exact absurd hcut (cut_ne_nil separates cs)
        | cons piece pieces =>
            rw [hcut] at ih
            obtain ⟨hpiece, hpieces⟩ := List.forall_mem_cons.mp ih
            have hfirst : ∀ d ∈ c :: piece, separates d = false :=
              List.forall_mem_cons.mpr ⟨Bool.eq_false_iff.mpr hc, hpiece⟩
            exact List.forall_mem_cons.mpr ⟨hfirst, hpieces⟩

/-- A word is not empty, and there is no blank in it. -/
theorem solid_of_mem_words {cs : List Char} (h : word ∈ words cs) :
    word ≠ [] ∧ ∀ c ∈ word, isBlank c = false := by
  obtain ⟨hmem, hne⟩ := List.mem_filter.mp h
  exact ⟨by simpa using hne, not_separates_of_mem_cut cs word hmem⟩

theorem words_joinWith {ws : List (List Char)}
    (h : ∀ word ∈ ws, word ≠ [] ∧ ∀ c ∈ word, isBlank c = false) :
    words (joinWith [' '] ws) = ws := by
  induction ws with
  | nil => rfl
  | cons word ws ih =>
      obtain ⟨⟨hne, hsolid⟩, hws⟩ := List.forall_mem_cons.mp h
      cases ws with
      | nil => simp [joinWith, words, cut_eq_singleton hsolid, hne]
      | cons next ws =>
          have hcut := cut_append_cons hsolid (show isBlank ' ' = true by decide)
            (joinWith [' '] (next :: ws))
          have hjoin : joinWith [' '] (word :: next :: ws) =
              word ++ ' ' :: joinWith [' '] (next :: ws) := by
            simp [joinWith]
          rw [words, hjoin, hcut, List.filter_cons_of_pos (by simpa using hne), ← words, ih hws]

theorem occursIn_of_suffix {pattern cs ds : List Char} (hsuffix : ds <:+ cs)
    (h : occursIn pattern ds = true) : occursIn pattern cs = true := by
  obtain ⟨front, rfl⟩ := hsuffix
  induction front with
  | nil => exact h
  | cons c front ih => rw [List.cons_append, occursIn, ih, Bool.or_true]

end Text

namespace Skim

open Text

/-! ## Texts without comments -/

/-- A text in which no comment opens: no slash stands in front of another, nor in front of a star
with a closing mark somewhere behind it. -/
def Bare (cs : List Char) : Prop :=
  ∀ d ds, '/' :: d :: ds <:+ cs → d ≠ '/' ∧ (d = '*' → occursIn ['*', '/'] ds = false)

theorem bare_nil : Bare [] := by
  intro d ds h
  simp at h

theorem bare_cons {c : Char} {cs : List Char} :
    Bare (c :: cs) ↔ Bare cs ∧
      ∀ d ds, c = '/' → cs = d :: ds → d ≠ '/' ∧ (d = '*' → occursIn ['*', '/'] ds = false) := by
  constructor
  · intro h
    refine ⟨fun d ds hsuffix => h d ds (hsuffix.trans (List.suffix_cons c cs)), ?_⟩
    rintro d ds rfl rfl
    exact h d ds List.suffix_rfl
  · rintro ⟨hrest, hfront⟩ d ds hsuffix
    rcases List.suffix_cons_iff.mp hsuffix with heq | hsuffix
    · obtain ⟨hc, hcs⟩ := List.cons.inj heq
      exact hfront d ds hc.symm hcs.symm
    · exact hrest d ds hsuffix

/-- A character other than a slash opens no comment. -/
theorem Bare.cons {c : Char} {cs : List Char} (h : Bare cs) (hc : c ≠ '/') : Bare (c :: cs) :=
  bare_cons.mpr ⟨h, fun _ _ hslash => absurd hslash hc⟩

theorem Bare.dropLineComments_eq {cs : List Char} (h : Bare cs) :
    dropLineComments false cs = cs := by
  induction cs with
  | nil => rfl
  | cons c cs ih =>
      obtain ⟨hcs, hfront⟩ := bare_cons.mp h
      rw [dropLineComments_cons, ih hcs]
      rintro d hd ⟨rfl, rfl⟩
      obtain ⟨ds, rfl⟩ := List.head?_eq_some_iff.mp hd
      exact (hfront '/' ds rfl rfl).1 rfl

theorem Bare.dropBlockComments_eq {cs : List Char} (h : Bare cs) :
    dropBlockComments false cs = cs := by
  induction cs with
  | nil => rfl
  | cons c cs ih =>
      obtain ⟨hcs, hfront⟩ := bare_cons.mp h
      by_cases hopen : ∃ ds, c = '/' ∧ cs = '*' :: ds
      · obtain ⟨ds, rfl, rfl⟩ := hopen
        rw [dropBlockComments, (hfront '*' ds rfl rfl).2 rfl, if_neg Bool.false_ne_true]
      · rw [dropBlockComments_cons, ih hcs]
        rintro d hd ⟨rfl, rfl⟩
        obtain ⟨ds, rfl⟩ := List.head?_eq_some_iff.mp hd
        exact hopen ⟨ds, rfl, rfl⟩

/-- Nothing is dropped from a text in which no comment opens. -/
theorem Bare.stripComments_eq {cs : List Char} (h : Bare cs) : stripComments cs = cs := by
  rw [stripComments, h.dropLineComments_eq, h.dropBlockComments_eq]

/-! ## Dropping comments -/

/-- Without line comments, no slash stands in front of another. -/
theorem isChain_dropLineComments (inside : Bool) (cs : List Char) :
    (dropLineComments inside cs).IsChain fun c d => ¬ (c = '/' ∧ d = '/') := by
  fun_induction dropLineComments inside cs with
  | case1 => exact .nil
  | case2 inside cs ih => exact ih
  | case3 inside c cs _ _ ih => exact ih
  | case4 inside c cs hopen _ ih =>
      refine List.isChain_cons.mpr ⟨?_, ih⟩
      rintro d hd ⟨rfl, rfl⟩
      rcases head?_dropLineComments cs '/' hd with hhead | hfeed
      · obtain ⟨ds, rfl⟩ := List.head?_eq_some_iff.mp hhead
        exact hopen ds rfl rfl
      · exact absurd hfeed (by decide)

theorem head?_dropBlockComments {cs : List Char} (h : cs.head? ≠ some '/') :
    (dropBlockComments false cs).head? = cs.head? := by
  cases cs with
  | nil => rfl
  | cons c cs =>
      rw [dropBlockComments_cons]
      · rfl
      · rintro d hd ⟨rfl, -⟩
        exact h rfl

theorem bare_of_unclosed {cs : List Char} (h : cs.IsChain fun c d => ¬ (c = '/' ∧ d = '/'))
    (hopen : occursIn ['*', '/'] cs = false) : Bare cs := by
  intro d ds hsuffix
  have hpair := (List.isChain_cons_cons.mp (h.suffix hsuffix)).1
  refine ⟨fun hd => hpair ⟨rfl, hd⟩, fun _ => Bool.eq_false_iff.mpr fun hclosed => ?_⟩
  have hbehind : ds <:+ cs :=
    ((List.suffix_cons d ds).trans (List.suffix_cons '/' _)).trans hsuffix
  rw [occursIn_of_suffix hbehind hclosed] at hopen
  cases hopen

/-- Where no slash stands in front of another, no comment is left when the block comments are
dropped: the character in front of a dropped comment is no slash. -/
theorem bare_dropBlockComments (inside : Bool) (cs : List Char)
    (h : cs.IsChain fun c d => ¬ (c = '/' ∧ d = '/')) : Bare (dropBlockComments inside cs) := by
  fun_induction dropBlockComments inside cs with
  | case1 => exact bare_nil
  | case2 cs ih => exact ih h.tail.tail
  | case3 c cs _ ih => exact ih h.tail
  | case4 cs hclosed ih => exact ih h.tail.tail
  | case5 cs hopen =>
      have hunclosed := Bool.eq_false_iff.mpr hopen
      refine bare_cons.mpr ⟨(bare_of_unclosed h.tail.tail hunclosed).cons (by decide), ?_⟩
      rintro d ds - heq
      obtain ⟨rfl, rfl⟩ := List.cons.inj heq
      exact ⟨by decide, fun _ => hunclosed⟩
  | case6 c cs hopen ih =>
      refine bare_cons.mpr ⟨ih h.tail, ?_⟩
      rintro d ds rfl hdrop
      obtain ⟨hpair, -⟩ := List.isChain_cons.mp h
      have hslash : cs.head? ≠ some '/' := fun hhead => hpair '/' hhead ⟨rfl, rfl⟩
      have hhead := head?_dropBlockComments hslash
      rw [hdrop, List.head?_cons] at hhead
      refine ⟨fun hd => hslash (hd ▸ hhead.symm), ?_⟩
      rintro rfl
      obtain ⟨es, rfl⟩ := List.head?_eq_some_iff.mp hhead.symm
      exact (hopen es rfl rfl).elim

theorem bare_stripComments (cs : List Char) : Bare (stripComments cs) :=
  bare_dropBlockComments false _ (isChain_dropLineComments false cs)

/-! ## Squeezing blanks -/

theorem resume_cases (cs : List Char) :
    resume cs = ' ' :: collapse cs ∨ resume cs = collapse cs := by
  unfold resume
  split
  · exact Or.inl rfl
  · exact Or.inr rfl

theorem head?_resume_solid (cs : List Char) :
    ∀ d ∈ (resume cs).head?, cs.head? = some d ∨ d = ' ' := by
  cases cs with
  | nil => simp [resume, collapse, Text.words, cut, joinWith]
  | cons c cs =>
      by_cases hc : isBlank c = true
      · exact fun d hd => Or.inr (head?_resume_blank hc cs d hd)
      · rw [resume_solid (Bool.eq_false_iff.mpr hc)]
        exact fun d hd => Or.inl hd

/-- No closing mark comes up when blanks are squeezed. -/
theorem occursIn_collapse {cs : List Char} (h : occursIn ['*', '/'] (collapse cs) = true) :
    occursIn ['*', '/'] cs = true := by
  induction cs with
  | nil => exact h
  | cons c cs ih =>
      rw [occursIn, Bool.or_eq_true]
      by_cases hc : isBlank c = true
      · rw [collapse_blank hc] at h
        exact Or.inr (ih h)
      · rw [collapse_solid (Bool.eq_false_iff.mpr hc), occursIn, Bool.or_eq_true] at h
        rcases h with hfront | hrest
        · left
          obtain ⟨ds, hds⟩ := List.isPrefixOf_iff_prefix.mp hfront
          obtain ⟨rfl, hresume⟩ := List.cons.inj hds
          rcases head?_resume_solid cs '/' (by rw [← hresume]; rfl) with hhead | hspace
          · obtain ⟨es, rfl⟩ := List.head?_eq_some_iff.mp hhead
            exact List.isPrefixOf_iff_prefix.mpr ⟨es, rfl⟩
          · exact absurd hspace (by decide)
        · right
          rcases resume_cases cs with heq | heq
          · rw [heq, occursIn] at hrest
            exact ih (by simpa [startsWith] using hrest)
          · exact ih (heq ▸ hrest)

theorem occursIn_resume {cs : List Char} (h : occursIn ['*', '/'] (resume cs) = true) :
    occursIn ['*', '/'] cs = true := by
  rcases resume_cases cs with heq | heq
  · rw [heq, occursIn] at h
    exact occursIn_collapse (by simpa [startsWith] using h)
  · exact occursIn_collapse (heq ▸ h)

theorem Bare.collapse {cs : List Char} (h : Bare cs) : Bare (collapse cs) := by
  induction cs with
  | nil => exact h
  | cons c cs ih =>
      obtain ⟨hcs, hfront⟩ := bare_cons.mp h
      by_cases hc : isBlank c = true
      · rw [collapse_blank hc]
        exact ih hcs
      · rw [collapse_solid (Bool.eq_false_iff.mpr hc)]
        have hresume : Bare (resume cs) := by
          rcases resume_cases cs with heq | heq
          · exact heq ▸ (ih hcs).cons (by decide)
          · exact heq ▸ ih hcs
        refine bare_cons.mpr ⟨hresume, ?_⟩
        rintro d ds rfl heq
        rcases head?_resume_solid cs d (by rw [heq]; rfl) with hhead | rfl
        · obtain ⟨es, rfl⟩ := List.head?_eq_some_iff.mp hhead
          obtain ⟨hslash, hopen⟩ := hfront d es rfl rfl
          refine ⟨hslash, fun hstar => ?_⟩
          rw [hstar, resume_solid (by decide)] at heq
          obtain ⟨-, rfl⟩ := List.cons.inj heq
          exact Bool.eq_false_iff.mpr fun hclosed =>
            Bool.eq_false_iff.mp (hopen hstar) (occursIn_resume hclosed)
        · exact ⟨by decide, fun h => absurd h (by decide)⟩

theorem collapse_collapse (cs : List Char) : collapse (collapse cs) = collapse cs := by
  rw [Skim.collapse, Skim.collapse, words_joinWith fun word => solid_of_mem_words]

/-- Normalizing a text that is normalized changes nothing. -/
theorem normalize_normalize (cs : List Char) : normalize (normalize cs) = normalize cs := by
  rw [normalize_eq, normalize_eq, (bare_stripComments cs).collapse.stripComments_eq,
    collapse_collapse]

end Skim

end InoBlocks
