import InoBlocks.Proofs.Check.Fragment
import InoBlocks.Proofs.Check.Spacing

/-!
# Passages

A passage is whole lines, each with its line feed, which begin with some braces open and end with
some open.  Passages stand one below the other, with an empty line between them or without one; and
in a sketch that is a passage, the checks find no bracket that does not match and no call with
arguments that it does not take.  So a sketch whose sections are lines that close all their braces,
two of them its entry points, passes the checks.
-/

namespace InoBlocks

namespace Check

open Text Code

/-- Whole lines, from some open braces to some. -/
structure Passage (i j : Nat) (cs : List Char) : Prop where
  /-- In front of the lines there may be an empty one, and behind them too. -/
  spaced : ∀ feeds rest, feeds ≤ 2 → isSpaced feeds (cs ++ rest) = isSpaced 1 rest
  masked : ∃ m, MasksTo cs m ∧ Turns ⟨'{', '}', "braces"⟩ i j m ∧
    Turns ⟨'(', ')', "parentheses"⟩ 0 0 m ∧ ∀ rest, Orderly rest → Orderly (m ++ rest)

namespace Passage

variable {i j k : Nat} {cs ds : List Char}

theorem append (hcs : Passage i j cs) (hds : Passage j k ds) : Passage i k (cs ++ ds) := by
  obtain ⟨m, hm, hbraces, hparentheses, horderly⟩ := hcs.masked
  obtain ⟨n, hn, hbraces', hparentheses', horderly'⟩ := hds.masked
  refine ⟨fun feeds rest hfeeds => ?_, m ++ n, hm.append hn, hbraces.append hbraces',
    hparentheses.append hparentheses', fun rest hrest => ?_⟩
  · rw [List.append_assoc, hcs.spaced _ _ hfeeds, hds.spaced _ _ (by decide)]
  · rw [List.append_assoc]
    exact horderly _ (horderly' _ hrest)

theorem under (h : Passage i j cs) (k : Nat) : Passage (k + i) (k + j) cs := by
  obtain ⟨m, hm, hbraces, hrest⟩ := h.masked
  exact ⟨h.spaced, m, hm, hbraces.under k, hrest⟩

end Passage

/-! ## Parts of lines -/

/-- Whether a text may stand at the front or at the end of a line: code without letters,
parentheses and commas. -/
def isEdge (s : String) : Bool :=
  s.toList.all fun c => isCode c && !c.isAlpha && c != '(' && c != ')'

theorem isEdge_iff {s : String} :
    isEdge s = true ↔ ∀ c ∈ s.toList, isCode c = true ∧ c.isAlpha = false ∧ c ≠ '(' ∧ c ≠ ')' := by
  simp [isEdge, and_assoc]

theorem isSpaced_append {cs : List Char} (h : '\n' ∉ cs) (feeds : Nat) (rest : List Char) :
    isSpaced feeds (cs ++ rest) = isSpaced feeds rest ∨
      isSpaced feeds (cs ++ rest) = isSpaced 0 rest := by
  induction cs generalizing feeds with
  | nil => exact Or.inl rfl
  | cons c cs ih =>
      rw [List.mem_cons, not_or] at h
      rw [List.cons_append]
      cases hblank : isBlank c with
      | true =>
          rw [isSpaced_blank _ _ hblank (Ne.symm h.1)]
          exact ih h.2 feeds
      | false =>
          rw [isSpaced_solid _ _ hblank]
          exact Or.inr ((ih h.2 0).elim id id)

namespace Passage

variable {i j k : Nat} {cs : List Char} {s : String} {m : List Char}

/-- Whatever stands in front of a passage in its first line does not change the lines. -/
theorem spaced_front {front : List Char} (hfront : '\n' ∉ front) (h : Passage i j cs) :
    ∀ feeds rest, feeds ≤ 2 → isSpaced feeds (front ++ cs ++ rest) = isSpaced 1 rest := by
  intro feeds rest hfeeds
  rw [List.append_assoc]
  rcases isSpaced_append hfront feeds (cs ++ rest) with heq | heq <;> rw [heq]
  · exact h.spaced _ _ hfeeds
  · exact h.spaced _ _ (by decide)

theorem edge (hs : isEdge s = true) (hfeed : '\n' ∉ s.toList)
    (hbraces : Turns ⟨'{', '}', "braces"⟩ i j s.toList) (h : Passage j k cs) :
    Passage i k (s.toList ++ cs) := by
  have hedge := isEdge_iff.mp hs
  obtain ⟨m, hm, hturns, hparentheses, horderly⟩ := h.masked
  refine ⟨spaced_front hfeed h, s.toList ++ m,
    (MasksTo.code fun c hc => (hedge c hc).1).append hm, hbraces.append hturns,
    (Turns.without (fun c hc => (hedge c hc).2.2) 0).append hparentheses, fun rest hrest => ?_⟩
  rw [List.append_assoc]
  exact .append_of_not_isAlpha (fun c hc => (hedge c hc).2.1) (horderly _ hrest)

theorem ofEdge (hs : isEdge s = true) (hsolid : ∀ feeds rest, isSpaced feeds (s.toList ++ rest) = isSpaced 1 rest)
    (hbraces : Turns ⟨'{', '}', "braces"⟩ i j s.toList) : Passage i j s.toList := by
  have hedge := isEdge_iff.mp hs
  exact ⟨fun feeds rest _ => hsolid feeds rest, s.toList, .code fun c hc => (hedge c hc).1, hbraces,
    .without (fun c hc => (hedge c hc).2.2) 0,
    fun rest => .append_of_not_isAlpha fun c hc => (hedge c hc).2.1⟩

theorem fragment (hs : Fragment s m) {ending : String} (hending : isEdge ending = true)
    (hquiet : ∀ rest, Quiet (ending.toList ++ rest))
    (h : Passage i j ending.toList) : Passage i j (s.toList ++ ending.toList) := by
  have hedge := isEdge_iff.mp hending
  obtain ⟨n, hn, hturns, hparentheses, horderly⟩ := h.masked
  have hcode : n = ending.toList := by
    rw [← hn.mask_eq, (MasksTo.code fun c hc => (hedge c hc).1).mask_eq]
  refine ⟨spaced_front hs.oneLine h, m ++ n, hs.masks.append hn,
    (hs.form.turns_braces i).append hturns, (hs.form.turns_parentheses 0).append hparentheses,
    fun rest hrest => ?_⟩
  rw [List.append_assoc]
  exact hs.form.orderly (by rw [hcode]; exact hquiet rest) (horderly rest hrest)

end Passage

/-! ## Lines -/

/-- A text that is a passage with a line feed behind it. -/
def Line (i j : Nat) (s : String) : Prop :=
  Passage i j (s.toList ++ ['\n'])

namespace Line

variable {i j : Nat} {s : String} {m : List Char}

theorem under (h : Line i j s) (k : Nat) : Line (k + i) (k + j) s :=
  Passage.under h k

/-- A fragment with an ending that neither runs on its last word nor makes a call of it. -/
theorem fragment (hs : Fragment s m) {ending : String} (hending : isEdge (ending ++ "\n") = true)
    (hquiet : ∀ rest, Quiet ((ending ++ "\n").toList ++ rest)) (h : Line i j ending) :
    Line i j (s ++ ending) := by
  have hpassage : Passage i j (ending ++ "\n").toList := by
    rw [String.toList_append]
    exact h
  have hline := Passage.fragment hs hending hquiet hpassage
  rwa [String.toList_append, ← List.append_assoc, ← String.toList_append] at hline

theorem clause (hs : Fragment s m) (i : Nat) : Line i i (s ++ ";") :=
  fragment hs (by decide) (fun rest => .cons (by decide) (by decide) (by decide) _)
    (Passage.ofEdge (s := ";\n") (by decide) (fun _ _ => rfl) (.without (by decide) i))

theorem opens (hs : Fragment s m) (i : Nat) : Line i (i + 1) (s ++ " \x7b") := by
  have hturns : Turns ⟨'{', '}', "braces"⟩ i (i + 1) " \x7b\n".toList := by
    have hfront : Turns ⟨'{', '}', "braces"⟩ i i [' '] := .without (by decide) i
    have hback : Turns ⟨'{', '}', "braces"⟩ (i + 1) (i + 1) ['\n'] := .without (by decide) (i + 1)
    exact (hfront.append (.opener _ i)).append hback
  exact fragment hs (by decide)
    (fun rest => .blank (by decide) (.cons (by decide) (by decide) (by decide) _))
    (Passage.ofEdge (s := " \x7b\n") (by decide) (fun _ _ => rfl) hturns)

theorem closes (i : Nat) : Line (i + 1) i "\x7d" := by
  have hback : Turns ⟨'{', '}', "braces"⟩ i i ['\n'] := .without (by decide) i
  exact Passage.ofEdge (s := "\x7d\n") (by decide) (fun _ _ => rfl)
    ((Turns.closer (b := ⟨'{', '}', "braces"⟩) (by decide) i).append hback)

theorem closing (h : Line i j s) : Line (i + 1) j ("\x7d " ++ s) := by
  have hback : Turns ⟨'{', '}', "braces"⟩ i i [' '] := .without (by decide) i
  have hedge := Passage.edge (s := "\x7d ") (by decide) (by decide)
    ((Turns.closer (b := ⟨'{', '}', "braces"⟩) (by decide) i).append hback) h
  rwa [← List.append_assoc, ← String.toList_append] at hedge

theorem angled (hs : Fragment s m) (i : Nat) : Line i i (s ++ ">") :=
  fragment hs (by decide) (fun rest => .cons (by decide) (by decide) (by decide) _)
    (Passage.ofEdge (s := ">\n") (by decide) (fun _ _ => rfl) (.without (by decide) i))

theorem comment (hslashes : ['/', '/'] <+: s.toList) (hs : '\n' ∉ s.toList) (i : Nat) :
    Line i i s := by
  obtain ⟨cs, hcs⟩ := hslashes
  rw [Line, ← hcs]
  have hfeed : '\n' ∉ cs := fun hmem => hs (by rw [← hcs]; simp [hmem])
  have hblank : ∀ c ∈ List.replicate (cs.length + 2) ' ' ++ ['\n'], c = ' ' ∨ c = '\n' := by
    intro c hc
    rcases List.mem_append.mp hc with hc | hc
    · exact Or.inl (List.mem_replicate.mp hc).2
    · exact Or.inr (List.mem_singleton.mp hc)
  refine ⟨fun feeds rest _ => ?_, _, .lineComment hfeed, .without (fun c hc => ?_) i,
    .without (fun c hc => ?_) 0, fun rest => .append_of_not_isAlpha fun c hc => ?_⟩
  · have hsolid : isSpaced feeds (['/', '/'] ++ cs ++ ['\n'] ++ rest) =
        isSpaced 0 (cs ++ '\n' :: rest) := by
      simp [isSpaced_solid _ _ (show isBlank '/' = false by decide)]
    rw [hsolid]
    rcases isSpaced_append hfeed 0 ('\n' :: rest) with heq | heq <;> rw [heq] <;> rfl
  all_goals rcases hblank c hc with rfl | rfl <;> decide

theorem indented {pad : String} (hpad : ∀ c ∈ pad.toList, c = ' ' ∨ c = '\t') (h : Line i j s) :
    Line i j (pad ++ s) := by
  have hedge : isEdge pad = true := by
    refine isEdge_iff.mpr fun c hc => ?_
    rcases hpad c hc with rfl | rfl <;> decide
  have hfeed : '\n' ∉ pad.toList := by
    intro hmem
    rcases hpad _ hmem with heq | heq <;> cases heq
  have hturns : Turns ⟨'{', '}', "braces"⟩ i i pad.toList := by
    refine .without (fun c hc => ?_) i
    rcases hpad c hc with rfl | rfl <;> decide
  have hline := Passage.edge hedge hfeed hturns h
  rwa [← List.append_assoc, ← String.toList_append] at hline

end Line

/-- Lines one below the other. -/
inductive Lines : Nat → Nat → List String → Prop where
  | nil {i : Nat} : Lines i i []
  | cons {i j k : Nat} {s : String} {ss : List String} : Line i j s → Lines j k ss →
      Lines i k (s :: ss)

namespace Lines

variable {i j k : Nat} {ss ts : List String}

theorem append (hs : Lines i j ss) (ht : Lines j k ts) : Lines i k (ss ++ ts) := by
  induction hs with
  | nil => exact ht
  | cons h _ ih => exact .cons h (ih ht)

theorem ofForall (h : ∀ s ∈ ss, Line 0 0 s) : Lines 0 0 ss := by
  induction ss with
  | nil => exact .nil
  | cons s ss ih =>
      exact .cons (h s List.mem_cons_self) (ih fun t ht => h t (List.mem_cons_of_mem s ht))

theorem joinLines (h : Lines i j ss) (hne : ss ≠ []) : Line i j (Text.joinLines ss) := by
  induction h with
  | nil => exact absurd rfl hne
  | @cons i j k s ss hs hrest ih =>
      cases ss with
      | nil =>
          cases hrest
          have hone : Text.joinLines [s] = s := by simp [Text.joinLines]
          rwa [hone]
      | cons t ss =>
          have hmany : Text.joinLines (s :: t :: ss) = s ++ "\n" ++ Text.joinLines (t :: ss) := by
            simp [Text.joinLines]
          have hpassage := Passage.append hs (ih (List.cons_ne_nil t ss))
          rw [Line, hmany]
          simpa using hpassage

end Lines

/-! ## Sections -/

theorem Passage.apart {i j k : Nat} {cs ds : List Char} (hcs : Passage i j cs)
    (hds : Passage j k ds) : Passage i k (cs ++ '\n' :: ds) := by
  obtain ⟨m, hm, hbraces, hparentheses, horderly⟩ := hcs.masked
  obtain ⟨n, hn, hbraces', hparentheses', horderly'⟩ := hds.masked
  have hfeed : MasksTo ['\n'] ['\n'] := .code (by decide)
  refine ⟨fun feeds rest hfeeds => ?_, m ++ (['\n'] ++ n), hm.append (hfeed.append hn),
    hbraces.append (.append (.without (by decide) j) hbraces'),
    hparentheses.append (.append (.without (by decide) 0) hparentheses'), fun rest hrest => ?_⟩
  · rw [List.append_assoc, hcs.spaced _ _ hfeeds, List.cons_append, isSpaced_feed,
      hds.spaced _ _ (by decide)]
    rfl
  · rw [List.append_assoc, List.append_assoc]
    exact horderly _ (.append_of_not_isAlpha (by decide) (horderly' _ hrest))

theorem passage_sections {ss : List String} (h : ∀ s ∈ ss, Line 0 0 s) (hne : ss ≠ []) :
    Passage 0 0 (("\n\n".intercalate ss).toList ++ ['\n']) := by
  induction ss with
  | nil => exact absurd rfl hne
  | cons s ss ih =>
      have hs := h s List.mem_cons_self
      cases ss with
      | nil =>
          have hone : "\n\n".intercalate [s] = s := by simp
          rwa [hone]
      | cons t ss =>
          have hmany : ("\n\n".intercalate (s :: t :: ss)).toList ++ ['\n'] =
              (s.toList ++ ['\n']) ++ '\n' :: (("\n\n".intercalate (t :: ss)).toList ++ ['\n']) := by
            simp
          rw [hmany]
          exact Passage.apart hs
            (ih (fun u hu => h u (List.mem_cons_of_mem s hu)) (List.cons_ne_nil t ss))

/-- In front of a section is a text that is masked by itself and, if there is any, ends with a line
feed. -/
theorem exists_section {ss : List String} (h : ∀ s ∈ ss, Line 0 0 s) {s : String} (hmem : s ∈ ss) :
    ∃ front back m, ("\n\n".intercalate ss).toList = front ++ (s.toList ++ back) ∧
      MasksTo front m ∧ (m = [] ∨ ∃ m', m = m' ++ ['\n']) := by
  induction ss with
  | nil => cases hmem
  | cons t ss ih =>
      cases ss with
      | nil =>
          obtain rfl := List.mem_singleton.mp hmem
          exact ⟨[], [], [], by simp, .nil, Or.inl rfl⟩
      | cons u ss =>
          have hmany : ("\n\n".intercalate (t :: u :: ss)).toList =
              t.toList ++ '\n' :: '\n' :: ("\n\n".intercalate (u :: ss)).toList := by
            simp
          rcases List.mem_cons.mp hmem with rfl | hmem
          · exact ⟨[], _, [], hmany, .nil, Or.inl rfl⟩
          · obtain ⟨front, back, m, htext, hmasks, hend⟩ :=
              ih (fun v hv => h v (List.mem_cons_of_mem t hv)) hmem
            obtain ⟨n, hn, -⟩ := (h t List.mem_cons_self).masked
            have hfeed : MasksTo ['\n'] ['\n'] := .code (by decide)
            refine ⟨(t.toList ++ ['\n']) ++ (['\n'] ++ front), back, n ++ (['\n'] ++ m),
              by rw [hmany, htext]; simp, hn.append (hfeed.append hmasks), Or.inr ?_⟩
            rcases hend with rfl | ⟨m', rfl⟩
            · exact ⟨n, by simp⟩
            · exact ⟨n ++ (['\n'] ++ m'), by simp⟩

/-! ## Entry points -/

/-- The text with which the header of an entry point begins. -/
def entryHeader (name : String) : String :=
  "void " ++ name ++ "() \x7b"

theorem mem_spotsFrom (m : List Char) (c : Char) (cs : List Char) (offset : Nat) (after : Bool) :
    ∃ offset', ⟨offset', false, c :: cs⟩ ∈ spotsFrom offset after (m ++ ['\n'] ++ c :: cs) := by
  induction m generalizing offset after with
  | nil => exact ⟨offset + 1, List.mem_cons_of_mem _ List.mem_cons_self⟩
  | cons d m ih =>
      obtain ⟨offset', hmem⟩ := ih (offset + 1) (isWord d)
      exact ⟨offset', List.mem_cons_of_mem _ hmem⟩

/-- A header at the front of a line is an entry point. -/
theorem exists_entryPoint {name : String} (hname : name ∈ entryPoints) {front m : List Char}
    (hfront : MasksTo front m) (hend : m = [] ∨ ∃ m', m = m' ++ ['\n']) (back : List Char) :
    (spots (mask (front ++ ((entryHeader name).toList ++ back)))).any (isEntryPoint name) = true := by
  have hcode : ∀ name ∈ entryPoints, ∀ c ∈ (entryHeader name).toList, isCode c = true := by decide
  have hfound : ∀ offset, isEntryPoint name
      ⟨offset, false, (entryHeader name).toList ++ mask back⟩ = true := by
    intro offset
    simp only [entryPoints, List.mem_cons, List.not_mem_nil, or_false] at hname
    rcases hname with rfl | rfl <;> rfl
  have hmask : mask (front ++ ((entryHeader name).toList ++ back)) =
      m ++ ((entryHeader name).toList ++ mask back) := by
    rw [hfront, MasksTo.code (hcode name hname)]
  have hne : (entryHeader name).toList = 'v' :: ("oid " ++ name ++ "() \x7b").toList := by
    simp [entryHeader]
  rw [hmask, List.any_eq_true]
  rcases hend with rfl | ⟨m', rfl⟩
  · refine ⟨⟨0, false, (entryHeader name).toList ++ mask back⟩, ?_, hfound 0⟩
    rw [List.nil_append, hne]
    exact List.mem_cons_self
  · rw [hne, List.cons_append]
    obtain ⟨offset, hmem⟩ := mem_spotsFrom m' 'v' (("oid " ++ name ++ "() \x7b").toList ++ mask back) 0 false
    refine ⟨_, hmem, ?_⟩
    have hhere := hfound offset
    rwa [hne] at hhere

/-! ## Validity -/

/-- A passage that closes its braces and has the entry points is valid. -/
theorem validate_of_passage {code : String} (h : Passage 0 0 code.toList)
    (hentry : ∀ name ∈ entryPoints, (spots (mask code.toList)).any (isEntryPoint name) = true)
    (file : String) : ∃ v, validate code file = .ok v ∧ v.isValid = true := by
  obtain ⟨m, hmasks, hbraces, hparentheses, horderly⟩ := h.masked
  have hmask : mask code.toList = m := hmasks.mask_eq
  have hbrackets : brackets.flatMap (bracketFindings (.ofString file code)) = [] := by
    have hturns : ∀ b ∈ brackets, Turns b 0 0 (Subject.ofString file code).masked := by
      rw [Subject.ofString, hmask]
      simp only [brackets, List.forall_mem_cons]
      exact ⟨hbraces, hparentheses, List.forall_mem_nil _⟩
    refine List.flatMap_eq_nil_iff.mpr fun b hb => bracketFindings_eq_nil (hturns b hb)
  have hentries : entryFindings (.ofString file code) = [] := by
    rw [entryFindings, List.map_eq_nil_iff, List.filter_eq_nil_iff]
    intro name hname
    rw [Subject.ofString, hentry name hname]
    exact Bool.false_ne_true
  have hcalls : Orderly (Subject.ofString file code).masked := by
    rw [Subject.ofString, hmask, ← List.append_nil m]
    exact horderly [] .nil
  obtain ⟨ds, hds, hclean⟩ := callFindings_ok hcalls
  refine ⟨_, by rw [validate, hds]; rfl, ?_⟩
  rw [Validation.isValid, Validation.errors, List.isEmpty_iff, List.map_eq_nil_iff,
    List.filter_eq_nil_iff]
  rw [hbrackets, hentries, List.nil_append]
  intro d hd
  rw [Bool.not_eq_true]
  rcases List.mem_append.mp hd with hd | hd
  · rcases List.mem_append.mp hd with hd | hd
    · exact hclean d hd
    · obtain ⟨line, -, rfl⟩ := List.mem_map.mp hd
      rfl
  · obtain ⟨repeated, -, rfl⟩ := List.mem_map.mp hd
    rfl

end Check

end InoBlocks
