import InoBlocks.Proofs.Skim.PlainSketch
import InoBlocks.Proofs.Token.FirmText
import InoBlocks.Skim.Text
import Mathlib.Data.List.SplitBy

/-!
# Cleaning keeps the lines

A line is tight if it has no blanks at its ends and single blanks inside, and opens no comment.  Cleaning a text of tight lines changes the layout between them only.
-/

namespace InoBlocks

namespace Text

theorem isBlank_of_isLayout {c : Char} (h : Token.isLayout c = true) : isBlank c = true := by
  simp only [Token.isLayout, Bool.or_eq_true, beq_iff_eq] at h
  rcases h with ((((rfl | rfl) | rfl) | rfl) | rfl) | rfl <;> decide

theorem trimEnd_append (cs ds : List Char) :
    trimEnd (cs ++ ds) = if trimEnd ds = [] then trimEnd cs else cs ++ trimEnd ds := by
  induction cs with
  | nil =>
      split
      · assumption
      · rfl
  | cons c cs ih =>
      rw [List.cons_append, trimEnd, ih]
      by_cases hds : trimEnd ds = []
      · rw [if_pos hds, if_pos hds, trimEnd]
      · rw [if_neg hds, if_neg hds]
        cases cs with
        | nil =>
            rw [List.nil_append, List.singleton_append]
            cases htrim : trimEnd ds with
            | nil => exact absurd htrim hds
            | cons d es => rfl
        | cons d cs => rfl

end Text

namespace Plain

open Text Skim

/-! ## Tight lines -/

/-- What may stand behind a character of a line: a blank is a single one, a slash has a blank
behind it, and a parenthesis has something in it. -/
def Follows (c d : Char) : Prop :=
  (isBlank c = true → c = ' ' ∧ isBlank d = false) ∧ (c = '/' → d = ' ') ∧
    (c = '(' → isBlank d = false ∧ d ≠ ')')

instance : DecidableRel Follows := fun c d =>
  inferInstanceAs (Decidable ((isBlank c = true → c = ' ' ∧ isBlank d = false) ∧
    (c = '/' → d = ' ') ∧ (c = '(' → isBlank d = false ∧ d ≠ ')')))

def isFree (c : Char) : Bool :=
  !isBlank c && c != '/' && c != '('

theorem follows_of_isFree {c : Char} (h : isFree c = true) (d : Char) : Follows c d := by
  simp only [isFree, Bool.and_eq_true, Bool.not_eq_true', bne_iff_ne] at h
  obtain ⟨⟨hblank, hslash⟩, hparen⟩ := h
  exact ⟨fun hc => absurd hc (by simp [hblank]), fun hc => absurd hc hslash,
    fun hc => absurd hc hparen⟩

theorem not_isBlank_of_isFree {c : Char} (h : isFree c = true) : isBlank c = false := by
  simp only [isFree, Bool.and_eq_true, Bool.not_eq_true'] at h
  exact h.1.1

/-- A line without blanks at its ends, with single blanks inside, and without comments. -/
structure Tight (l : List Char) : Prop where
  chain : l.IsChain Follows
  head : ∃ c cs, l = c :: cs ∧ isBlank c = false ∧ c ≠ ')'
  last : ∃ cs c, l = cs ++ [c] ∧ isFree c = true

namespace Tight

variable {l : List Char}

theorem ends (h : Tight l) : (∃ c cs, l = c :: cs ∧ isBlank c = false) ∧
    ∃ cs c, l = cs ++ [c] ∧ isBlank c = false := by
  obtain ⟨c, cs, hl, hc, -⟩ := h.head
  obtain ⟨ds, d, hl', hd⟩ := h.last
  exact ⟨⟨c, cs, hl, hc⟩, ⟨ds, d, hl', not_isBlank_of_isFree hd⟩⟩

theorem trim_append (h : Tight l) {gap : List Char} (hgap : ∀ c ∈ gap, isBlank c = true) :
    trim (gap ++ l) = l :=
  trim_of_ends hgap h.ends.1 h.ends.2

theorem trim_behind (h : Tight l) {gap : List Char} (hgap : ∀ c ∈ gap, isBlank c = true) :
    trim (l ++ gap) = l := by
  obtain ⟨⟨c, cs, hl, hc⟩, ds, d, hl', hd⟩ := h.ends
  have hstart : trimStart (l ++ gap) = l ++ gap := by
    rw [hl, List.cons_append, trimStart, List.dropWhile_cons_of_neg (by simp [hc])]
  have hnil : trimEnd gap = [] := (trimEnd_eq_nil_iff gap).mpr (List.all_eq_true.mpr hgap)
  rw [trim, hstart, trimEnd_append, if_pos hnil, hl', trimEnd_append_singleton ds hd]

theorem trim_eq (h : Tight l) : trim l = l :=
  trim_of_ends (List.forall_mem_nil _) h.ends.1 h.ends.2

theorem getLast?_free (h : Tight l) {c : Char} (hc : l.getLast? = some c) : isFree c = true := by
  obtain ⟨cs, d, rfl, hd⟩ := h.last
  rw [List.getLast?_concat, Option.some.injEq] at hc
  exact hc ▸ hd

theorem getLast?_solid (h : Tight l) {c : Char} (hc : l.getLast? = some c) : isBlank c = false :=
  not_isBlank_of_isFree (h.getLast?_free hc)

end Tight

/-- A chain goes on behind characters that may stand before any other. -/
theorem isChain_free_append {r : Char → Char → Prop} {cs ds : List Char}
    (hcs : ∀ c ∈ cs, ∀ d, r c d) (hds : ds.IsChain r) : (cs ++ ds).IsChain r := by
  induction cs with
  | nil => exact hds
  | cons c cs ih =>
      obtain ⟨hc, hcs⟩ := List.forall_mem_cons.mp hcs
      rw [List.cons_append, List.isChain_cons]
      exact ⟨fun d _ => hc d, ih hcs⟩

/-! ## Comments -/

/-- Whether no comment is opened between two characters. -/
def Uncommented (c d : Char) : Prop :=
  c = '/' → d = ' '

theorem dropLineComments_eq {cs : List Char} (h : cs.IsChain Uncommented) :
    dropLineComments false cs = cs := by
  induction cs with
  | nil => rfl
  | cons c cs ih =>
      rw [dropLineComments.eq_def]
      split
      · contradiction
      · rename_i heq
        cases heq
        exact absurd ((List.isChain_cons_cons.mp h).1 rfl) (by decide)
      · rename_i heq
        cases heq
        rw [if_neg (by simp), ih (List.isChain_of_isChain_cons h)]

theorem dropBlockComments_eq {cs : List Char} (h : cs.IsChain Uncommented) :
    dropBlockComments false cs = cs := by
  induction cs with
  | nil => rfl
  | cons c cs ih =>
      rw [dropBlockComments.eq_def]
      split
      · contradiction
      · contradiction
      · contradiction
      · rename_i heq
        cases heq
        exact absurd ((List.isChain_cons_cons.mp h).1 rfl) (by decide)
      · rename_i heq
        cases heq
        rw [ih (List.isChain_of_isChain_cons h)]

theorem stripComments_eq {cs : List Char} (h : cs.IsChain Uncommented) : stripComments cs = cs := by
  rw [stripComments, dropLineComments_eq h, dropBlockComments_eq h]

/-- Lines that are chains are one with the layout between them, if anything may stand behind
layout and behind the end of a line. -/
theorem Laid.isChain {r : Char → Char → Prop} {ls : List (List Char)} {t : List Char}
    (h : Laid ls t) (hgap : ∀ c, Token.isLayout c = true → ∀ d, r c d)
    (hls : ∀ l ∈ ls, l.IsChain r ∧ ∀ c, l.getLast? = some c → ∀ d, r c d) : t.IsChain r := by
  have hfree : ∀ {gap : List Char}, gap.all Token.isLayout = true → ∀ c ∈ gap, ∀ d, r c d :=
    fun hall c hc => hgap c (List.all_eq_true.mp hall c hc)
  induction h with
  | done hall => simpa using isChain_free_append (hfree hall) List.IsChain.nil
  | line hall _ ih =>
      obtain ⟨hl, hls⟩ := List.forall_mem_cons.mp hls
      exact isChain_free_append (hfree hall) (List.isChain_append.mpr
        ⟨hl.1, ih hls, fun c hc d _ => hl.2 c hc d⟩)

theorem Laid.uncommented {ls : List (List Char)} {t : List Char} (h : Laid ls t)
    (hls : ∀ l ∈ ls, Tight l) : t.IsChain Uncommented := by
  refine h.isChain (fun c hc d hslash => ?_) fun l hl =>
    ⟨(hls l hl).chain.imp fun _ _ h => h.2.1, fun c hc d =>
      (follows_of_isFree ((hls l hl).getLast?_free hc) d).2.1⟩
  rw [hslash] at hc
  exact absurd hc (by decide)

/-! ## Line ends -/

theorem isTab_of_not_isBlank {c : Char} (h : isBlank c = false) : isTab c = false ∧ c ≠ '\n' := by
  constructor
  · rw [← Bool.not_eq_true]
    intro htab
    rw [isTab, Bool.or_eq_true, beq_iff_eq, beq_iff_eq] at htab
    rcases htab with rfl | rfl <;> exact absurd h (by decide)
  · rintro rfl
    exact absurd h (by decide)

/-- A character that is no blank stays, whatever stands before it. -/
theorem squeezeLines_solid {c : Char} (h : isBlank c = false) (behind : Bool) (cs : List Char) :
    squeezeLines behind (c :: cs) = c :: squeezeLines false cs := by
  obtain ⟨htab, hfeed⟩ := isTab_of_not_isBlank h
  simp [squeezeLines, h, htab, hfeed]

theorem squeezeLines_spaced {l : List Char} (h : l.IsChain Follows)
    (hlast : ∀ c, l.getLast? = some c → isBlank c = false) (rest : List Char) :
    squeezeLines false (l ++ rest) = l ++ squeezeLines false rest := by
  induction l with
  | nil => rfl
  | cons c cs ih =>
      have hrest : ∀ d, cs.getLast? = some d → isBlank d = false := by
        intro d hd
        refine hlast d ?_
        rw [List.getLast?_cons, hd]
        rfl
      rw [List.isChain_cons] at h
      cases hc : isBlank c with
      | false =>
          rw [List.cons_append, squeezeLines_solid hc, ih h.2 hrest, List.cons_append]
      | true =>
          cases cs with
          | nil =>
              rw [hlast c rfl] at hc
              cases hc
          | cons d cs =>
              obtain ⟨rfl, hd⟩ := (h.1 d rfl).1 hc
              obtain ⟨htab, hfeed⟩ := isTab_of_not_isBlank hd
              have hreaches : reachesLineEnd (d :: cs ++ rest) = false := by
                simp [reachesLineEnd, htab, hfeed]
              have hstep : squeezeLines false (' ' :: (d :: cs ++ rest)) =
                  ' ' :: squeezeLines false (d :: cs ++ rest) := by
                rw [squeezeLines, hreaches]
                simp
              rw [List.cons_append, hstep, ih h.2 hrest]
              rfl

theorem Tight.squeezeLines_append {l : List Char} (h : Tight l) (behind : Bool)
    (rest : List Char) : squeezeLines behind (l ++ rest) = l ++ squeezeLines false rest := by
  obtain ⟨c, cs, rfl, hc, -⟩ := h.head
  have hbehind : squeezeLines behind (c :: cs ++ rest) = squeezeLines false (c :: cs ++ rest) := by
    rw [List.cons_append, squeezeLines_solid hc, squeezeLines_solid hc]
  rw [hbehind, squeezeLines_spaced h.chain fun _ => h.getLast?_solid]

theorem squeezeLines_gap {gap : List Char} (hgap : gap.all Token.isLayout = true) (behind : Bool)
    (rest : List Char) :
    ∃ gap' behind', gap'.all Token.isLayout = true ∧
      squeezeLines behind (gap ++ rest) = gap' ++ squeezeLines behind' rest := by
  induction gap generalizing behind with
  | nil => exact ⟨[], behind, rfl, rfl⟩
  | cons c gap ih =>
      simp only [List.all_cons, Bool.and_eq_true] at hgap
      rw [List.cons_append, squeezeLines]
      split
      · exact ih hgap.2 true
      · split
        · obtain ⟨gap', behind', hgap', heq⟩ := ih hgap.2 true
          exact ⟨'\n' :: gap', behind', by simpa using ⟨by decide, by simpa using hgap'⟩, by rw [heq]; rfl⟩
        · split
          · exact ih hgap.2 false
          · obtain ⟨gap', behind', hgap', heq⟩ := ih hgap.2 false
            exact ⟨c :: gap', behind', by simpa using ⟨hgap.1, by simpa using hgap'⟩,
              by rw [heq]; rfl⟩

theorem Laid.squeezeLines {ls : List (List Char)} {t : List Char} (h : Laid ls t)
    (hls : ∀ l ∈ ls, Tight l) (behind : Bool) : Laid ls (squeezeLines behind t) := by
  induction h generalizing behind with
  | @done gap hgap =>
      obtain ⟨gap', behind', hgap', heq⟩ := squeezeLines_gap hgap behind []
      rw [List.append_nil] at heq
      rw [heq]
      exact .done (by simpa [Skim.squeezeLines] using hgap')
  | @line gap rest l ls hgap _ ih =>
      obtain ⟨hl, hls⟩ := List.forall_mem_cons.mp hls
      obtain ⟨gap', behind', hgap', heq⟩ := squeezeLines_gap hgap behind (l ++ rest)
      rw [heq, hl.squeezeLines_append]
      exact .line hgap' (ih hls false)

/-! ## Runs of blanks -/

/-- A text with some of its runs of blanks inside a line made one blank. -/
inductive Squeezed : List Char → List Char → Prop where
  | nil : Squeezed [] []
  | keep (c : Char) {t u : List Char} : Squeezed t u → Squeezed (c :: t) (c :: u)
  | run {c d : Char} {tabs t u : List Char} : isTab c = true → isTab d = true →
      tabs.all isTab = true → Squeezed t u → Squeezed (c :: d :: (tabs ++ t)) (' ' :: u)

theorem Squeezed.keepAll (run : List Char) {t u : List Char} (h : Squeezed t u) :
    Squeezed (run ++ t) (run ++ u) := by
  induction run with
  | nil => exact h
  | cons c run ih => exact .keep c ih

theorem squeezed_squeezeTabs (t : List Char) : Squeezed t (squeezeTabs t) := by
  have hruns : ∀ runs : List (List Char), Squeezed runs.flatten (runs.flatMap fun run =>
      if 2 ≤ run.length && run.all isTab then [' '] else run) := by
    intro runs
    induction runs with
    | nil => exact .nil
    | cons run runs ih =>
        rw [List.flatten_cons, List.flatMap_cons]
        split
        · rename_i hrun
          simp only [Bool.and_eq_true, decide_eq_true_eq] at hrun
          obtain ⟨hlength, hall⟩ := hrun
          rcases run with _ | ⟨c, _ | ⟨d, tabs⟩⟩
          · simp at hlength
          · simp at hlength
          · simp only [List.all_cons, Bool.and_eq_true] at hall
            exact .run hall.1 hall.2.1 hall.2.2 ih
        · exact ih.keepAll run
  have h := hruns (t.splitBy fun a b => isTab a == isTab b)
  rwa [List.flatten_splitBy] at h

theorem isLayout_of_isTab {c : Char} (h : isTab c = true) : Token.isLayout c = true := by
  rw [isTab, Bool.or_eq_true, beq_iff_eq, beq_iff_eq] at h
  rcases h with rfl | rfl <;> decide

theorem isBlank_of_isTab {c : Char} (h : isTab c = true) : isBlank c = true :=
  isBlank_of_isLayout (isLayout_of_isTab h)

/-- Of layout only layout is left, and what stands behind it is squeezed by itself. -/
theorem Squeezed.exists_gap {t u : List Char} (h : Squeezed t u) {gap rest : List Char}
    (ht : t = gap ++ rest) (hgap : gap.all Token.isLayout = true)
    (hrest : ∀ c, rest.head? = some c → isTab c = false) :
    ∃ gap' u', gap'.all Token.isLayout = true ∧ u = gap' ++ u' ∧ Squeezed rest u' := by
  have hhead : ∀ {c : Char} {cs : List Char}, rest = c :: cs → isTab c = true → False := by
    rintro c cs rfl hc
    rw [hrest c rfl] at hc
    cases hc
  induction h generalizing gap with
  | nil =>
      obtain ⟨rfl, rfl⟩ := List.append_eq_nil_iff.mp ht.symm
      exact ⟨[], [], rfl, rfl, .nil⟩
  | @keep c t u h ih =>
      cases gap with
      | nil =>
          rw [List.nil_append] at ht
          exact ⟨[], c :: u, rfl, rfl, ht ▸ .keep c h⟩
      | cons g gap =>
          obtain ⟨rfl, htail⟩ := List.cons.inj ht
          simp only [List.all_cons, Bool.and_eq_true] at hgap
          obtain ⟨gap', u', hgap', rfl, hu'⟩ := ih htail hgap.2
          exact ⟨c :: gap', u', by simpa using ⟨hgap.1, by simpa using hgap'⟩, rfl, hu'⟩
  | @run c d tabs t u hc hd htabs h ih =>
      rcases gap with _ | ⟨g, _ | ⟨g', gap⟩⟩
      · exact (hhead ht.symm hc).elim
      · exact (hhead (List.cons.inj ht).2.symm hd).elim
      · have htail : tabs ++ t = gap ++ rest := (List.cons.inj (List.cons.inj ht).2).2
        simp only [List.all_cons, Bool.and_eq_true] at hgap
        rcases List.append_eq_append_iff.mp htail with ⟨more, rfl, hmore⟩ | ⟨more, rfl, hmore⟩
        · rw [List.all_append, Bool.and_eq_true] at hgap
          obtain ⟨gap', u', hgap', rfl, hu'⟩ := ih hmore hgap.2.2.2
          exact ⟨' ' :: gap', u', by simpa using ⟨by decide, by simpa using hgap'⟩, rfl, hu'⟩
        · cases more with
          | nil =>
              obtain ⟨gap', u', hgap', rfl, hu'⟩ :=
                ih (show _ = [] ++ rest by simpa using hmore.symm) rfl
              exact ⟨' ' :: gap', u', by simpa using ⟨by decide, by simpa using hgap'⟩, rfl, hu'⟩
          | cons e more =>
              rw [List.all_append, Bool.and_eq_true, List.all_cons, Bool.and_eq_true] at htabs
              exact (hhead hmore htabs.2.1).elim

theorem Squeezed.exists_spaced {l rest u : List Char} (h : Squeezed (l ++ rest) u)
    (hl : l.IsChain Follows) (hlast : ∀ c, l.getLast? = some c → isBlank c = false) :
    ∃ u', u = l ++ u' ∧ Squeezed rest u' := by
  induction l generalizing u with
  | nil => exact ⟨u, rfl, h⟩
  | cons c cs ih =>
      have hrest : ∀ d, cs.getLast? = some d → isBlank d = false := by
        intro d hd
        refine hlast d ?_
        rw [List.getLast?_cons, hd]
        rfl
      rw [List.isChain_cons] at hl
      generalize ht : c :: cs ++ rest = t at h
      cases h with
      | nil => cases ht
      | @keep _ t u h =>
          obtain ⟨rfl, rfl⟩ := List.cons.inj ht
          obtain ⟨u', rfl, hu'⟩ := ih h hl.2 hrest
          exact ⟨u', rfl, hu'⟩
      | @run _ d tabs t u hc hd htabs h =>
          obtain ⟨rfl, htail⟩ := List.cons.inj ht
          -- A run of two blanks has no place in a line.
          cases cs with
          | nil =>
              have hsolid := hlast c rfl
              rw [isBlank_of_isTab hc] at hsolid
              cases hsolid
          | cons e cs =>
              obtain ⟨rfl, -⟩ := List.cons.inj htail
              have hsolid := ((hl.1 e rfl).1 (isBlank_of_isTab hc)).2
              rw [isBlank_of_isTab hd] at hsolid
              cases hsolid

theorem Laid.squeezed {ls : List (List Char)} {t u : List Char} (h : Laid ls t)
    (hls : ∀ l ∈ ls, Tight l) (hu : Squeezed t u) : Laid ls u := by
  induction h generalizing u with
  | @done gap hgap =>
      obtain ⟨gap', u', hgap', rfl, hu'⟩ := hu.exists_gap (List.append_nil gap).symm hgap (by simp)
      cases hu'
      rw [List.append_nil]
      exact .done hgap'
  | @line gap rest l ls hgap _ ih =>
      obtain ⟨hl, hls⟩ := List.forall_mem_cons.mp hls
      obtain ⟨gap', u', hgap', rfl, hu'⟩ := hu.exists_gap rfl hgap (by
        obtain ⟨c, cs, rfl, hc, -⟩ := hl.head
        intro d hd
        cases hd
        exact (isTab_of_not_isBlank hc).1)
      obtain ⟨u'', rfl, hu''⟩ := hu'.exists_spaced hl.chain fun _ => hl.getLast?_solid
      exact .line hgap' (ih hls hu'')

/-! ## Ends -/

theorem trimStart_gap {gap : List Char} (hgap : gap.all Token.isLayout = true) (cs : List Char) :
    trimStart (gap ++ cs) = trimStart cs :=
  List.dropWhile_append_of_pos fun c hc => isBlank_of_isLayout (List.all_eq_true.mp hgap c hc)

theorem trimEnd_gap {gap : List Char} (hgap : gap.all Token.isLayout = true) : trimEnd gap = [] :=
  (trimEnd_eq_nil_iff gap).mpr (List.all_eq_true.mpr fun c hc =>
    isBlank_of_isLayout (List.all_eq_true.mp hgap c hc))

theorem Laid.trimEnd {ls : List (List Char)} {t : List Char} (h : Laid ls t)
    (hls : ∀ l ∈ ls, Tight l) : Laid ls (trimEnd t) := by
  induction h with
  | done hgap =>
      rw [trimEnd_gap hgap]
      exact .done rfl
  | @line gap rest l ls hgap _ ih =>
      obtain ⟨hl, hls⟩ := List.forall_mem_cons.mp hls
      have hrest := ih hls
      obtain ⟨cs, c, rfl, hc⟩ := hl.last
      rw [← List.append_assoc, trimEnd_append]
      split
      · rename_i hnil
        rw [hnil] at hrest
        rw [← List.append_assoc, trimEnd_append_singleton _ (not_isBlank_of_isFree hc),
          List.append_assoc]
        simpa using Laid.line hgap hrest
      · rw [List.append_assoc]
        exact .line hgap hrest

theorem Laid.trim {ls : List (List Char)} {t : List Char} (h : Laid ls t)
    (hls : ∀ l ∈ ls, Tight l) : Laid ls (trim t) := by
  refine Laid.trimEnd ?_ hls
  cases h with
  | @done gap hgap =>
      have hnil := trimStart_gap hgap []
      rw [List.append_nil] at hnil
      rw [hnil]
      exact .done rfl
  | @line gap rest l ls hgap h =>
      obtain ⟨c, cs, hl, hc, -⟩ := (hls l List.mem_cons_self).head
      have hstart : trimStart (l ++ rest) = l ++ rest := by
        rw [hl, List.cons_append, trimStart, List.dropWhile_cons_of_neg (by simp [hc])]
      rw [trimStart_gap hgap, hstart]
      have hline := Laid.line (l := l) (show List.all [] Token.isLayout = true from rfl) h
      exact hline

theorem Laid.clean {ls : List (List Char)} {t : List Char} (h : Laid ls t)
    (hls : ∀ l ∈ ls, Tight l) : Laid ls (clean t) := by
  rw [Skim.clean, stripComments_eq (h.uncommented hls)]
  exact ((h.squeezeLines hls false).squeezed hls (squeezed_squeezeTabs _)).trim hls

end Plain

end InoBlocks
