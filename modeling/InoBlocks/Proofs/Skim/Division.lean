import InoBlocks.Proofs.Check.Calls
import InoBlocks.Proofs.Skim.Levels
import Mathlib.Data.List.Chain
import Mathlib.Data.List.Induction

/-!
# A text divided into statements

A text is cut where a scan over it finds the end of a statement, and nowhere else.  What stands
between two cuts is a piece, but for the blanks at its ends: so nothing but blanks gets lost, and
nothing is cut between quotes.  `Divided` says this of a text and its pieces, and `Grouped` says
which pieces are put together to one statement.

The scan goes on by one character at a time.  `cutAlong` cuts a text along it, and comes to the
same as `chunksFrom`, which takes an escape between quotes in one step.
-/

namespace InoBlocks

namespace Text

/-! ## Blanks at the ends -/

theorem trimEnd_split (cs : List Char) :
    ∃ blanks, isAllBlank blanks = true ∧ cs = trimEnd cs ++ blanks := by
  induction cs with
  | nil => exact ⟨[], rfl, rfl⟩
  | cons c cs ih =>
      obtain ⟨blanks, hblanks, hcs⟩ := ih
      rw [trimEnd]
      split
      · rename_i hnil
        rw [hnil, List.nil_append] at hcs
        by_cases hc : isBlank c = true
        · rw [if_pos hc]
          refine ⟨c :: cs, ?_, rfl⟩
          rw [isAllBlank, List.all_cons, hc, hcs]
          exact hblanks
        · rw [if_neg hc]
          exact ⟨blanks, hblanks, congrArg (c :: ·) hcs⟩
      · rename_i d ds hkept
        rw [hkept] at hcs
        exact ⟨blanks, hblanks, congrArg (c :: ·) hcs⟩

/-- Around what is left of a trimmed text there are blanks only. -/
theorem trim_split (cs : List Char) :
    ∃ gap gap', (∀ c ∈ gap, isBlank c = true) ∧ (∀ c ∈ gap', isBlank c = true) ∧
      cs = gap ++ trim cs ++ gap' := by
  obtain ⟨gap, hgap, hstart⟩ := Check.trimStart_split cs
  obtain ⟨gap', hgap', hend⟩ := trimEnd_split (trimStart cs)
  refine ⟨gap, gap', List.all_eq_true.mp hgap, List.all_eq_true.mp hgap', ?_⟩
  rw [trim, List.append_assoc, ← hend, ← hstart]

theorem joinWith_concat (separator piece : List Char) {pieces : List (List Char)}
    (h : pieces ≠ []) : joinWith separator (pieces ++ [piece]) =
      joinWith separator pieces ++ separator ++ piece := by
  induction pieces with
  | nil => exact absurd rfl h
  | cons first pieces ih =>
      cases pieces with
      | nil => rfl
      | cons second pieces =>
          have hrest := ih (List.cons_ne_nil second pieces)
          rw [List.cons_append] at hrest
          simp only [List.cons_append, joinWith, hrest, List.append_assoc]

end Text

namespace Skim

open Text

/-! ## The scan -/

/-- Whether a place in a text is between quotes, and behind a backslash there. -/
inductive Quoting where
  | outside
  | inside (quote : Char)
  | escaped (quote : Char)
  deriving DecidableEq, Repr

namespace Quoting

def step : Quoting → Char → Quoting
  | outside, c => if c == '"' || c == '\'' then inside c else outside
  | inside quote, c =>
      if c == '\\' then escaped quote else if c == quote then outside else inside quote
  | escaped quote, _ => inside quote

end Quoting

/-- What a scan over a text knows of a place: whether it is between quotes, and how many brackets
are open. -/
structure Scan where
  quoting : Quoting := .outside
  braces : Nat := 0
  parens : Nat := 0
  deriving DecidableEq, Repr

namespace Scan

/-- The scan behind one more character.  Brackets between quotes do not count, and neither do
closing ones that close none. -/
def step (s : Scan) (c : Char) : Scan :=
  match s.quoting with
  | .outside =>
      { quoting := Quoting.outside.step c
        braces := if c == '{' then s.braces + 1 else if c == '}' then s.braces - 1 else s.braces
        parens := if c == '(' then s.parens + 1 else if c == ')' then s.parens - 1 else s.parens }
  | quoting => { s with quoting := quoting.step c }

/-- Whether a statement ends with a character: outside of quotes, a brace that leaves none open,
and a semicolon or a line feed where no bracket is open. -/
def ends (s : Scan) (c : Char) : Bool :=
  s.quoting == .outside &&
    (c == '}' && decide (s.braces ≤ 1) ||
      (c == ';' || c == '\n') && s.braces == 0 && s.parens == 0)

def behind (cs : List Char) : Scan :=
  cs.foldl step {}

theorem behind_concat (cs : List Char) (c : Char) : behind (cs ++ [c]) = (behind cs).step c := by
  rw [behind, List.foldl_append]
  rfl

theorem quoting_step (s : Scan) (c : Char) : (s.step c).quoting = s.quoting.step c := by
  unfold step
  split
  · rename_i hs
    rw [hs]
  · rfl

end Scan

/-- The pieces of a text, cut along a scan.  `pending` is the piece that is read, back to front. -/
def cutAlong (pending : List Char) (s : Scan) : List Char → List (List Char)
  | [] => emit pending []
  | c :: cs =>
      if s.ends c then emit (c :: pending) (cutAlong [] (s.step c) cs)
      else cutAlong (c :: pending) (s.step c) cs

section CutAlong

variable {pending cs : List Char} {s : Scan} {c : Char}

theorem cutAlong_ends (h : s.ends c = true) :
    cutAlong pending s (c :: cs) = emit (c :: pending) (cutAlong [] (s.step c) cs) := by
  rw [cutAlong, if_pos h]

theorem cutAlong_passes (h : s.ends c = false) :
    cutAlong pending s (c :: cs) = cutAlong (c :: pending) (s.step c) cs := by
  rw [cutAlong, h, if_neg Bool.false_ne_true]

end CutAlong

/-- The pieces of a text are those that are cut along a scan. -/
theorem chunksFrom_eq_cutAlong (pending : List Char) (braces parens : Nat) (quote : Option Char)
    (cs : List Char) :
    chunksFrom pending braces parens quote cs =
      cutAlong pending ⟨quote.elim .outside .inside, braces, parens⟩ cs := by
  fun_induction chunksFrom pending braces parens quote cs with
  | case1 => rfl
  -- between quotes: a backslash at the end of the text, an escape, and any other character
  | case2 pending braces parens c quote hslash =>
      rw [cutAlong_passes rfl]
      rfl
  | case3 pending braces parens c quote hslash d cs ih =>
      obtain rfl := eq_of_beq hslash
      rw [cutAlong_passes rfl, cutAlong_passes rfl, ih]
      rfl
  | case4 pending braces parens c cs quote hslash ih =>
      have hstep : (Quoting.inside quote).step c =
          (if c == quote then none else some quote).elim .outside .inside := by
        rw [Quoting.step, if_neg hslash]
        split
        · rfl
        · rfl
      rw [cutAlong_passes rfl, ih, ← hstep]
      rfl
  -- outside of quotes: a quote, the brackets, the ends of statements, and any other character
  | case5 pending braces parens c cs hquote ih =>
      have hc : c = '"' ∨ c = '\'' := by simpa using hquote
      rcases hc with rfl | rfl
      · rw [cutAlong_passes rfl, ih]
        rfl
      · rw [cutAlong_passes rfl, ih]
        rfl
  | case6 pending braces parens c cs hquote hopen ih =>
      obtain rfl := eq_of_beq hopen
      rw [cutAlong_passes rfl, ih]
      rfl
  | case7 pending braces parens c cs hquote hopen hclose ih =>
      obtain rfl := eq_of_beq hclose
      rw [cutAlong_passes rfl, ih]
      rfl
  | case8 pending braces parens c cs hquote hopen hclose hbrace ih =>
      obtain rfl := eq_of_beq hbrace
      rw [cutAlong_passes rfl, ih]
      rfl
  | case9 pending braces parens c cs hquote hopen hclose hbrace hend hlast ih =>
      obtain rfl := eq_of_beq hend
      have hzero : 0 = braces - 1 := by omega
      rw [cutAlong_ends (by simp [Scan.ends, hlast]), ih, hzero]
      rfl
  | case10 pending braces parens c cs hquote hopen hclose hbrace hend hlast ih =>
      obtain rfl := eq_of_beq hend
      rw [cutAlong_passes (by simp [Scan.ends, hlast]), ih]
      rfl
  | case11 pending braces parens c cs hquote hopen hclose hbrace hend hcut ih =>
      simp only [Bool.and_eq_true, Bool.or_eq_true, beq_iff_eq] at hcut
      obtain ⟨⟨rfl | rfl, rfl⟩, rfl⟩ := hcut
      · rw [cutAlong_ends rfl, ih]
        rfl
      · rw [cutAlong_ends rfl, ih]
        rfl
  | case12 pending braces parens c cs hquote hopen hclose hbrace hend hcut ih =>
      rw [cutAlong_passes (by simpa [Scan.ends, hend] using hcut), ih]
      simp [Scan.step, Quoting.step, hquote, hopen, hclose, hbrace, hend]

/-! ## Cuts and quotes -/

def IsCut (cs : List Char) : Prop :=
  ∃ front c, cs = front ++ [c] ∧ (Scan.behind front).ends c = true

theorem isCut_concat {cs : List Char} {c : Char} :
    IsCut (cs ++ [c]) ↔ (Scan.behind cs).ends c = true := by
  constructor
  · rintro ⟨front, d, heq, hends⟩
    obtain ⟨rfl, hd⟩ := List.append_inj' heq rfl
    rw [List.cons.injEq] at hd
    exact hd.1 ▸ hends
  · intro hends
    exact ⟨cs, c, rfl, hends⟩

def Outside (cs : List Char) : Prop :=
  (Scan.behind cs).quoting = .outside

theorem outside_nil : Outside [] := rfl

theorem outside_concat {cs : List Char} {c : Char} :
    Outside (cs ++ [c]) ↔ (Scan.behind cs).quoting.step c = .outside := by
  rw [Outside, Scan.behind_concat, Scan.quoting_step]

theorem IsCut.outside {cs : List Char} (h : IsCut cs) : Outside cs := by
  obtain ⟨front, c, rfl, hends⟩ := h
  simp only [Scan.ends, Bool.and_eq_true, Bool.or_eq_true, beq_iff_eq] at hends
  obtain ⟨hquoting, hc⟩ := hends
  rw [outside_concat, hquoting]
  rcases hc with ⟨rfl, -⟩ | ⟨⟨rfl | rfl, -⟩, -⟩ <;> rfl

theorem quoting_behind (cs : List Char) :
    Outside cs ∨ ∃ quote, (quote = '"' ∨ quote = '\'') ∧
      ((Scan.behind cs).quoting = .inside quote ∨ (Scan.behind cs).quoting = .escaped quote) := by
  induction cs using List.reverseRecOn with
  | nil => exact Or.inl outside_nil
  | append_singleton cs c ih =>
      rw [outside_concat, Scan.behind_concat, Scan.quoting_step]
      rcases ih with houtside | ⟨quote, hquote, hinside | hescaped⟩
      · rw [houtside, Quoting.step]
        by_cases hc : (c == '"' || c == '\'') = true
        · rw [if_pos hc]
          exact Or.inr ⟨c, by simpa using hc, Or.inl rfl⟩
        · rw [if_neg hc]
          exact Or.inl rfl
      · rw [hinside, Quoting.step]
        by_cases hslash : (c == '\\') = true
        · rw [if_pos hslash]
          exact Or.inr ⟨quote, hquote, Or.inr rfl⟩
        · rw [if_neg hslash]
          by_cases hc : (c == quote) = true
          · rw [if_pos hc]
            exact Or.inl rfl
          · rw [if_neg hc]
            exact Or.inr ⟨quote, hquote, Or.inl rfl⟩
      · rw [hescaped]
        exact Or.inr ⟨quote, hquote, Or.inl rfl⟩

theorem outside_concat_blank {cs : List Char} {c : Char} (hc : isBlank c = true) :
    Outside (cs ++ [c]) ↔ Outside cs := by
  have hmark : ∀ d, isBlank d = false → (c == d) = false := by
    intro d hd
    rw [beq_eq_false_iff_ne]
    rintro rfl
    rw [hc] at hd
    cases hd
  rw [outside_concat]
  rcases quoting_behind cs with houtside | ⟨quote, hquote, hinside | hescaped⟩
  · rw [houtside, Quoting.step, hmark '"' (by decide), hmark '\'' (by decide)]
    exact iff_of_true rfl houtside
  · have hopen : isBlank quote = false := by rcases hquote with rfl | rfl <;> decide
    rw [Outside, hinside, Quoting.step, hmark '\\' (by decide), hmark quote hopen]
    exact iff_of_false Quoting.noConfusion Quoting.noConfusion
  · rw [Outside, hescaped]
    exact iff_of_false Quoting.noConfusion Quoting.noConfusion

theorem outside_append_blanks {cs gap : List Char} (hgap : ∀ c ∈ gap, isBlank c = true) :
    Outside (cs ++ gap) ↔ Outside cs := by
  induction gap using List.reverseRecOn with
  | nil => rw [List.append_nil]
  | append_singleton gap c ih =>
      obtain ⟨hgap, hc⟩ := List.forall_mem_append.mp hgap
      rw [← List.append_assoc, outside_concat_blank (hc c List.mem_cons_self), ih hgap]

/-! ## Divided texts -/

/-- A piece of a text, behind blanks and what is before them.  It is not empty and has no blanks at
its ends.  No statement ends inside of it, and between it and the piece before it one does.  It
does not begin between quotes. -/
structure IsPiece (before gap text : List Char) : Prop where
  blank : ∀ c ∈ gap, isBlank c = true
  ne_nil : text ≠ []
  trimmed : trim text = text
  parted : before = [] ∨ ∃ front, front <+: gap ∧ IsCut (before ++ front)
  whole : ∀ front, front <+: text → front ≠ [] → front ≠ text → ¬ IsCut (before ++ gap ++ front)
  start : Outside (before ++ gap)

/-- A text behind another one, divided: blanks, a piece, blanks, a piece, and so on, and blanks at
the end.  A piece does not end between quotes, but for the last one of a text that leaves a quote
open. -/
inductive Divided : (before cs : List Char) → (pieces : List (List Char)) → Prop where
  | blanks {before gap : List Char} (hgap : ∀ c ∈ gap, isBlank c = true) : Divided before gap []
  | piece {before gap text rest : List Char} {pieces : List (List Char)}
      (htext : IsPiece before gap text)
      (hstop : Outside (before ++ gap ++ text) ∨
        pieces = [] ∧ ¬ Outside (before ++ gap ++ text ++ rest))
      (hrest : Divided (before ++ gap ++ text) rest pieces) :
      Divided before (gap ++ text ++ rest) (text :: pieces)

/-- Blanks at the end of what is before a piece are blanks in front of the piece. -/
theorem IsPiece.widen {before gap gap' text : List Char} (h : IsPiece (before ++ gap) gap' text)
    (hgap : ∀ c ∈ gap, isBlank c = true) : IsPiece before (gap ++ gap') text := by
  have hassoc : before ++ gap ++ gap' = before ++ (gap ++ gap') := List.append_assoc before gap gap'
  refine ⟨List.forall_mem_append.mpr ⟨hgap, h.blank⟩, h.ne_nil, h.trimmed, ?_,
    hassoc ▸ h.whole, hassoc ▸ h.start⟩
  rcases h.parted with hnil | ⟨front, hfront, hcut⟩
  · exact Or.inl (List.append_eq_nil_iff.mp hnil).1
  · rw [List.append_assoc] at hcut
    exact Or.inr ⟨gap ++ front, (List.prefix_append_right_inj gap).mpr hfront, hcut⟩

theorem Divided.widen {before gap cs : List Char} {pieces : List (List Char)}
    (h : Divided (before ++ gap) cs pieces) (hgap : ∀ c ∈ gap, isBlank c = true) :
    Divided before (gap ++ cs) pieces := by
  cases h with
  | blanks hblank => exact .blanks (List.forall_mem_append.mpr ⟨hgap, hblank⟩)
  | @piece _ gap' text rest pieces htext hstop hrest =>
      rw [List.append_assoc before gap gap'] at hstop hrest
      rw [List.append_assoc gap', ← List.append_assoc gap, ← List.append_assoc]
      exact .piece (htext.widen hgap) hstop hrest

/-- What stands between two cuts is a piece when it is trimmed, unless it is blank. -/
theorem isPiece_of_trimmed {before gap text gap' : List Char}
    (hcut : before = [] ∨ IsCut before) (hstart : Outside before)
    (hwhole : ∀ front, front <+: gap ++ text ++ gap' → front ≠ [] → front ≠ gap ++ text ++ gap' →
      ¬ IsCut (before ++ front))
    (hgap : ∀ c ∈ gap, isBlank c = true) (hne : text ≠ []) (htrim : trim text = text) :
    IsPiece before gap text := by
  refine ⟨hgap, hne, htrim, ?_, ?_, (outside_append_blanks hgap).mpr hstart⟩
  · rcases hcut with hnil | hcut
    · exact Or.inl hnil
    · refine Or.inr ⟨[], List.nil_prefix, ?_⟩
      rwa [List.append_nil]
  · intro front hfront hnil hshort
    rw [List.append_assoc]
    refine hwhole (gap ++ front) ?_ (List.append_ne_nil_of_right_ne_nil gap hnil) ?_
    · rw [List.append_assoc, List.prefix_append_right_inj]
      exact hfront.trans (List.prefix_append text gap')
    · -- a front as long as the piece and the blanks behind it is all of the piece
      intro heq
      have hlength := congrArg List.length heq
      simp only [List.length_append] at hlength
      have hle := hfront.length_le
      exact hshort (hfront.eq_of_length (by omega))

/-- A text between two cuts, in front of a text that is divided. -/
theorem Divided.emit {before piece rest : List Char} {pieces : List (List Char)}
    (hcut : before = [] ∨ IsCut before) (hstart : Outside before)
    (hwhole : ∀ front, front <+: piece → front ≠ [] → front ≠ piece → ¬ IsCut (before ++ front))
    (hstop : Outside (before ++ piece) ∨ pieces = [] ∧ ¬ Outside (before ++ piece ++ rest))
    (h : Divided (before ++ piece) rest pieces) :
    Divided before (piece ++ rest) (emit piece.reverse pieces) := by
  obtain ⟨gap, gap', hgap, hgap', hpiece⟩ := trim_split piece
  have htrim : trim (trim piece) = trim piece := trim_trim piece
  rw [Skim.emit, List.reverse_reverse]
  split
  · rename_i hnil
    rw [hnil, List.append_nil] at hpiece
    refine h.widen ?_
    rw [hpiece]
    exact List.forall_mem_append.mpr ⟨hgap, hgap'⟩
  · rename_i hne
    generalize trim piece = text at hpiece htrim hne
    subst hpiece
    have htext : IsPiece before gap text :=
      isPiece_of_trimmed hcut hstart hwhole hgap hne htrim
    have hend : Outside (before ++ gap ++ text) ∨
        pieces = [] ∧ ¬ Outside (before ++ gap ++ text ++ (gap' ++ rest)) := by
      rw [← List.append_assoc, ← List.append_assoc] at hstop
      rw [← List.append_assoc, ← outside_append_blanks hgap']
      exact hstop
    rw [← List.append_assoc, ← List.append_assoc] at h
    rw [List.append_assoc (gap ++ text)]
    exact .piece htext hend (h.widen hgap')

/-- What is known of a piece while it is read: it begins at a cut, and none has been passed
since. -/
structure Pending (before piece : List Char) : Prop where
  cut : before = [] ∨ IsCut before
  start : Outside before
  whole : ∀ front, front <+: piece → front ≠ [] → ¬ IsCut (before ++ front)

namespace Pending

variable {before piece : List Char} {c : Char}

theorem empty : Pending [] [] := by
  refine ⟨Or.inl rfl, outside_nil, fun front hfront hne => ?_⟩
  exact absurd (List.prefix_nil.mp hfront) hne

/-- The piece goes on with a character with which no statement ends. -/
theorem push (h : Pending before piece)
    (hc : (Scan.behind (before ++ piece)).ends c = false) : Pending before (piece ++ [c]) := by
  refine ⟨h.cut, h.start, fun front hfront hne => ?_⟩
  rcases List.prefix_concat_iff.mp hfront with rfl | hfront
  · rw [← List.append_assoc, isCut_concat, hc]
    exact Bool.false_ne_true
  · exact h.whole front hfront hne

/-- The next piece begins behind a character with which a statement ends. -/
theorem of_ends (hc : (Scan.behind (before ++ piece)).ends c = true) :
    Pending (before ++ (piece ++ [c])) [] := by
  have hcut : IsCut (before ++ (piece ++ [c])) := by
    rw [← List.append_assoc, isCut_concat]
    exact hc
  refine ⟨Or.inr hcut, hcut.outside, fun front hfront hne => ?_⟩
  exact absurd (List.prefix_nil.mp hfront) hne

/-- Whatever character closes the piece, no statement ends before it. -/
theorem whole_concat (h : Pending before piece) : ∀ front, front <+: piece ++ [c] → front ≠ [] →
    front ≠ piece ++ [c] → ¬ IsCut (before ++ front) := by
  intro front hfront hne hshort
  rcases List.prefix_concat_iff.mp hfront with heq | hfront
  · exact absurd heq hshort
  · exact h.whole front hfront hne

/-- The pieces that are cut along a scan divide the text. -/
theorem divided_cutAlong {cs : List Char} (h : Pending before piece) :
    Divided before (piece ++ cs) (cutAlong piece.reverse (Scan.behind (before ++ piece)) cs) := by
  -- the induction is on what is still to be read; `Pending` holds of each piece on the way
  induction cs generalizing before piece with
  | nil =>
      have hstop : Outside (before ++ piece) ∨
          ([] : List (List Char)) = [] ∧ ¬ Outside (before ++ piece ++ []) := by
        rw [List.append_nil]
        by_cases houtside : Outside (before ++ piece)
        · exact Or.inl houtside
        · exact Or.inr ⟨rfl, houtside⟩
      exact Divided.emit h.cut h.start (fun front hfront hne _ => h.whole front hfront hne) hstop
        (.blanks (List.forall_mem_nil _))
  | cons c cs ih =>
      have hreverse : c :: piece.reverse = (piece ++ [c]).reverse := by simp
      have hscan : (Scan.behind (before ++ piece)).step c =
          Scan.behind (before ++ (piece ++ [c])) := by
        rw [← List.append_assoc, Scan.behind_concat]
      have htext : piece ++ c :: cs = piece ++ [c] ++ cs := by simp
      cases hends : (Scan.behind (before ++ piece)).ends c with
      | true =>
          have hnext := of_ends hends
          have hrest := ih hnext
          rw [List.append_nil] at hrest
          rw [cutAlong_ends hends, hreverse, hscan, htext]
          exact Divided.emit h.cut h.start h.whole_concat (Or.inl hnext.start) hrest
      | false =>
          rw [cutAlong_passes hends, hreverse, hscan, htext]
          exact ih (h.push hends)

end Pending

theorem divided_chunks (cs : List Char) : Divided [] cs (chunks cs) := by
  rw [chunks, chunksFrom_eq_cutAlong]
  exact Pending.empty.divided_cutAlong

/-! ## Pieces in groups -/

/-- Pieces in groups, one group for each statement.  The pieces of a group, joined, go on with the
next one of them, and all of them do not go on with the first one of the next group. -/
structure Grouped (groups : List (List (List Char))) : Prop where
  ne_nil : ∀ group ∈ groups, group ≠ []
  goesOn : ∀ group ∈ groups, ∀ front next, front ≠ [] → front ++ [next] <+: group →
    continues (joinWith [' '] front) next = true
  apart : groups.IsChain fun group group' =>
    ∀ next, group'.head? = some next → continues (joinWith [' '] group) next = false

namespace Grouped

variable {groups : List (List (List Char))} {group : List (List Char)} {next : List Char}

theorem nil : Grouped [] :=
  ⟨List.forall_mem_nil _, List.forall_mem_nil _, .nil⟩

theorem put (h : Grouped (groups ++ [group]))
    (hnext : continues (joinWith [' '] group) next = true) :
    Grouped (groups ++ [group ++ [next]]) := by
  obtain ⟨hbefore, hgroup⟩ := List.forall_mem_append.mp h.goesOn
  have hne := h.ne_nil group (List.mem_append_right groups List.mem_cons_self)
  obtain ⟨hchain, -, hlast⟩ := List.isChain_append.mp h.apart
  refine ⟨?_, ?_, ?_⟩
  · refine List.forall_mem_append.mpr ⟨fun g hg => h.ne_nil g (List.mem_append_left _ hg), ?_⟩
    simp
  · refine List.forall_mem_append.mpr ⟨hbefore, List.forall_mem_singleton.mpr ?_⟩
    intro front piece hfront hprefix
    rcases List.prefix_concat_iff.mp hprefix with heq | hprefix
    · obtain ⟨rfl, hpiece⟩ := List.append_inj' heq rfl
      rw [List.cons.injEq] at hpiece
      rw [hpiece.1]
      exact hnext
    · exact hgroup group List.mem_cons_self front piece hfront hprefix
  · refine List.isChain_append.mpr ⟨hchain, .singleton _, ?_⟩
    intro g hg g' hg' piece hpiece
    obtain rfl : group ++ [next] = g' := by simpa using hg'
    rw [List.head?_append_of_ne_nil _ hne] at hpiece
    exact hlast g hg group rfl piece hpiece

/-- A piece with which the last group does not go on. -/
theorem fresh (h : Grouped groups) (hnext : ∀ group ∈ groups.getLast?,
    continues (joinWith [' '] group) next = false) : Grouped (groups ++ [[next]]) := by
  refine ⟨?_, ?_, ?_⟩
  · refine List.forall_mem_append.mpr ⟨h.ne_nil, ?_⟩
    simp
  · refine List.forall_mem_append.mpr ⟨h.goesOn, List.forall_mem_singleton.mpr ?_⟩
    intro front piece hfront hprefix
    have hlength := hprefix.length_le
    have hpos := List.length_pos_iff.mpr hfront
    simp only [List.length_append, List.length_cons, List.length_nil] at hlength
    omega
  · refine List.isChain_append.mpr ⟨h.apart, .singleton _, ?_⟩
    intro g hg g' hg' piece hpiece
    obtain rfl : [next] = g' := by simpa using hg'
    obtain rfl : next = piece := by simpa using hpiece
    exact hnext g hg

end Grouped

/-- Pieces that are taken up one by one come to be groups. -/
theorem exists_grouped (pieces : List (List Char)) :
    ∃ groups, Grouped groups ∧ groups.flatten = pieces ∧
      pieces.foldl mergeStep [] = (groups.map (joinWith [' '])).reverse := by
  induction pieces using List.reverseRecOn with
  | nil => exact ⟨[], .nil, rfl, rfl⟩
  | append_singleton pieces next ih =>
      obtain ⟨groups, hgroups, rfl, hfold⟩ := ih
      rw [List.foldl_append, hfold, List.foldl_cons, List.foldl_nil]
      rcases List.eq_nil_or_concat' groups with rfl | ⟨before, group, rfl⟩
      · exact ⟨[[next]], Grouped.nil.fresh nofun, rfl, rfl⟩
      · have hne := hgroups.ne_nil group (List.mem_append_right before List.mem_cons_self)
        rw [List.map_append, List.reverse_append, List.map_singleton, List.reverse_singleton,
          List.singleton_append, mergeStep]
        by_cases hnext : continues (joinWith [' '] group) next = true
        · refine ⟨before ++ [group ++ [next]], hgroups.put hnext, by simp, ?_⟩
          rw [if_pos hnext]
          simp [joinWith_concat _ _ hne]
        · refine ⟨before ++ [group] ++ [[next]], hgroups.fresh ?_, by simp, ?_⟩
          · intro g hg
            obtain rfl : group = g := by simpa using hg
            simpa using hnext
          · rw [if_neg hnext]
            simp [joinWith]

/-- Cutting a text into statements loses nothing but blanks: the text is divided into pieces, cut
outside of quotes and where statements end only, and each statement is a group of neighbouring
pieces with single blanks between them. -/
theorem statements_divided (cs : List Char) :
    ∃ groups : List (List (List Char)), Divided [] cs groups.flatten ∧ Grouped groups ∧
      statements cs = groups.map (joinWith [' ']) := by
  obtain ⟨groups, hgrouped, hflatten, hfold⟩ := exists_grouped (chunks cs)
  refine ⟨groups, ?_, hgrouped, ?_⟩
  · rw [hflatten]
    exact divided_chunks cs
  · rw [statements, hfold, List.reverse_reverse]

/-- The body of a choice on a line of its own, a semicolon between quotes, an empty statement, and
a quote that is left open. -/
example : statements "if (a)\n  b(';');;\n c = \"d;\n ".toList =
    ["if (a) b(';');".toList, ";".toList, "c = \"d;".toList] := by
  decide +kernel

end Skim

end InoBlocks
