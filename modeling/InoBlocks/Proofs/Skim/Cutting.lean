import InoBlocks.Proofs.Skim.Fronts

/-!
# The statements of a plain text

A text with the lines of some statements is cut into those statements: each is a piece, but for a
choice with an alternative, which is put together from two.
-/

namespace InoBlocks

namespace Plain

open Text Skim

/-! ## Lines -/

theorem Steps.tight : ∀ p : Steps, ∀ l ∈ p.lines, Tight l
  | .done => nofun
  | .simple s next => List.forall_mem_cons.mpr ⟨s.line_tight, next.tight⟩
  | .compound h body next =>
      List.forall_mem_cons.mpr ⟨h.line_tight, List.forall_mem_append.mpr
        ⟨body.tight, List.forall_mem_cons.mpr ⟨brace_tight, next.tight⟩⟩⟩
  | .choice test body otherwise next =>
      List.forall_mem_cons.mpr ⟨(Header.branch test).line_tight, List.forall_mem_append.mpr
        ⟨body.tight, List.forall_mem_cons.mpr ⟨else_tight, List.forall_mem_append.mpr
          ⟨otherwise.tight, List.forall_mem_cons.mpr ⟨brace_tight, next.tight⟩⟩⟩⟩⟩

/-- A text with the lines of a statement with a body: its header, its body, and what is behind. -/
theorem Laid.exists_compound {header : List Char} {p : Steps} {ls : List (List Char)}
    {t : List Char} (h : Laid (header :: (p.lines ++ ['}'] :: ls)) t) :
    ∃ gap inside rest, gap.all Token.isLayout = true ∧ Laid p.lines inside ∧ Laid ls rest ∧
      t = gap ++ (header ++ (inside ++ '}' :: rest)) := by
  cases h with
  | @line gap t _ _ hgap h =>
      obtain ⟨inside, rest, hinside, hrest, rfl⟩ := h.exists_split
      exact ⟨gap, inside, rest, hgap, hinside, hrest, rfl⟩

theorem Laid.exists_alternative {header : List Char} {p q : Steps} {ls : List (List Char)}
    {t : List Char} (h : Laid (header :: (p.lines ++ elseChars :: (q.lines ++ ['}'] :: ls))) t) :
    ∃ gap inside inside' rest, gap.all Token.isLayout = true ∧ Laid p.lines inside ∧
      Laid q.lines inside' ∧ Laid ls rest ∧
      t = gap ++ (header ++ (inside ++ (elseChars ++ (inside' ++ '}' :: rest)))) := by
  cases h with
  | @line gap t _ _ hgap h =>
      obtain ⟨inside, t', hinside, h', rfl⟩ := h.exists_split
      obtain ⟨inside', rest, hinside', hrest, rfl⟩ := h'.exists_split
      exact ⟨gap, inside, inside', rest, hgap, hinside, hinside', hrest, rfl⟩

/-! ## Brackets -/

theorem nested_gap {gap : List Char} (h : gap.all Token.isLayout = true) : Nested gap := by
  refine nested_of_inert (List.all_eq_true.mpr fun c hc => ?_)
  have hlayout := List.all_eq_true.mp h c hc
  have hne : ∀ d : Char, Token.isLayout d = false → c ≠ d := by
    rintro d hd rfl
    rw [hlayout] at hd
    cases hd
  exact isInert_iff.mpr ⟨hne _ (by decide), hne _ (by decide), hne _ (by decide),
    hne _ (by decide), hne _ (by decide), hne _ (by decide)⟩

theorem nested_compound (h : Header) {text rest : List Char} (htext : Nested text)
    (hrest : Nested rest) : Nested (h.line ++ (text ++ '}' :: rest)) := by
  rw [Header.line, headerChars_eq, List.append_assoc, List.singleton_append]
  exact (headerFront_level h.isWordText h.inside_inert).nested.append (.braces htext hrest)

def elseFront : List Char :=
  "else ".toList

theorem elseChars_eq : elseChars = '}' :: ' ' :: (elseFront ++ ['{']) := by
  decide

/-- The brackets in the text of some statements nest. -/
theorem Steps.nested : ∀ (p : Steps) {t : List Char}, Laid p.lines t → Nested t
  | .done, t, h => by
      cases h with
      | done hgap => exact nested_gap hgap
  | .simple s next, t, h => by
      cases h with
      | line hgap h =>
          have hsemicolon : Nested [';'] := .inert (by decide) .nil
          exact (nested_gap hgap).append ((s.level.nested.append hsemicolon).append (next.nested h))
  | .compound header body next, t, h => by
      obtain ⟨gap, inside, rest, hgap, hinside, hrest, rfl⟩ := Laid.exists_compound h
      exact (nested_gap hgap).append
        (nested_compound header (body.nested hinside) (next.nested hrest))
  | .choice test body otherwise next, t, h => by
      obtain ⟨gap, inside, inside', rest, hgap, hinside, hinside', hrest, rfl⟩ :=
        Laid.exists_alternative h
      have helse : Nested (' ' :: (elseFront ++ '{' :: (inside' ++ '}' :: rest))) :=
        .inert (by decide) <| (nested_of_inert (by decide)).append <|
          .braces (otherwise.nested hinside') (next.nested hrest)
      rw [elseChars_eq, List.cons_append, List.cons_append, List.append_assoc,
        List.singleton_append]
      exact (nested_gap hgap).append (nested_compound (.branch test) (body.nested hinside) helse)

/-! ## Pieces -/

theorem emit_eq {piece pending : List Char} (hpending : ∀ c ∈ pending, isBlank c = true)
    (hhead : ∃ c cs, piece = c :: cs ∧ isBlank c = false)
    (hlast : ∃ cs c, piece = cs ++ [c] ∧ isBlank c = false) (rest : List (List Char)) :
    emit (piece.reverse ++ pending) rest = piece :: rest := by
  have htrim : trim (pending.reverse ++ piece) = piece :=
    trim_of_ends (fun c hc => hpending c (List.mem_reverse.mp hc)) hhead hlast
  obtain ⟨c, cs, rfl, -⟩ := hhead
  rw [emit, List.reverse_append, List.reverse_reverse, htrim]

theorem emit_blank {piece : List Char} (h : ∀ c ∈ piece, isBlank c = true)
    (rest : List (List Char)) : emit piece rest = rest := by
  have htrim : trim piece.reverse = [] := by
    have hstart : trimStart (piece.reverse ++ []) = [] :=
      List.dropWhile_append_of_pos fun c hc => h c (List.mem_reverse.mp hc)
    rw [List.append_nil] at hstart
    rw [trim, hstart]
    rfl
  rw [emit, htrim]

theorem chunksFrom_gap {gap : List Char} (hgap : gap.all Token.isLayout = true)
    {pending : List Char} (hpending : ∀ c ∈ pending, isBlank c = true) (rest : List Char) :
    ∃ pending', (∀ c ∈ pending', isBlank c = true) ∧
      chunksFrom pending 0 0 none (gap ++ rest) = chunksFrom pending' 0 0 none rest := by
  induction gap generalizing pending with
  | nil => exact ⟨pending, hpending, rfl⟩
  | cons c gap ih =>
      simp only [List.all_cons, Bool.and_eq_true] at hgap
      have hblank : ∀ d ∈ c :: pending, isBlank d = true :=
        List.forall_mem_cons.mpr ⟨isBlank_of_isLayout hgap.1, hpending⟩
      have hne : ∀ d : Char, Token.isLayout d = false → c ≠ d := by
        rintro d hd rfl
        rw [hgap.1] at hd
        cases hd
      have hinert : isInert c = true := isInert_iff.mpr ⟨hne _ (by decide), hne _ (by decide),
        hne _ (by decide), hne _ (by decide), hne _ (by decide), hne _ (by decide)⟩
      by_cases hfeed : c = '\n'
      · subst hfeed
        have hstep : chunksFrom pending 0 0 none ('\n' :: (gap ++ rest)) =
            emit ('\n' :: pending) (chunksFrom [] 0 0 none (gap ++ rest)) := by
          simp [chunksFrom]
        rw [List.cons_append, hstep, emit_blank hblank]
        exact ih hgap.2 (by simp)
      · rw [List.cons_append, chunksFrom_inert hinert (by simp [hfeed, hne ';' (by decide)])]
        exact ih hgap.2 hblank

section Piece

variable {pending : List Char} (hpending : ∀ c ∈ pending, isBlank c = true)

include hpending

theorem chunksFrom_line (s : Simple) (rest : List Char) :
    chunksFrom pending 0 0 none (s.line ++ rest) = s.line :: chunksFrom [] 0 0 none rest := by
  have hstep : ∀ pending, chunksFrom pending 0 0 none (';' :: rest) =
      emit (';' :: pending) (chunksFrom [] 0 0 none rest) := fun pending => by
    simp [chunksFrom]
  have hemit := emit_eq hpending s.line_tight.ends.1 s.line_tight.ends.2
    (chunksFrom [] 0 0 none rest)
  rw [Simple.line, List.append_assoc, List.singleton_append, chunksFrom_level s.level, hstep]
  simpa [Simple.line] using hemit

/-- A piece that ends with the brace that closes it. -/
theorem chunksFrom_braced {front text : List Char} (hfront : Level front)
    (hhead : ∃ c cs, front = c :: cs ∧ isBlank c = false) (htext : Nested text)
    (rest : List Char) :
    chunksFrom pending 0 0 none (front ++ '{' :: (text ++ '}' :: rest)) =
      (front ++ '{' :: (text ++ ['}'])) :: chunksFrom [] 0 0 none rest := by
  have hopen : ∀ pending cs, chunksFrom pending 0 0 none ('{' :: cs) =
      chunksFrom ('{' :: pending) (0 + 1) 0 none cs := fun pending cs => by simp [chunksFrom]
  have hclose : ∀ pending, chunksFrom pending (0 + 1) 0 none ('}' :: rest) =
      emit ('}' :: pending) (chunksFrom [] 0 0 none rest) := fun pending => by simp [chunksFrom]
  obtain ⟨c, cs, rfl, hc⟩ := hhead
  have hends : (∃ d ds, c :: cs ++ '{' :: (text ++ ['}']) = d :: ds ∧ isBlank d = false) ∧
      ∃ ds d, c :: cs ++ '{' :: (text ++ ['}']) = ds ++ [d] ∧ isBlank d = false :=
    ⟨⟨c, cs ++ '{' :: (text ++ ['}']), rfl, hc⟩,
      ⟨c :: cs ++ '{' :: text, '}', by simp, by decide⟩⟩
  have hemit := emit_eq hpending hends.1 hends.2 (chunksFrom [] 0 0 none rest)
  rw [chunksFrom_level hfront, hopen, chunksFrom_nested htext, hclose]
  simpa using hemit

end Piece

theorem chunksFrom_compound {pending : List Char} (hpending : ∀ c ∈ pending, isBlank c = true)
    (h : Header) {text : List Char} (htext : Nested text) (rest : List Char) :
    chunksFrom pending 0 0 none (h.line ++ (text ++ '}' :: rest)) =
      (h.line ++ (text ++ ['}'])) :: chunksFrom [] 0 0 none rest := by
  have hlevel := headerFront_level h.isWordText h.inside_inert
  obtain ⟨c, cs, hc, hblank, -⟩ := h.isWordText.tight.head
  have hhead : ∃ c cs, headerFront h.word h.inside = c :: cs ∧ isBlank c = false :=
    ⟨c, _, by rw [headerFront, hc]; rfl, hblank⟩
  have hcut := chunksFrom_braced hpending hlevel hhead htext rest
  simpa [Header.line, headerChars_eq] using hcut

/-! ## Statements -/

theorem isFinished_concat (cs : List Char) {c : Char} (h : c = ';' ∨ c = '}') :
    isFinished (cs ++ [c]) = true := by
  rw [isFinished, List.getLast?_concat]
  rcases h with rfl | rfl <;> rfl

/-- Whether the last of the pieces that were taken up is finished. -/
def IsReady (before : List (List Char)) : Prop :=
  ∀ previous, before.head? = some previous → isFinished previous = true

theorem isReady_cons {previous : List Char} {before : List (List Char)}
    (h : isFinished previous = true) : IsReady (previous :: before) := by
  rintro _ ⟨⟩
  exact h

/-- A piece behind a finished one is taken up by itself, unless it is an alternative. -/
theorem mergeStep_fresh {before : List (List Char)} {next : List Char} (hbefore : IsReady before)
    (hnext : startsWithWord "else" next = false) : mergeStep before next = next :: before := by
  cases before with
  | nil => rfl
  | cons previous before =>
      rw [mergeStep, continues, hnext, hbefore previous rfl]
      simp

theorem startsWithWord_line (s : Simple) : startsWithWord "else" s.line = false := by
  obtain ⟨w, c, rest, hline, hw, hc, hne⟩ := s.beginsPlainly
  rw [hline]
  exact startsWithWord_of_ne hw hc (by decide) (hne "else" (by decide))

theorem startsWithWord_header (h : Header) (cs : List Char) :
    startsWithWord "else" (h.line ++ cs) = false := by
  obtain ⟨rest, hline, hword⟩ := h.exists_front
  have hne : ∀ word ∈ ["if", "for", "while"], word.toList ≠ "else".toList := by decide
  rw [hline, List.append_assoc, List.cons_append]
  exact startsWithWord_of_ne h.isWordText (by decide) (by decide) (hne h.word hword)

theorem mergeStep_else (test : Condition) (cs ds : List Char) (before : List (List Char)) :
    mergeStep ((headerChars "if" test.chars ++ cs) :: before) (elseFront ++ '{' :: ds) =
      (headerChars "if" test.chars ++ cs ++ ' ' :: (elseFront ++ '{' :: ds)) :: before := by
  have hif : startsWithWord "if" (headerChars "if" test.chars ++ cs) = true := by
    rw [headerChars, startsWithWord, List.append_assoc, after?_eq_some.mpr rfl]
    rfl
  have helse : startsWithWord "else" (elseFront ++ '{' :: ds) = true := by
    have hfront : elseFront = "else".toList ++ [' '] := by decide
    rw [hfront, List.append_assoc, startsWithWord, after?_eq_some.mpr rfl]
    rfl
  rw [mergeStep, continues, hif, helse]
  rfl

/-- The texts of some statements, cut from one another. -/
inductive Cut : Steps → List (List Char) → Prop where
  | done : Cut .done []
  | simple (s : Simple) {next : Steps} {cs : List (List Char)} : Cut next cs →
      Cut (.simple s next) (s.line :: cs)
  | compound (h : Header) {body next : Steps} {inside : List Char} {cs : List (List Char)} :
      Laid body.lines inside → Cut next cs →
      Cut (.compound h body next) ((h.line ++ (inside ++ ['}'])) :: cs)
  | choice (test : Condition) {body otherwise next : Steps} {inside inside' : List Char}
      {cs : List (List Char)} : Laid body.lines inside → Laid otherwise.lines inside' →
      Cut next cs →
      Cut (.choice test body otherwise next)
        ((headerChars "if" test.chars ++ (inside ++ (elseChars ++ (inside' ++ ['}'])))) :: cs)

/-- A text with the lines of some statements is cut into them, behind finished ones. -/
theorem exists_cut : ∀ (p : Steps) {t : List Char} (pending : List Char)
    (before : List (List Char)), Laid p.lines t → (∀ c ∈ pending, isBlank c = true) →
    IsReady before →
    ∃ cs, Cut p cs ∧
      (chunksFrom pending 0 0 none t).foldl mergeStep before = cs.reverse ++ before
  | .done, t, pending, before, h, hpending, _ => by
      cases h with
      | done hgap =>
          obtain ⟨pending', hpending', hskip⟩ := chunksFrom_gap hgap hpending []
          rw [List.append_nil] at hskip
          refine ⟨[], .done, ?_⟩
          rw [hskip, chunksFrom, emit_blank hpending']
          rfl
  | .simple s next, t, pending, before, h, hpending, hbefore => by
      cases h with
      | @line gap rest _ _ hgap h =>
          obtain ⟨pending', hpending', hskip⟩ := chunksFrom_gap hgap hpending (s.line ++ rest)
          obtain ⟨cs, hcs, hfold⟩ := exists_cut next [] (s.line :: before) h (by simp)
            (isReady_cons (isFinished_concat _ (Or.inl rfl)))
          refine ⟨s.line :: cs, .simple s hcs, ?_⟩
          rw [hskip, chunksFrom_line hpending', List.foldl_cons,
            mergeStep_fresh hbefore (startsWithWord_line s), hfold]
          simp
  | .compound header body next, t, pending, before, h, hpending, hbefore => by
      obtain ⟨gap, inside, rest, hgap, hinside, hrest, rfl⟩ := Laid.exists_compound h
      obtain ⟨pending', hpending', hskip⟩ :=
        chunksFrom_gap hgap hpending (header.line ++ (inside ++ '}' :: rest))
      have hfinished : isFinished (header.line ++ (inside ++ ['}'])) = true := by
        rw [← List.append_assoc]
        exact isFinished_concat _ (Or.inr rfl)
      obtain ⟨cs, hcs, hfold⟩ := exists_cut next [] (_ :: before) hrest (by simp)
        (isReady_cons hfinished)
      refine ⟨_, .compound header hinside hcs, ?_⟩
      rw [hskip, chunksFrom_compound hpending' header (body.nested hinside), List.foldl_cons,
        mergeStep_fresh hbefore (startsWithWord_header _ _), hfold]
      simp
  | .choice test body otherwise next, t, pending, before, h, hpending, hbefore => by
      obtain ⟨gap, inside, inside', rest, hgap, hinside, hinside', hrest, rfl⟩ :=
        Laid.exists_alternative h
      have hfinished : isFinished
          (headerChars "if" test.chars ++ (inside ++ (elseChars ++ (inside' ++ ['}'])))) = true := by
        simp only [← List.append_assoc]
        exact isFinished_concat _ (Or.inr rfl)
      obtain ⟨cs, hcs, hfold⟩ := exists_cut next [] (_ :: before) hrest (by simp)
        (isReady_cons hfinished)
      refine ⟨_, .choice test hinside hinside' hcs, ?_⟩
      obtain ⟨pending', hpending', hskip⟩ := chunksFrom_gap hgap hpending
        (headerChars "if" test.chars ++ (inside ++ (elseChars ++ (inside' ++ '}' :: rest))))
      -- the choice is cut behind its first body, and the alternative is put to it again
      have hfirst := chunksFrom_compound hpending' (.branch test) (body.nested hinside)
        (' ' :: (elseFront ++ '{' :: (inside' ++ '}' :: rest)))
      have hblank : chunksFrom [] 0 0 none (' ' :: (elseFront ++ '{' :: (inside' ++ '}' :: rest))) =
          chunksFrom [' '] 0 0 none (elseFront ++ '{' :: (inside' ++ '}' :: rest)) :=
        chunksFrom_inert (by decide) (by simp)
      have hpieces : ∀ c ∈ [' '], isBlank c = true := by decide
      have hlevel : Level elseFront := level_of_inert (by decide) (by decide)
      have hhead : ∃ c cs, elseFront = c :: cs ∧ isBlank c = false :=
        ⟨'e', "lse ".toList, by decide, by decide⟩
      have hsecond := chunksFrom_braced hpieces hlevel hhead (otherwise.nested hinside') rest
      rw [Header.line, Header.word, Header.inside] at hfirst
      have htext : headerChars "if" test.chars ++
            (inside ++ (elseChars ++ (inside' ++ '}' :: rest))) =
          headerChars "if" test.chars ++
            (inside ++ '}' :: ' ' :: (elseFront ++ '{' :: (inside' ++ '}' :: rest))) := by
        simp [elseChars_eq]
      have hfresh : startsWithWord "else" (headerChars "if" test.chars ++ (inside ++ ['}'])) = false :=
        startsWithWord_header (.branch test) _
      rw [hskip, htext, hfirst, hblank, hsecond, List.foldl_cons, List.foldl_cons,
        mergeStep_fresh hbefore hfresh, mergeStep_else]
      simpa [elseChars_eq] using hfold

/-- The statements of a text with the lines of some statements. -/
theorem exists_statements {p : Steps} {t : List Char} (h : Laid p.lines t) :
    ∃ cs, Cut p cs ∧ statements t = cs := by
  obtain ⟨cs, hcs, hfold⟩ := exists_cut p [] [] h (by simp) nofun
  rw [List.append_nil] at hfold
  exact ⟨cs, hcs, by rw [statements, chunks, hfold, List.reverse_reverse]⟩

end Plain

end InoBlocks
