import InoBlocks.Proofs.Code.TracedEffects

/-!
# Statements say their traces

A loop or a choice puts a header in front of statements between braces; what its code says is what
the header says and then what the statements say.  By induction on statements as they are read,
every one of them becomes blocks whose code says its trace.
-/

namespace InoBlocks

open Word Code

namespace Code

/-! ## Loops -/

def Heads (header : String) (t : Trace) : Prop :=
  ∃ ws, ReadsAlone (header ++ " ").toList ws ∧ Marked ws t.spelled

theorem heads_condition {word : String} (hword : word ∈ ["if", "while"]) {s : Snippet}
    (hs : s.IsTold) : Heads (word ++ " (" ++ s.text ++ ")") (.ofNames s.names) := by
  obtain ⟨kind, hentry, hkind⟩ : ∃ kind, (kind, word) ∈ [(TokenKind.ifWord, "if"),
      (.whileWord, "while"), (.forWord, "for"), (.elseWord, "else")] ∧
        kind.beginsType = false ∧ mark? false ⟨kind, word⟩ = none := by
    simp only [List.mem_cons, List.not_mem_nil, or_false] at hword
    rcases hword with rfl | rfl
    · exact ⟨.ifWord, by decide, rfl, rfl⟩
    · exact ⟨.whileWord, by decide, rfl, rfl⟩
  obtain ⟨hfirm, hblank⟩ := firm_keyword _ hentry
  obtain ⟨ws, hspelling, hcalm, hnames⟩ := hs
  refine ⟨_, reads_headerText hfirm hblank hspelling.reads, ?_⟩
  rw [Trace.spelled_ofNames, ← hnames]
  exact ((hcalm.marked.cons_none (w := symbol .leftParen) rfl rfl).concat_none
    (w := symbol .rightParen) rfl rfl).cons_none hkind.1 hkind.2

theorem heads_loop {inside : String} {ws : List Word} {t : Trace}
    (hreads : ReadsAs inside.toList ws (tail true)) (hmarked : Marked ws t.spelled) :
    Heads ("for (" ++ inside ++ ")") (.loop :: t) := by
  obtain ⟨hfirm, hblank⟩ := firm_keyword (.forWord, "for") (by decide)
  have htext : "for" ++ " (" ++ inside ++ ")" = "for (" ++ inside ++ ")" :=
    String.toList_inj.mp (by simp)
  refine ⟨_, htext ▸ reads_headerText hfirm hblank hreads, ?_⟩
  exact ((hmarked.cons_none (w := symbol .leftParen) rfl rfl).concat_none
    (w := symbol .rightParen) rfl rfl).cons (w := ⟨.forWord, "for"⟩) rfl

/-- The words of the header of a loop that counts: the counter is declared, tested and stepped. -/
theorem marked_countWords (name : String) {us : List Word} (h : Calm us) :
    Marked (countWords name us)
      (.declares name :: .name name :: (names us).map .name ++ [.name name]) := by
  intro vs
  have hsplit : countWords name us ++ vs = ⟨.intType, "int"⟩ :: ⟨.identifier, name⟩ ::
      symbol .assign :: ⟨.number, "0"⟩ :: symbol .semicolon :: ⟨.identifier, name⟩ ::
        symbol .lessThan :: (us ++ symbol .semicolon :: ⟨.identifier, name⟩ ::
          symbol .increment :: vs) := by
    simp [countWords]
  rw [hsplit]
  change .declares name :: .name name :: marks false (us ++ _) = _
  rw [h.marked, List.append_assoc]
  rfl

theorem heads_count (name : String) (loops : Nat) {bound : Expr} (h : bound.Proper) :
    Heads ("for (" ++ countInside (Statement.counter loops)
        (bound.asNumber "10" .natural).text ++ ")")
      (.loop :: Node.countTrace name loops bound) := by
  have htold : (bound.asNumber "10" .natural).IsTold :=
    h.asNumber_isTold (Expr.isFieldText_natural (by decide))
  obtain ⟨ws, hspelling, hcalm, hnames⟩ := htold
  refine heads_loop (reads_count (counter_spec loops).1 hspelling) ?_
  have hmarked := marked_countWords (Statement.counter loops) hcalm
  rw [hnames, ← Trace.spelled_ofNames] at hmarked
  rw [Node.countTrace, Trace.spelled_append]
  exact hmarked

theorem marked_shown {e : Expr} {ws : List Word} (h : e.ShownIfAny ws) :
    Marked ws (Trace.ofNames e.inRaw).spelled := by
  rw [Trace.spelled_ofNames, Expr.inRaw, Occurrence.map_spelling_raw]
  rcases h with ⟨rfl, rfl⟩ | h
  · exact .nil
  · rw [← h.names_eq]
    exact h.calm.marked

theorem marked_init {init : Node} {ws : List Word} (h : InitWords init ws) :
    Marked ws init.initTrace.spelled := by
  cases h with
  | absent => exact .nil
  | bare h => exact marked_shown (Or.inr h)
  | @declaration l type name e ws h =>
      obtain ⟨ts, vs, rfl, htype, hvalue⟩ := h
      have hname := Marked.declared htype.ne_nil htype.begins name
      have hvs : Marked vs (Trace.ofNames e.inRaw).spelled := by
        rcases hvalue with ⟨rfl, rfl⟩ | ⟨us, rfl, hshown⟩
        · exact .nil
        · exact (marked_shown (Or.inr hshown)).cons_none (w := symbol .assign) rfl rfl
      have hall := hname.append hvs
      rw [List.append_assoc] at hall
      exact hall

def headerText (init : Node) (test update : Expr) : String :=
  "for (" ++ (init.source ++ "; " ++ test.source ++ "; " ++ update.source) ++ ")"

theorem trimmed_headerText (init : Node) (test update : Expr) :
    Text.trimmed (headerText init test update) = headerText init test update := by
  let inside := init.source ++ "; " ++ test.source ++ "; " ++ update.source
  have hhead : (headerText init test update).toList =
      'f' :: ("or (".toList ++ inside.toList ++ [')']) := by
    simp [headerText, inside]
  have hlast : (headerText init test update).toList = "for (".toList ++ inside.toList ++ [')'] := by
    simp [headerText, inside]
  exact Text.trimmed_of_ends ⟨_, _, hhead, by decide⟩ ⟨_, _, hlast, by decide⟩

section RawLoops

variable {ts : List Token} {init : Node} {test update : Expr} (hinit : init.IsInitIn ts)
  (htest : test.ProperIfAny) (hupdate : update.ProperIfAny)

include hinit htest hupdate

theorem heads_raw :
    Heads (headerText init test update) (.loop :: Node.headerTrace init test update) := by
  obtain ⟨us, hus, hfirst⟩ := hinit.exists_words
  obtain ⟨vs, hvs, hsecond⟩ := htest.exists_shown
  obtain ⟨ws, hws, hthird⟩ := hupdate.exists_shown
  have hreads : ReadsAs (init.source ++ "; " ++ test.source ++ "; " ++ update.source).toList
      (us ++ [symbol .semicolon] ++ (vs ++ [symbol .semicolon] ++ ws)) (tail true) := by
    have hall := hfirst.ended.seq (hsecond.ended.seq hthird)
    simpa using hall.reads
  have hparts := ((marked_init hus).concat_none (w := symbol .semicolon) rfl rfl).append
    (((marked_shown hvs).concat_none (w := symbol .semicolon) rfl rfl).append (marked_shown hws))
  rw [← List.append_assoc (Trace.spelled _)] at hparts
  refine heads_loop hreads ?_
  rw [Node.headerTrace, Trace.spelled_append, Trace.spelled_append]
  exact hparts

theorem loopHeader_eq :
    Blocks.loopHeader init test update = .ok (headerText init test update) := by
  have hchecked : ∀ {e : Expr}, e.ProperIfAny → Blocks.checked e = .ok () := fun h => by
    obtain ⟨_, heq, -⟩ := Blocks.converts_checked h
    exact heq
  rw [Blocks.loopHeader, hinit.isInit.sourceFault?_eq_none]
  dsimp only
  rw [hchecked htest, hchecked hupdate]
  refine congrArg Except.ok (String.toList_inj.mp ?_)
  simp [headerText]

end RawLoops

section Loops

open Mark (braced)

variable {bs : List Block} {t : Nat → Trace} (hbody : WritesAll bs t)

theorem givesTrace_braced {p : Place} (hp : IsIndent p.indent) {g : Gen String}
    {header text : String} {t u : Trace} {ws : List Word} {xs ys : List String}
    (hgives : Gives g (Statement.braced p header text) xs ys) (hheader : Heads header t)
    (hreads : ReadsLine text ws) (hmarked : Marked ws u.spelled) (hassigns : AssignsIn xs u) :
    GivesTrace ReadsLine g (t ++ braced u) := by
  obtain ⟨us, hus, hheads⟩ := hheader
  refine ⟨_, _, xs, ys, hgives, reads_braced hp hus hreads, ?_, hassigns.mono fun m hm => ?_⟩
  · rw [Trace.spelled_append, Trace.spelled_braced]
    exact hheads.append hmarked.braced
  · exact List.mem_append_right t (Mark.mem_braced hm)

include hbody

theorem exists_whileLoop {test : Expr} (h : test.Proper) :
    ∃ b, Blocks.whileLoop test (.ok bs) = .ok b ∧
      Writes b fun loops => .ofNames test.coming ++ braced (t loops) := by
  obtain ⟨b, -, hgives, hvalue⟩ := exists_valueIn h
  refine ⟨.ofTexts "controls_whileUntil" [("MODE", "WHILE")] [.value "BOOL" b, .chain "DO" bs],
    by rw [Blocks.whileLoop, hvalue]; rfl, fun p hp => ?_⟩
  obtain ⟨text, ws, xs, ys, hgives', hreads, hmarked, hassigns⟩ :=
    hbody.statements (p := p.deeper) hp
  let s : Shape := ⟨"controls_whileUntil", [("MODE", .text "WHILE")],
    slots [.value "BOOL" b, .chain "DO" bs]⟩
  have hcondition : Gives (Statement.loopCondition s) test.coded.text [] [] :=
    Shape.gives_unguarded (show s.chain "BOOL" = [part b] from rfl) hgives "false"
  have hinside := gives_body (show s.chain "DO" = parts bs from rfl) hgives'
  have hheads := heads_condition (show "while" ∈ ["if", "while"] by simp) h.asValue_isTold
  rw [part_statement (by decide) rfl]
  refine givesTrace_braced hp ((hcondition.bind (hinside.map _)).of_eq ?_) hheads hreads hmarked
    hassigns
  refine congrArg (Statement.braced p · text) (String.toList_inj.mp ?_)
  simp [Expr.asValue]

theorem exists_repetition {init : Node} {test update bound : Expr} (name : String)
    (hrepetitions : Blocks.repetitions? init test update = some bound) (h : bound.Proper) :
    ∃ b, Blocks.forLoop init test update (.ok bs) = .ok b ∧ Writes b fun loops =>
      .loop :: Node.countTrace name loops bound ++ braced (t (loops + 1)) := by
  obtain ⟨b, hb, hgives, -⟩ := exists_valueIn h
  refine ⟨.ofTexts "controls_repeat_ext" [] [.value "TIMES" b, .chain "DO" bs], ?_,
    fun p hp => ?_⟩
  · rw [Blocks.forLoop, hrepetitions]
    change (Blocks.timesInput bound >>= _) = _
    rw [Blocks.timesInput, Blocks.value?, Blocks.checked, h.sourceFault?_eq_none, hb]
    rfl
  obtain ⟨text, ws, xs, ys, hgives', hreads, hmarked, hassigns⟩ :=
    hbody.statements (p := p.deeper.inLoop) hp
  let s : Shape := ⟨"controls_repeat_ext", [], slots [.value "TIMES" b, .chain "DO" bs]⟩
  have htimes := Expr.gives_number (show s.chain "TIMES" = [part b] from rfl) hb hgives "10"
    .natural
  have hinside := gives_body (show s.chain "DO" = parts bs from rfl) hgives'
  rw [part_statement (by decide) rfl]
  refine givesTrace_braced hp ((htimes.bind (hinside.map _)).of_eq ?_) (heads_count name p.loops h)
    hreads hmarked hassigns
  refine congrArg (Statement.braced p · text) (String.toList_inj.mp ?_)
  simp [countInside, Expr.asNumber]

theorem exists_rawLoop {ts : List Token} {init : Node} {test update : Expr}
    (hnone : Blocks.repetitions? init test update = none) (hinit : init.IsInitIn ts)
    (htest : test.ProperIfAny) (hupdate : update.ProperIfAny) :
    ∃ b, Blocks.forLoop init test update (.ok bs) = .ok b ∧ Writes b fun loops =>
      .loop :: Node.headerTrace init test update ++ braced (t loops) := by
  refine ⟨.ofTexts "arduino_raw_block" [("CODE", headerText init test update)]
    [.chain "STATEMENTS" bs], ?_, fun p hp => ?_⟩
  · rw [Blocks.forLoop, hnone]
    dsimp only
    rw [loopHeader_eq hinit htest hupdate]
    rfl
  obtain ⟨text, ws, xs, ys, hgives, hreads, hmarked, hassigns⟩ :=
    hbody.statements (p := p.deeper) hp
  let s : Shape := ⟨"arduino_raw_block", [("CODE", .text (headerText init test update))],
    slots [.chain "STATEMENTS" bs]⟩
  have hinside := gives_body (show s.chain "STATEMENTS" = parts bs from rfl) hgives
  rw [part_statement (by decide) rfl]
  refine givesTrace_braced hp ((hinside.map _).of_eq ?_) (heads_raw hinit htest hupdate) hreads
    hmarked hassigns
  exact congrArg (Statement.braced p · text) (trimmed_headerText init test update)

end Loops

/-! ## Choices -/

/-- An arm of a choice, with what its code says. -/
structure TracedArm where
  test : Expr
  block : Block
  body : List Block
  inside : Nat → Trace
  proper : test.Proper
  gives : Gives (part block).value test.coded [] []
  writes : WritesAll body inside

namespace TracedArm

def inputs (a : TracedArm) : Block × List Block :=
  (a.block, a.body)

def trace (a : TracedArm) (loops : Nat) : Trace :=
  .ofNames a.test.coming ++ Mark.braced (a.inside loops)

end TracedArm

section Choices

variable {p : Place} (hp : IsIndent p.indent)

include hp

/-- The text and the words of an arm: the header, without what stands in front of its `if`, and the
statements. -/
theorem TracedArm.exists_words (a : TracedArm) : ∃ text us ws xs ys,
    Gives (Shape.statements p.deeper (parts a.body)) text xs ys ∧
    Spelling a.test.coded.text us true ∧ ReadsLine text ws ∧
    Marked (⟨.ifWord, "if"⟩ :: symbol .leftParen :: us ++ [symbol .rightParen] ++
      (symbol .leftBrace :: ws ++ [symbol .rightBrace])) (a.trace p.loops).spelled ∧
    AssignsIn xs (a.trace p.loops) := by
  obtain ⟨text, ws, xs, ys, hgives, hreads, hmarked, hassigns⟩ :=
    a.writes.statements (p := p.deeper) hp
  obtain ⟨us, hspelling, hcalm, hnames⟩ := a.proper.coded_tells
  refine ⟨text, us, ws, xs, ys, hgives, hspelling, hreads, ?_, hassigns.mono fun m hm => ?_⟩
  · have htest := ((hcalm.marked.cons_none (w := symbol .leftParen) rfl rfl).concat_none
      (w := symbol .rightParen) rfl rfl).cons_none (w := ⟨.ifWord, "if"⟩) rfl rfl
    rw [hnames, ← Trace.spelled_ofNames] at htest
    rw [TracedArm.trace, Trace.spelled_append, Trace.spelled_braced]
    exact htest.append hmarked.braced
  · exact List.mem_append_right _ (Mark.mem_braced hm)

/-- The arms behind the first one, in front of the last one. -/
theorem exists_arms {s : Shape} {arms : List TracedArm} {number fuel : Nat} (hnumber : 0 < number)
    (hfuel : arms.length < fuel)
    (harms : ∀ i (h : i < arms.length),
      s.chain (Branch.condition (number + i)) = [part arms[i].block] ∧
        s.chain (Branch.statements (number + i)) = parts arms[i].body)
    (hend : s.chain (Branch.condition (number + arms.length)) = [] ∧
      s.chain (Branch.statements (number + arms.length)) = [])
    {last : List Statement.Arm} {ws : List Word} {t : Trace}
    (hlines : LinesRead (Statement.armLines p "\x7d " last) (symbol .rightBrace :: ws))
    (hmarked : Marked ws t.spelled) :
    ∃ heads ws' xs ys, Gives (Statement.arms s p fuel number) heads xs ys ∧
      LinesRead (Statement.armLines p "\x7d " (heads ++ last)) (symbol .rightBrace :: ws') ∧
      Marked ws' (Trace.spelled (arms.flatMap (·.trace p.loops) ++ t)) ∧
      AssignsIn xs (arms.flatMap (·.trace p.loops)) := by
  induction arms generalizing number fuel with
  | nil =>
      obtain ⟨fuel, rfl⟩ : ∃ k, fuel = k + 1 := ⟨fuel - 1, by simp at hfuel; omega⟩
      exact ⟨[], ws, [], [], gives_no_arm hnumber hend.1 hend.2 fuel, hlines, hmarked, .nil _⟩
  | cons a arms ih =>
      obtain ⟨fuel, rfl⟩ : ∃ k, fuel = k + 1 := ⟨fuel - 1, by omega⟩
      have hfirst := harms 0 (by simp)
      obtain ⟨heads, ws', xs', ys', hrest, hlines', hmarked', hassigns'⟩ :=
        ih (show 0 < number + 1 by omega) (show arms.length < fuel by simpa using hfuel)
          (fun i hi => by
            have hnext := harms (i + 1) (by simpa using hi)
            rwa [show number + (i + 1) = number + 1 + i by omega] at hnext)
          (by rwa [List.length_cons, show number + (arms.length + 1) = number + 1 + arms.length by
            omega] at hend)
      obtain ⟨text, us, vs, xs, ys, hgives, hspelling, hreads, harm, hassigns⟩ := a.exists_words hp
      have hstep := gives_arm hfirst.1 (Shape.gives_unguarded hfirst.1 a.gives "false")
        (gives_body hfirst.2 hgives) hrest
      rw [if_neg (by omega)] at hstep
      refine ⟨_, _, xs ++ xs', ys ++ ys', hstep,
        linesRead_arm hp hlines' (reads_elseIf hspelling) hreads, ?_, ?_⟩
      · rw [List.flatMap_cons, List.append_assoc (a.trace p.loops), Trace.spelled_append]
        exact (harm.append hmarked').cons_none (w := ⟨.elseWord, "else"⟩) rfl rfl
      · rw [List.flatMap_cons]
        exact hassigns.append hassigns'

/-- What the last arm of a choice says, if it has statements. -/
def lastTrace (others : List Block) (t : Trace) : Trace :=
  if others.isEmpty then [] else Mark.braced t

theorem exists_last_arm {s : Shape} {others : List Block} {u : Nat → Trace}
    (hchain : s.chain "ELSE" = parts others) (hwrites : WritesAll others u) :
    ∃ last ws xs ys, Gives (Statement.otherwise s p) last xs ys ∧
      LinesRead (Statement.armLines p "\x7d " last) (symbol .rightBrace :: ws) ∧
      Marked ws (lastTrace others (u p.loops)).spelled ∧
      AssignsIn xs (lastTrace others (u p.loops)) := by
  cases others with
  | nil =>
      refine ⟨[], [], [], [], ?_, .one (reads_closing hp), .nil, .nil _⟩
      rw [Statement.otherwise, hchain]
      exact .pure _
  | cons b others =>
      obtain ⟨text, ws, xs, ys, hgives, hreads, hmarked, hassigns⟩ :=
        hwrites.statements (p := p.deeper) hp
      have hheader : ReadsAlone ("\x7d " ++ "else" ++ " ").toList
          ([symbol .rightBrace] ++ [⟨.elseWord, "else"⟩]) := by
        have hall := reads_brace_blank.seq reads_else
        rwa [← String.toList_append, ← String.append_assoc] at hall
      have hclosing : LinesRead (Statement.armLines p "\x7d " []) _ := .one (reads_closing hp)
      refine ⟨[("else", text)], _, xs, ys, ?_, linesRead_arm hp hclosing hheader hreads, ?_,
        hassigns.mono fun m hm => Mark.mem_braced hm⟩
      · rw [Statement.otherwise, hchain]
        exact (gives_body hchain hgives).map _
      · rw [List.append_nil]
        change Marked _ (Trace.spelled (Mark.braced _))
        rw [Trace.spelled_braced]
        exact hmarked.braced.cons_none (w := ⟨.elseWord, "else"⟩) rfl rfl

omit hp

/-- The code of a choice says what its arms say, one behind the other. -/
theorem writes_choice {arms : List TracedArm} (hne : arms ≠ []) {is : List Input}
    {others : List Block} {u : Nat → Trace}
    (hothers : ∀ name, (Block.ofTexts "controls_if" [] is).chain name =
      if "ELSE" = name then others else []) (hwrites : WritesAll others u) :
    Writes (.ofTexts "controls_if" [] (Block.armInputs 0 (arms.map TracedArm.inputs) ++ is))
      fun loops => arms.flatMap (·.trace loops) ++ lastTrace others (u loops) := by
  intro p hp
  obtain ⟨a, arms, rfl⟩ := List.exists_cons_of_ne_nil hne
  obtain ⟨harm, hend, helse⟩ := chains_choice ((a :: arms).map TracedArm.inputs) hothers
  rw [List.length_map, List.length_cons, Nat.add_comm] at hend
  have harms : ∀ i (h : i < (a :: arms).length), _ ∧ _ := fun i h => by
    have hchains := harm i (by simpa using h)
    rwa [List.getElem_map] at hchains
  have hfuel : arms.length <
      (slots (Block.armInputs 0 ((a :: arms).map TracedArm.inputs) ++ is)).length := by
    rw [slots_length, List.length_append, Block.length_armInputs, List.length_map, List.length_cons]
    omega
  obtain ⟨last, ws, xs, ys, hlast, hlines, hmarked, hassigns⟩ := exists_last_arm hp helse hwrites
  obtain ⟨heads, ws', xs', ys', hrest, hlines', hmarked', hassigns'⟩ := exists_arms hp
    Nat.one_pos hfuel (fun i hi => by
      rw [Nat.add_comm 1 i]
      exact harms (i + 1) (Nat.succ_lt_succ hi)) hend hlines hmarked
  obtain ⟨text, us, vs, zs, zs', hgives, hspelling, hreads, hfirst, hassigns''⟩ := a.exists_words hp
  obtain ⟨htest, hbody⟩ := harms 0 (by simp)
  have hheads := gives_arm htest (Shape.gives_unguarded htest a.gives "false")
    (gives_body hbody hgives) hrest
  rw [if_pos rfl] at hheads
  have hheader : ReadsAlone ("" ++ ("if" ++ " (" ++ a.test.coded.text ++ ")") ++ " ").toList
      ([] ++ (⟨.ifWord, "if"⟩ :: symbol .leftParen :: us ++ [symbol .rightParen])) := by
    rw [String.empty_append]
    exact reads_if hspelling
  refine ⟨_, _, _, zs' ++ ys' ++ ys, ?_, (linesRead_arm hp hlines' hheader hreads).joinLines, ?_,
    (hassigns''.append hassigns').append hassigns⟩
  · rw [part_statement (by decide) rfl]
    exact hheads.bind (hlast.map _)
  · have hall := hfirst.append hmarked'
    rw [← Trace.spelled_append, ← List.append_assoc (a.trace p.loops)] at hall
    exact hall

end Choices

/-! ## Statements -/

/-- What the arms say that a statement gives behind an `else`. -/
def ArmsTraced (n : Node) (number : Nat) : Prop :=
  ∃ (arms : List TracedArm) (is : List Input) (others : List Block) (u : Nat → Trace),
    (Blocks.part n).arms number =
      .ok (Block.armInputs number (arms.map TracedArm.inputs) ++ is) ∧
    (∀ name, (Block.ofTexts "controls_if" [] is).chain name =
      if "ELSE" = name then others else []) ∧
    WritesAll others u ∧
    ∀ loops, n.behindElse (n.trace loops) =
      arms.flatMap (·.trace loops) ++ lastTrace others (u loops)

/-- A statement becomes blocks in either place it may stand in, and their code says its trace. -/
structure IsTraced (n : Node) : Prop where
  body : ∃ bs, Blocks.body n = .ok bs ∧ bs.isEmpty = n.isIdle ∧ WritesAll bs (n.trace ·)
  arms : ∀ number, ArmsTraced n number

namespace IsTraced

theorem of_body {n : Node} (hbranch : n.isBranch = false) {bs : List Block}
    (hpart : Blocks.part n = Blocks.Part.ofBody (Blocks.part n).body)
    (hbody : Blocks.body n = .ok bs) (hidle : bs.isEmpty = n.isIdle)
    (hwrites : WritesAll bs (n.trace ·)) : IsTraced n := by
  refine ⟨⟨bs, hbody, hidle, hwrites⟩, fun number =>
    ⟨[], [.chain "ELSE" bs], bs, (n.trace ·), ?_, Block.chain_else "controls_if" [] bs, hwrites,
      fun loops => ?_⟩⟩
  · rw [hpart]
    change (Blocks.body n >>= fun body => .ok [Input.chain "ELSE" body]) = _
    rw [hbody]
    rfl
  · rw [Node.behindElse, hbranch, List.flatMap_nil, List.nil_append, lastTrace, hidle]
    rfl

theorem of_block {n : Node} (hbranch : n.isBranch = false) (hidle : n.isIdle = false)
    {block : Unit → Blocks.Convert Block} (hpart : Blocks.part n = Blocks.Part.ofBlock block)
    (h : ∃ b, block () = .ok b ∧ Writes b (n.trace ·)) : IsTraced n := by
  obtain ⟨b, hb, hwrites⟩ := h
  have hbody : Blocks.body n = .ok [b] := by
    rw [Blocks.body, hpart]
    change (block () >>= fun b => .ok [b]) = _
    rw [hb]
    rfl
  exact of_body hbranch (by rw [hpart]; rfl) hbody hidle.symm (.one hwrites)

theorem empty : IsTraced .empty where
  body := ⟨[], rfl, rfl, .nil⟩
  arms _ := ⟨[], [], [], fun _ => [], rfl, fun _ => (ite_self _).symm, .nil, fun _ => rfl⟩

theorem of_ne_empty {n : Node} (h : n ≠ .empty → IsTraced n) : IsTraced n := by
  by_cases hn : n = .empty
  · exact hn ▸ empty
  · exact h hn

/-- Statements in a list, those in braces among them passed over. -/
theorem statements {ns : List Node} (h : ∀ n ∈ ns, n.isEmpty = false ∧ IsTraced n) :
    ∃ bs, Blocks.statements ns = .ok bs ∧ bs.isEmpty = Node.areIdle ns ∧
      WritesAll bs (Node.traceAll · ns) := by
  induction ns with
  | nil => exact ⟨[], rfl, rfl, .nil⟩
  | cons n ns ih =>
      obtain ⟨⟨hn, htraced⟩, hns⟩ := List.forall_mem_cons.mp h
      obtain ⟨cs, hcs, hidle, hwrites⟩ := ih hns
      cases hblock : n.isBlock with
      | true =>
          refine ⟨cs, ?_, ?_, ?_⟩
          · rw [Blocks.statements, hn, hblock, hcs]
            rfl
          · rw [Node.areIdle, hblock, hidle]
            rfl
          · simpa [Node.traceAll, hblock] using hwrites
      | false =>
          obtain ⟨bs, hbs, hidle', hwrites'⟩ := htraced.body
          refine ⟨bs ++ cs, ?_, ?_, ?_⟩
          · rw [Blocks.statements, hn, hblock, hcs]
            change Blocks.body n >>= _ = _
            rw [hbs]
            rfl
          · rw [Node.areIdle, hblock, ← hidle, ← hidle']
            cases bs <;> rfl
          · simpa [Node.traceAll, hblock] using hwrites'.append hwrites

theorem branch (l : Location) {test : Expr} {consequent alternative : Node} (htest : test.Proper)
    (hthen : IsTraced consequent) (helse : IsTraced alternative) :
    IsTraced (.branch l test consequent alternative) := by
  obtain ⟨b, -, hgives, hvalue⟩ := exists_valueIn htest
  obtain ⟨bs, hbs, -, hwrites⟩ := hthen.body
  let a : TracedArm := ⟨test, b, bs, (consequent.trace ·), htest, hgives, hwrites⟩
  have harms : ∀ number, ∃ (arms : List TracedArm) (is : List Input) (others : List Block)
      (u : Nat → Trace), (Blocks.part (.branch l test consequent alternative)).arms number =
        .ok (Block.armInputs number ((a :: arms).map TracedArm.inputs) ++ is) ∧
      (∀ name, (Block.ofTexts "controls_if" [] is).chain name =
        if "ELSE" = name then others else []) ∧
      WritesAll others u ∧
      ∀ loops, (Node.branch l test consequent alternative).trace loops =
        (a :: arms).flatMap (·.trace loops) ++ lastTrace others (u loops) := by
    intro number
    obtain ⟨arms, is, others, u, hrest, hothers, hwrites', htrace⟩ := helse.arms (number + 1)
    refine ⟨arms, is, others, u, ?_, hothers, hwrites', fun loops => ?_⟩
    · change (Blocks.arm number test (Blocks.body consequent) >>= fun first =>
        (Blocks.part alternative).arms (number + 1) >>= fun rest => .ok (first ++ rest)) = _
      rw [Blocks.arm, hvalue, hbs, hrest]
      rfl
    · rw [Node.trace, htrace loops, List.flatMap_cons, ← List.append_assoc]
      rfl
  refine ⟨?_, fun number => ?_⟩
  · obtain ⟨arms, is, others, u, hrest, hothers, hwrites', htrace⟩ := harms 0
    refine ⟨[.ofTexts "controls_if" []
      (Block.armInputs 0 ((a :: arms).map TracedArm.inputs) ++ is)], ?_, rfl, .one ?_⟩
    · change ((Blocks.part (.branch l test consequent alternative)).arms 0 >>= _) = _
      rw [hrest]
      rfl
    · simpa [htrace] using writes_choice (List.cons_ne_nil a arms) hothers hwrites'
  · obtain ⟨arms, is, others, u, hrest, hothers, hwrites', htrace⟩ := harms number
    exact ⟨a :: arms, is, others, u, hrest, hothers, hwrites', htrace⟩

end IsTraced

/-- Every statement that is read becomes blocks, and their code says its trace. -/
theorem isTraced {ts : List Token} {n : Node} (h : n.IsStatementIn ts) : IsTraced n := by
  induction h with
  | effect l h => exact .of_block rfl rfl rfl (becomes_effect h.proper)
  | exit l h => exact .of_body rfl rfl (show Blocks.body _ = .ok [] from rfl) rfl .nil
  | declaration l hdeclared h =>
      exact .of_block rfl rfl rfl (exists_declaration _ _ h.properIfAny)
  | block l h ih =>
      obtain ⟨bs, hbs, hidle, hwrites⟩ := IsTraced.statements fun n hn =>
        ⟨Blocks.isEmpty_of_isStatement (h n hn).isStatement, ih n hn⟩
      exact .of_body rfl rfl hbs hidle hwrites
  | branch l htest hthen helse ihthen ihelse =>
      exact .branch l htest.proper (.of_ne_empty ihthen) (.of_ne_empty ihelse)
  | @forLoop l init body test update hinit htest hupdate hbody ih =>
      obtain ⟨bs, hbs, -, hwrites⟩ := (IsTraced.of_ne_empty ih).body
      refine .of_block rfl rfl rfl ?_
      change ∃ b, Blocks.forLoop init test update (Blocks.body body) = _ ∧ _
      rw [hbs]
      cases hrepetitions : Blocks.repetitions? init test update with
      | some bound =>
          obtain ⟨_, _, name, _, -, htrace⟩ := Node.trace_forLoop_of_some hrepetitions
          simp only [htrace]
          exact exists_repetition hwrites name hrepetitions
            (Blocks.proper_of_repetitions? htest.properIfAny hrepetitions)
      | none =>
          simp only [Node.trace_forLoop_of_none hrepetitions]
          exact exists_rawLoop hwrites hrepetitions hinit htest.properIfAny hupdate.properIfAny
  | @whileLoop l test body htest hbody ih =>
      obtain ⟨bs, hbs, -, hwrites⟩ := (IsTraced.of_ne_empty ih).body
      refine .of_block rfl rfl rfl ?_
      change ∃ b, Blocks.whileLoop test (Blocks.body body) = _ ∧ _
      rw [hbs]
      exact exists_whileLoop hwrites htest.proper

end Code

end InoBlocks
