import InoBlocks.Proofs.Code.CanonicalSketch
import InoBlocks.Proofs.Code.SideEffects
import InoBlocks.Proofs.Code.SqueezedWords
import InoBlocks.Proofs.Code.TracedStatements

/-!
# Sketches say their traces

A sketch that was read becomes blocks, one by one of its functions and declarations, and what is
generated from these says the traces of the two functions, behind lines that say the traces of the
declarations.
-/

namespace InoBlocks

open Word Code Grammar

namespace Code

/-! ## From sketch to blocks -/

/-- Blocks whose code says the traces of two bodies and of some declarations. -/
structure Says (w : Workspace) (setup loop : Node) (declarations : List Node) : Prop where
  setup : WritesAll w.setup (setup.trace ·)
  loop : WritesAll w.loop (loop.trace ·)
  globals : List.Forall₂ (fun b n => (b.type = "variables_declare" ∨ b.type = "variables_define") ∧
    Writes b (Node.trace · n)) w.globals declarations

theorem exists_takeUp {ts : List Token} {n : Node} (hn : n.IsTopLevelIn ts)
    {done : Blocks.Converted} {setup loop : Node} {declarations : List Node}
    (h : Says done.workspace setup loop declarations) :
    ∃ c, Blocks.takeUp done n = .ok c ∧
      Says c.workspace ((n.bodyOf? "setup").getD setup) ((n.bodyOf? "loop").getD loop)
        (declarations ++ [n].filter fun n => (Program.variableName? n).isSome) := by
  cases hn with
  | @function l name type ps body hdeclared hps front back hts hparen hbody =>
      obtain ⟨bs, hbs, -, hwrites⟩ := (isTraced hbody).body
      have hnone : declarations ++ [Node.function l name type ps body].filter
          (fun n => (Program.variableName? n).isSome) = declarations := List.append_nil _
      rw [hnone, Blocks.takeUp, hbs]
      by_cases hsetup : name = "setup"
      · subst hsetup
        exact ⟨_, rfl, { h with setup := hwrites }⟩
      by_cases hloop : name = "loop"
      · subst hloop
        exact ⟨_, rfl, { h with loop := hwrites }⟩
      rw [if_neg (by simpa using hsetup), if_neg (by simpa using hloop), Node.bodyOf?, Node.bodyOf?,
        if_neg (by simpa using hsetup), if_neg (by simpa using hloop)]
      exact ⟨_, rfl, h⟩
  | @declaration l type name e hdeclared he =>
      obtain ⟨b, hb, hwrites⟩ := exists_declaration type name he.properIfAny
      obtain ⟨b', hb', -, htype⟩ := Blocks.converts_declaration type name he.properIfAny
      obtain rfl : b' = b := Except.ok.inj (hb'.symm.trans hb)
      have hline : Writes b' (Node.trace · (.declaration l type name e)) := hwrites
      let globals := done.workspace.globals ++ [b']
      refine ⟨{ done with workspace := { done.workspace with globals := globals } },
        by rw [Blocks.takeUp, hb]; rfl, h.setup, h.loop, ?_⟩
      exact List.rel_append h.globals (.cons ⟨htype, hline⟩ .nil)

theorem getLastD_filterMap_bodyOf? (name : String) (n m : Node) (ns : List Node) :
    ((n :: ns).filterMap (Node.bodyOf? name)).getLastD m =
      (ns.filterMap (Node.bodyOf? name)).getLastD ((n.bodyOf? name).getD m) := by
  rw [List.filterMap_cons]
  cases n.bodyOf? name with
  | none => rfl
  | some body => exact List.getLastD_cons ..

/-- The parts of a sketch are taken up one by one: of the functions of one name the last one stays,
and the declarations are added behind those that are there. -/
theorem exists_foldlM_takeUp {ts : List Token} {ns : List Node} (h : ∀ n ∈ ns, n.IsTopLevelIn ts)
    {done : Blocks.Converted} {setup loop : Node} {declarations : List Node}
    (hdone : Says done.workspace setup loop declarations) :
    ∃ c, ns.foldlM Blocks.takeUp done = .ok c ∧
      Says c.workspace ((ns.filterMap (Node.bodyOf? "setup")).getLastD setup)
        ((ns.filterMap (Node.bodyOf? "loop")).getLastD loop)
        (declarations ++ ns.filter fun n => (Program.variableName? n).isSome) := by
  induction ns generalizing done setup loop declarations with
  | nil =>
      rw [List.filter_nil, List.append_nil]
      exact ⟨done, rfl, hdone⟩
  | cons n ns ih =>
      obtain ⟨hn, hns⟩ := List.forall_mem_cons.mp h
      obtain ⟨next, hnext, hsaid⟩ := exists_takeUp hn hdone
      obtain ⟨c, hc, hall⟩ := ih hns hsaid
      refine ⟨c, ?_, ?_⟩
      · rw [List.foldlM_cons, hnext]
        exact hc
      · rw [List.append_assoc, ← List.filter_append] at hall
        rwa [getLastD_filterMap_bodyOf?, getLastD_filterMap_bodyOf?]

/-- A sketch becomes blocks whose code says the traces of its parts. -/
theorem exists_ofProgram {ts : List Token} {p : Program} (h : ∀ n ∈ p.body, n.IsTopLevelIn ts) :
    ∃ c, Blocks.ofProgram p = .ok c ∧
      Says c.workspace (p.lastBody "setup") (p.lastBody "loop") p.declarations := by
  have hnone : Says ({} : Blocks.Converted).workspace .empty .empty [] := ⟨.nil, .nil, .nil⟩
  exact exists_foldlM_takeUp h hnone

/-! ## Lines -/

def LineSays (line : String) (t : Trace) : Prop :=
  ∃ ws, ReadsLine line ws ∧ Marked ws t.spelled

theorem LineSays.unique {line : String} {t u : Trace} (h : LineSays line t)
    (h' : LineSays line u) : t.spelled = u.spelled := by
  obtain ⟨ws, hws, ht⟩ := h
  obtain ⟨vs, hvs, hu⟩ := h'
  obtain rfl : vs = ws := hvs.words_eq.symm.trans hws.words_eq
  rw [← ht.marks_eq, hu.marks_eq]

theorem exists_linesRead {lines : List String} {ts : List Trace}
    (h : List.Forall₂ LineSays lines ts) :
    ∃ ws, LinesRead lines ws ∧ Marked ws (Trace.spelled ts.flatten) := by
  induction h with
  | nil => exact ⟨[], .nil, .nil⟩
  | cons hline _ ih =>
      obtain ⟨ws, hws, ht⟩ := hline
      obtain ⟨vs, hvs, hts⟩ := ih
      refine ⟨ws ++ vs, .cons hws hvs, ?_⟩
      rw [List.flatten_cons, Trace.spelled_append]
      exact ht.append hts

/-- Lines say some traces, all of these and nothing else. -/
structure LinesSay (lines : List String) (ts : List Trace) : Prop where
  complete : ∀ t ∈ ts, ∃ line ∈ lines, LineSays line t
  sound : ∀ line ∈ lines, ∃ t ∈ ts, LineSays line t

namespace LinesSay

variable {lines : List String} {ts : List Trace}

theorem nil : LinesSay [] [] :=
  ⟨nofun, nofun⟩

theorem cons {line : String} {t : Trace} (h : LineSays line t) (hs : LinesSay lines ts) :
    LinesSay (line :: lines) (t :: ts) where
  complete := List.forall_mem_cons.mpr ⟨⟨line, List.mem_cons_self, h⟩, fun u hu =>
    let ⟨line', hline', hsaid⟩ := hs.complete u hu
    ⟨line', List.mem_cons_of_mem line hline', hsaid⟩⟩
  sound := List.forall_mem_cons.mpr ⟨⟨t, List.mem_cons_self, h⟩, fun line' hline' =>
    let ⟨u, hu, hsaid⟩ := hs.sound line' hline'
    ⟨u, List.mem_cons_of_mem t hu, hsaid⟩⟩

end LinesSay

theorem lineSays_integer (id : String) :
    LineSays (integerLine (safeName id unnamed)) [.declares (.safe id)] := by
  have hname : Spelling (safeName id unnamed) [⟨.identifier, safeName id unnamed⟩] true :=
    (Spelling.word (isSafe_safeName id (show IsSafe unnamed by decide)).firm rfl rfl).pointed_true
  have htext : integerLine (safeName id unnamed) = "int" ++ " " ++ safeName id unnamed ++ ";" :=
    congrArg (· ++ safeName id unnamed ++ ";") (show "int " = "int" ++ " " by decide)
  rw [htext]
  exact exists_declarationWords [] []
    (show "int" ∈ Statement.variableTypes by decide) hname nofun rfl

/-- The declarations among the top blocks, each with its line. -/
theorem exists_topLines {bs : List Block} {ns : List Node} {style : Style}
    (h : List.Forall₂ (fun b n => (b.type = "variables_declare" ∨ b.type = "variables_define") ∧
      Writes b (Node.trace · n)) bs ns) (hstyle : IsIndent style.indent) :
    ∃ ls : List (TopLine style), ls.map TopLine.block = bs ∧
      LinesSay (ls.map TopLine.text) (ns.map (Node.trace 0)) ∧
      AssignsIn (ls.flatMap TopLine.assigned) (ns.map (Node.trace 0)).flatten := by
  induction h with
  | nil => exact ⟨[], rfl, .nil, .nil _⟩
  | @cons b n bs ns hb _ ih =>
      obtain ⟨htype, hwrites⟩ := hb
      obtain ⟨text, ws, xs, ys, hgives, hreads, hmarked, hassigns⟩ := hwrites style.top hstyle
      obtain ⟨ls, rfl, hlines, hnames⟩ := ih
      exact ⟨⟨b, text, xs, ys, htype, hgives⟩ :: ls, rfl, .cons ⟨ws, hreads, hmarked⟩ hlines,
        hassigns.append hnames⟩

/-! ## From blocks to code -/

theorem givesTrace_sectionBody {style : Style} (hstyle : IsIndent style.indent)
    {roots : List Block} {s : Section} (hs : s ∈ [Section.setup, Section.loop]) {root : Block}
    (hroot : (roots.find? fun b => b.type == s.type) = some root) {n : Node}
    (h : WritesAll (root.chain s.input) (n.trace ·)) :
    GivesTrace ReadsLine (sectionBody style roots s) (n.trace 0) := by
  obtain ⟨body, ws, xs, ys, hgives, hreads, hmarked, hassigns⟩ :=
    h.statements (p := style.top.deeper) hstyle
  obtain ⟨text, hgives', hreads'⟩ := gives_sectionBody hstyle hs hroot hgives hreads
  exact ⟨text, ws, xs, ys, hgives', hreads', hmarked, hassigns⟩

theorem Says.exists_bodies {w : Workspace} {setup loop : Node} {declarations : List Node}
    (h : Says w setup loop declarations) {style : Style} (hstyle : IsIndent style.indent) :
    ∃ (lines : List String) (first second : String) (c : Context),
      bodies style w.roots {} = .ok ((first, second), c) ∧
      LinesSay lines (declarations.map (Node.trace 0)) ∧
      LineSays first (setup.trace 0) ∧ LineSays second (loop.trace 0) ∧
      c.globals = lines.foldl addNew [] ∧ (c.includes = [] ∨ c.includes = [mathHeader]) ∧
      c.functions = [] ∧
      AssignsIn c.assigned
        ((declarations.map (Node.trace 0)).flatten ++ (setup.trace 0 ++ loop.trace 0)) := by
  obtain ⟨ls, hls, hlines, hassigned⟩ := exists_topLines h.globals hstyle
  obtain ⟨c₁, htop, hglobals, hleaves⟩ := forM_addTop ls {}
  have hsetup : (w.roots.find? fun b => b.type == Section.setup.type) =
      some (.mk Workspace.setupType [] [.chain Workspace.setupInput w.setup]) := rfl
  have hloop : (w.roots.find? fun b => b.type == Section.loop.type) =
      some (.mk Workspace.loopType [] [.chain Workspace.loopInput w.loop]) := rfl
  obtain ⟨first, ws, xs, ys, hgives, hreads, hmarked, hassigns⟩ :=
    givesTrace_sectionBody hstyle (by simp) hsetup h.setup
  obtain ⟨second, ws', xs', ys', hgives', hreads', hmarked', hassigns'⟩ :=
    givesTrace_sectionBody hstyle (by simp) hloop h.loop
  obtain ⟨c, hrun, hboth⟩ := hgives.bind
    (f := fun first => sectionBody style w.roots .loop >>= fun second => pure (first, second))
    (hgives'.map fun second => (first, second)) c₁
  have hall := hleaves.trans hboth
  refine ⟨ls.map TopLine.text, first, second, c, ?_, hlines, ⟨ws, hreads, hmarked⟩,
    ⟨ws', hreads', hmarked'⟩, ?_, hall.includes, hall.functions, fun x hx => ?_⟩
  · rw [hls] at htop
    change ((w.globals.forM (addTop style)) {} >>= fun result => _) = _
    rw [htop]
    exact hrun
  · rw [hboth.globals, hglobals]
  · have hmem := ((hall.assigned x).mp hx).resolve_left List.not_mem_nil
    exact hassigned.append (hassigns.append hassigns') x hmem

/-! ## Sketches -/

/-- The lines at the top say what the declarations say and what the lines for assigned names say. -/
theorem exists_lineTraces {lines names : List String} {ts : List Trace} {u : Trace}
    (h : LinesSay lines ts) (hnames : AssignsIn names u) :
    ∃ ts' : List Trace,
      List.Forall₂ LineSays ((names.map integerLine).foldl addNew (lines.foldl addNew [])) ts' ∧
      (∀ t ∈ ts, ∃ t' ∈ ts', t'.spelled = t.spelled) ∧
      ∀ t' ∈ ts', t' ∈ ts ∨ ∃ id, t' = [.declares (.safe id)] ∧ .name (.safe id) ∈ u := by
  have hmem : ∀ line, line ∈ (names.map integerLine).foldl addNew (lines.foldl addNew []) ↔
      line ∈ lines ∨ line ∈ names.map integerLine := by
    intro line
    simp only [mem_foldl_addNew, List.not_mem_nil, false_or]
  have hline : ∀ line ∈ (names.map integerLine).foldl addNew (lines.foldl addNew []),
      ∃ t', LineSays line t' ∧
        (t' ∈ ts ∨ ∃ id, t' = [.declares (.safe id)] ∧ .name (.safe id) ∈ u) := by
    intro line hline
    rcases (hmem line).mp hline with hline | hline
    · obtain ⟨t, ht, hsaid⟩ := h.sound line hline
      exact ⟨t, hsaid, Or.inl ht⟩
    · obtain ⟨name, hname, rfl⟩ := List.mem_map.mp hline
      obtain ⟨id, hid, rfl⟩ := hnames name hname
      exact ⟨_, lineSays_integer id, Or.inr ⟨id, rfl, hid⟩⟩
  choose! f hsaid hsound using hline
  refine ⟨_, List.forall₂_map_right_iff.mpr (List.forall₂_same.mpr hsaid), fun t ht => ?_,
    List.forall_mem_map.mpr hsound⟩
  obtain ⟨line, hline, ht'⟩ := h.complete t ht
  have hin := (hmem line).mpr (Or.inl hline)
  exact ⟨f line, List.mem_map_of_mem hin, (hsaid line hin).unique ht'⟩

theorem marked_function (name : String) {ws : List Word} {t : Trace} (h : Marked ws t.spelled) :
    Marked (functionWords (name, [(ws, .empty)])) (Trace.ofFunction name t).spelled := by
  have hvoid : ∀ w ∈ [(⟨.voidType, "void"⟩ : Word)], w.kind.beginsType = true := by decide
  have hname := ((Marked.declared (List.cons_ne_nil _ []) hvoid name).concat_none
    (w := symbol .leftParen) rfl rfl).concat_none (w := symbol .rightParen) rfl rfl
  have hall := hname.append h.braced
  rw [← Trace.spelled_braced] at hall
  have hwords : functionWords (name, [(ws, .empty)]) = [⟨.voidType, "void"⟩] ++
      [⟨.identifier, name⟩] ++ [symbol .leftParen] ++ [symbol .rightParen] ++
        (symbol .leftBrace :: ws ++ [symbol .rightBrace]) := by
    simp [functionWords, bracedWords, headerWords]
  rw [hwords]
  exact hall

/-- What is put together says what its sections say. -/
theorem exists_marks_assemble {style : Style} (htime : ∀ time ∈ style.time, '\n' ∉ time.toList)
    {c : Context} (hincludes : c.includes = [] ∨ c.includes = [mathHeader])
    (hfunctions : c.functions = []) {ts : List Trace} (hlines : List.Forall₂ LineSays c.globals ts)
    {first second : String} {t u : Trace} (hfirst : LineSays first t)
    (hsecond : LineSays second u) :
    ∃ front : Trace, (front = [] ∨ front = .ofInclude) ∧
      marks false (words (assemble style c first second).toList) = Trace.spelled (front ++
        (ts.flatten ++ (.ofFunction "setup" t ++ .ofFunction "loop" u))) := by
  obtain ⟨globals, hglobals, hts⟩ := exists_linesRead hlines
  obtain ⟨ws, hws, ht⟩ := hfirst
  obtain ⟨vs, hvs, hu⟩ := hsecond
  have hfirst' : ReadsLine first ([(ws, Node.empty)].flatMap Prod.fst) := by simpa using hws
  have hsecond' : ReadsLine second ([(vs, Node.empty)].flatMap Prod.fst) := by simpa using hvs
  obtain ⟨skips, hskips, hread⟩ :=
    exists_linesRead_sections htime hincludes hfunctions hglobals hfirst' hsecond'
  obtain ⟨front, hfront, hmarked⟩ : ∃ front : Trace, (front = [] ∨ front = Trace.ofInclude) ∧
      Marked skips front.spelled := by
    rcases hskips with rfl | rfl
    · exact ⟨[], Or.inl rfl, .nil⟩
    · exact ⟨.ofInclude, Or.inr rfl,
        Calm.marked (show ∀ w ∈ includeWords, w.kind.inPhrase = true by decide)⟩
  refine ⟨front, hfront, ?_⟩
  have htext : (assemble style c first second).toList =
      squeeze ("\n\n".intercalate (sections style c first second)).toList ++ ['\n'] := by
    simp [assemble, sections]
  have hwords := (hread.intercalate (show "\n\n" ∈ ["\n", "\n\n"] by simp)).words_eq
  rw [htext, marks_squeeze, hwords]
  have hall := hmarked.append (hts.append ((marked_function "setup" ht).append
    (marked_function "loop" hu)))
  rw [← Trace.spelled_append, ← Trace.spelled_append, ← Trace.spelled_append] at hall
  exact hall.marks_eq

/-- Whatever sketch was read, it becomes blocks, and what is generated from them says the traces of
the sketch, unless the code is to be checked and holds a number with too many digits. -/
theorem exists_code {ts : List Token} {p : Program} (h : ∀ n ∈ p.body, n.IsTopLevelIn ts)
    {style : Style} (hstyle : IsIndent style.indent)
    (htime : ∀ time ∈ style.time, '\n' ∉ time.toList) :
    ∃ c, Blocks.ofProgram p = .ok c ∧
      ((∃ (g : Generated) (front : Trace) (lines : List Trace), c.workspace.generate style = .ok g ∧
          (front = [] ∨ front = .ofInclude) ∧ p.IsDeclaredBy lines ∧
          marks false (words g.code.toList) = (p.codeTrace front lines).spelled) ∨
        style.check = true ∧ ∃ o, c.workspace.generate style = .error (.overlong o)) := by
  obtain ⟨converted, hconverted, hsaid⟩ := exists_ofProgram h
  refine ⟨converted, hconverted, ?_⟩
  obtain ⟨lines, first, second, c, hbodies, hlines, hfirst, hsecond, hglobals, hincludes, hfunctions,
    hassigns⟩ := hsaid.exists_bodies hstyle
  refine (generate_of_bodies hbodies).imp_left fun ⟨g, hg, _, hcode⟩ => ?_
  obtain ⟨hdeclared, hincludes', hfunctions'⟩ := declareAssigned_eq c
  have hnames : AssignsIn (c.assigned.filter fun name => !c.declared.contains name) _ :=
    fun name hname => hassigns name (List.mem_filter.mp hname).1
  obtain ⟨traces, htraces, hcomplete, hsound⟩ := exists_lineTraces hlines hnames
  rw [← hglobals, ← hdeclared] at htraces
  obtain ⟨front, hfront, hmarks⟩ := exists_marks_assemble htime (hincludes' ▸ hincludes)
    (hfunctions'.trans hfunctions) htraces hfirst hsecond
  refine ⟨g, front, traces, hg, hfront,
    ⟨fun n hn => hcomplete _ (List.mem_map_of_mem hn), fun t ht => ?_⟩, ?_⟩
  · rcases hsound t ht with hmem | ⟨id, rfl, hid⟩
    · obtain ⟨n, hn, rfl⟩ := List.mem_map.mp hmem
      exact Or.inl ⟨n, hn, rfl⟩
    · refine Or.inr ⟨id, rfl, ?_⟩
      rw [Program.codeTrace, List.nil_append]
      rcases List.mem_append.mp hid with hid | hid
      · exact List.mem_append_left _ hid
      · refine List.mem_append_right _ ?_
        rcases List.mem_append.mp hid with hid | hid
        · exact List.mem_append_left _ (Trace.mem_ofFunction hid)
        · exact List.mem_append_right _ (Trace.mem_ofFunction hid)
  · rw [hcode]
    exact hmarks

end Code

end InoBlocks
