import InoBlocks.Proofs.Code.CanonicalSketch
import Mathlib.Data.Set.List

/-!
# Canonical workspaces are read back

The sketch that is generated from a canonical workspace is read and becomes the workspace again,
or a limit of nesting is reported.
-/

namespace InoBlocks

open Word Code Grammar

/-! ## Parts of programs -/

namespace Blocks

/-- Whatever is the same as a node, places aside, changes a workspace in some way. -/
def Adds (n : Node) (change : Workspace → Workspace) : Prop :=
  ∀ n' : Node, n'.forget = n.forget → ∀ done : Converted,
    takeUp done n' = .ok { done with workspace := change done.workspace }

def addGlobal (b : Block) (w : Workspace) : Workspace :=
  { w with globals := w.globals ++ [b] }

theorem adds_declared {ws : List Word} {n : Node} (h : Declared ws n) {b : Block}
    (hback : body n = .ok [b]) : Adds n (addGlobal b) := by
  obtain ⟨l, type, name, value, rfl⟩ : ∃ l type name value, n = .declaration l type name value := by
    cases h <;> exact ⟨_, _, _, _, rfl⟩
  have hdeclaration : declaration type name value = .ok b := by
    change (declaration type name value >>= fun b => .ok [b]) = .ok [b] at hback
    cases hresult : declaration type name value with
    | error fault =>
        rw [hresult] at hback
        cases hback
    | ok b' =>
        rw [hresult] at hback
        cases hback
        rfl
  intro n' hn' done
  cases n' with
  | declaration l' type' name' value' =>
      rw [Node.forget, Node.forget] at hn'
      injection hn' with _ htype hname hvalue
      subst htype hname
      rw [← declaration_forget, ← hvalue, declaration_forget] at hdeclaration
      change (declaration _ _ value' >>= _) = _
      rw [hdeclaration]
      rfl
  | _ => cases hn'

section Functions

variable {items : List (List Word × Node)} {bs : List Block}
  (hback : statements (items.map Prod.snd) = .ok bs)

include hback

theorem adds_setup : Adds (functionNode ("setup", items)) fun w => { w with setup := bs } := by
  intro n' hn' done
  obtain ⟨l, fnBody, rfl, hbody⟩ := exists_function hn'
  change (body fnBody >>= _) = _
  rw [body_of_forget hbody hback]
  rfl

theorem adds_loop : Adds (functionNode ("loop", items)) fun w => { w with loop := bs } := by
  intro n' hn' done
  obtain ⟨l, fnBody, rfl, hbody⟩ := exists_function hn'
  change (body fnBody >>= _) = _
  rw [body_of_forget hbody hback]
  rfl

end Functions

theorem foldlM_takeUp {parts : List (Node × (Workspace → Workspace))}
    (h : ∀ a ∈ parts, Adds a.1 a.2) {ns : List Node}
    (hns : ns.map Node.forget = parts.map fun a => a.1.forget) (done : Converted) :
    ns.foldlM takeUp done =
      .ok { done with workspace := parts.foldl (fun w a => a.2 w) done.workspace } := by
  induction parts generalizing ns done with
  | nil =>
      obtain rfl := List.map_eq_nil_iff.mp hns
      rfl
  | cons a parts ih =>
      obtain ⟨ha, hparts⟩ := List.forall_mem_cons.mp h
      obtain ⟨n, ns, rfl, hn, hns⟩ := List.map_eq_cons_iff.mp hns
      rw [List.foldlM_cons, ha n hn done]
      exact ih hparts hns _

theorem foldl_addGlobal (bs : List Block) (w : Workspace) :
    bs.foldl (fun w b => addGlobal b w) w = { w with globals := w.globals ++ bs } := by
  induction bs generalizing w with
  | nil => simp
  | cons b bs ih =>
      rw [List.foldl_cons, ih, addGlobal]
      simp

end Blocks

/-! ## Declarations are distinct -/

namespace Code

/-- Texts that some declarations have are the texts of declarations in a row. -/
theorem exists_map_text {p : Place} {ts : List String} (h : ∀ t ∈ ts, ∃ g : Global p, g.text = t) :
    ∃ gs : List (Global p), gs.map Global.text = ts := by
  have hrange : ts ∈ Set.range (List.map (Global.text (p := p))) := by
    rw [Set.range_list_map]
    exact h
  exact hrange

/-- If the same nodes are read for each choice of declarations with the texts of a list, then
declarations with one text have one block. -/
theorem block_eq_of_text {p : Place} {gs : List (Global p)} {ts : List String}
    (hts : ∀ t, t ∈ ts ↔ t ∈ gs.map Global.text) {nodes behind : List Node}
    (hread : ∀ es : List (Global p), es.map Global.text = ts →
      nodes = es.map (fun g => g.node.forget) ++ behind) :
    ∀ g₁ ∈ gs, ∀ g₂ ∈ gs, g₁.text = g₂.text → g₁.block = g₂.block := by
  intro g₁ hg₁ g₂ hg₂ htext
  obtain ⟨front, back, hsplit⟩ := List.append_of_mem ((hts g₁.text).mpr (List.mem_map_of_mem hg₁))
  have hexists : ∀ t ∈ ts, ∃ g : Global p, g.text = t := by
    intro t ht
    obtain ⟨g, -, hg⟩ := List.mem_map.mp ((hts t).mp ht)
    exact ⟨g, hg⟩
  rw [hsplit] at hexists
  obtain ⟨es, hes⟩ := exists_map_text fun t ht => hexists t (List.mem_append_left _ ht)
  obtain ⟨es', hes'⟩ := exists_map_text fun t ht =>
    hexists t (List.mem_append_right _ (List.mem_cons_of_mem _ ht))
  have hsame : ∀ g : Global p, g.text = g₁.text →
      nodes = (es ++ g :: es').map (fun g => g.node.forget) ++ behind := by
    intro g hg
    refine hread _ ?_
    rw [List.map_append, List.map_cons, hes, hes', hg, ← hsplit]
  have hnodes := (hsame g₁ rfl).symm.trans (hsame g₂ htext.symm)
  simp only [List.map_append, List.map_cons, List.append_cancel_left_eq,
    List.append_cancel_right_eq, List.cons.injEq, and_true] at hnodes
  have hone := Blocks.adds_declared g₁.declared g₁.renders.back g₁.node rfl {}
  have htwo := Blocks.adds_declared g₂.declared g₂.renders.back g₁.node hnodes {}
  rw [hone] at htwo
  simpa [Blocks.addGlobal] using htwo

/-- Declarations with different blocks have different texts, if these are read as in
`block_eq_of_text`. -/
theorem nodup_texts {p : Place} {gs : List (Global p)} (hblocks : (gs.map Global.block).Nodup)
    (h : ∀ g₁ ∈ gs, ∀ g₂ ∈ gs, g₁.text = g₂.text → g₁.block = g₂.block) :
    (gs.map Global.text).Nodup := by
  rw [List.Nodup, List.pairwise_map] at hblocks ⊢
  exact hblocks.imp_of_mem fun hg₁ hg₂ hne htext => hne (h _ hg₁ _ hg₂ htext)

theorem linesRead_globals {p : Place} (gs : List (Global p)) :
    LinesRead (gs.map Global.text) (gs.flatMap Global.words) := by
  induction gs with
  | nil => exact .nil
  | cons g gs ih => exact .cons g.renders.reads ih

/-- The parts of a sketch, as words with what they are read as. -/
def sketchItems {p : Place} (gs : List (Global p)) (setup loop : List (List Word × Node)) :
    List (List Word × Node) :=
  gs.map (fun g => (g.words, g.node)) ++
    [(functionWords ("setup", setup), functionNode ("setup", setup)),
      (functionWords ("loop", loop), functionNode ("loop", loop))]

/-- A sketch that is put together is read as its declarations and its functions, or a limit of
nesting is reported. -/
theorem parse_assemble {style : Style} (htime : ∀ time ∈ style.time, '\n' ∉ time.toList)
    {c : Context} (hc : Neat c) (hincludes : c.includes = [] ∨ c.includes = [mathHeader])
    {p : Place} {gs : List (Global p)} (hgs : gs.map Global.text = c.globals)
    {setup loop : String} (hsetupLine : Check.Line 0 0 setup) (hloopLine : Check.Line 0 0 loop)
    {setupItems loopItems : List (List Word × Node)} {bs bs' : List Block}
    (hsetup : ReadsBody setup setupItems bs) (hloop : ReadsBody loop loopItems bs')
    (file : String) {limit : Nat} (hlimit : 1 ≤ limit) :
    (Node.forgetList (parse (assemble style c setup loop) file limit).program.body =
        Node.forgetList ((sketchItems gs setupItems loopItems).map Prod.snd) ∧
      (parse (assemble style c setup loop) file limit).diagnostics = [] ∧
      (parse (assemble style c setup loop) file limit).unreadable = none) ∨
    ∃ d ∈ (parse (assemble style c setup loop) file limit).diagnostics, d.IsNesting := by
  have hglobals := linesRead_globals gs
  rw [hgs] at hglobals
  obtain ⟨skips, hskips, hlines⟩ := exists_linesRead_sections htime hincludes hc.functions hglobals
    hsetup.reads hloop.reads
  have hwords : words (assemble style c setup loop).toList =
      skips ++ (sketchItems gs setupItems loopItems).flatMap Prod.fst := by
    rw [assemble_toList htime hc hsetupLine hloopLine, (hlines.intercalate (by simp)).words_eq]
    simp [sketchItems, Section.setup, Section.loop, List.flatMap_map]
  refine parse_items hwords (passesOver_include hskips) ?_ file hlimit
  intro a ha
  rcases List.mem_append.mp ha with ha | ha
  · obtain ⟨g, -, rfl⟩ := List.mem_map.mp ha
    exact .declared g.declared
  · simp only [List.mem_cons, List.not_mem_nil, or_false] at ha
    rcases ha with rfl | rfl
    · exact .function default default "setup" setupItems hsetup.clauses
    · exact .function default default "loop" loopItems hloop.clauses

/-- What is read as the parts of a sketch becomes a workspace. -/
theorem ofProgram_sketch {program : Program} {p : Place} {gs : List (Global p)} {w : Workspace}
    (hgs : gs.map Global.block = w.globals) {setup loop : List (List Word × Node)}
    (hsetup : Blocks.statements (setup.map Prod.snd) = .ok w.setup)
    (hloop : Blocks.statements (loop.map Prod.snd) = .ok w.loop)
    (hbody : Node.forgetList program.body =
      Node.forgetList ((sketchItems gs setup loop).map Prod.snd)) :
    Blocks.ofProgram program = .ok { workspace := w } := by
  let changes : List (Node × (Workspace → Workspace)) :=
    gs.map (fun g => (g.node, Blocks.addGlobal g.block)) ++
      [(functionNode ("setup", setup), fun v => { v with setup := w.setup }),
        (functionNode ("loop", loop), fun v => { v with loop := w.loop })]
  have hchanges : ∀ a ∈ changes, Blocks.Adds a.1 a.2 := by
    intro a ha
    rcases List.mem_append.mp ha with ha | ha
    · obtain ⟨g, -, rfl⟩ := List.mem_map.mp ha
      exact Blocks.adds_declared g.declared g.renders.back
    · simp only [List.mem_cons, List.not_mem_nil, or_false] at ha
      rcases ha with rfl | rfl
      · exact Blocks.adds_setup hsetup
      · exact Blocks.adds_loop hloop
  have hnodes : program.body.map Node.forget = changes.map fun a => a.1.forget := by
    rw [forgetList_eq_map, forgetList_eq_map] at hbody
    rw [hbody]
    simp [sketchItems, changes]
  have hresult : changes.foldl (fun v a => a.2 v) {} = w := by
    have hglobals := Blocks.foldl_addGlobal (gs.map Global.block) {}
    rw [List.foldl_map, hgs, List.nil_append] at hglobals
    rw [List.foldl_append, List.foldl_map, hglobals]
    rfl
  rw [Blocks.ofProgram, Blocks.foldlM_takeUp hchanges hnodes]
  change (.ok ⟨changes.foldl (fun v a => a.2 v) {}, .empty "converter"⟩ :
    Blocks.Convert Blocks.Converted) = _
  rw [hresult]

/-- A sketch is generated where its bodies are, and its checks come to an end. -/
theorem exists_generate {w : Workspace} {style : Style} {setup loop : String} {c : Context}
    (hbodies : bodies style w.roots {} = .ok ((setup, loop), c)) (hdeclared : c.declareAssigned = c)
    (hcheck : ∃ v, validate (assemble style c setup loop) "<sketch>" = .ok v) :
    ∃ g, w.generate style = .ok g ∧ g.code = assemble style c setup loop := by
  obtain ⟨v, hv⟩ := hcheck
  obtain ⟨validation, hvalidation⟩ :
      ∃ v, style.validation (assemble style c setup loop) = .ok v := by
    rw [Style.validation, hv]
    split
    · exact ⟨some v, rfl⟩
    · exact ⟨none, rfl⟩
  refine ⟨⟨assemble style c setup loop, c.includes, c.globals, c.functions,
    c.findings.diagnostics, validation⟩, ?_, rfl⟩
  rw [Workspace.generate, Code.generate, StateT.run, hbodies]
  simp only [Except.mapError, bind, Except.bind, hdeclared, hvalidation]
  rfl

/-- A text is put together from code that is read back as the parts of a workspace. -/
inductive Assembled (w : Workspace) (style : Style) : String → Prop where
  | intro {c : Context} {gs : List (Global style.top)} {setup loop : String}
      {setupItems loopItems : List (List Word × Node)} : Neat c →
      (c.includes = [] ∨ c.includes = [mathHeader]) → gs.map Global.block = w.globals →
      c.globals = (gs.map Global.text).foldl addNew [] → Check.Line 0 0 setup →
      Check.Line 0 0 loop → ReadsBody setup setupItems w.setup →
      ReadsBody loop loopItems w.loop → Assembled w style (assemble style c setup loop)

/-- What is put together from distinct declarations and from bodies is read back, or a limit of
nesting is reported. -/
theorem Assembled.readsBack {w : Workspace} {style : Style} {code : String}
    (h : Assembled w style code) (hblocks : w.globals.Nodup)
    (htime : ∀ time ∈ style.time, '\n' ∉ time.toList) (file : String) {limit : Nat}
    (hlimit : 1 ≤ limit) :
    (∃ d ∈ (parse code file limit).diagnostics, d.IsNesting) ∨
      (parse code file limit).diagnostics = [] ∧ (parse code file limit).unreadable = none ∧
        Blocks.ofProgram (parse code file limit).program = .ok { workspace := w } := by
  obtain ⟨hc, hincludes, hgs, hglobals, hsetupLine, hloopLine, hsetup, hloop⟩ := h
  rename_i c gs setup loop setupItems loopItems
  rw [or_iff_not_imp_left]
  intro hnone
  -- Declarations with one text are not told apart yet, so any of them may stand for the others.
  have hread := fun (es : List (Global style.top)) (hes : es.map Global.text = c.globals) =>
    (parse_assemble htime hc hincludes hes hsetupLine hloopLine hsetup hloop file
      hlimit).resolve_right hnone
  have hnodes : ∀ es : List (Global style.top), es.map Global.text = c.globals →
      (parse (assemble style c setup loop) file limit).program.body.map Node.forget =
        es.map (fun g => g.node.forget) ++ [(functionNode ("setup", setupItems)).forget,
          (functionNode ("loop", loopItems)).forget] := by
    intro es hes
    have hbody := (hread es hes).1
    rw [forgetList_eq_map, forgetList_eq_map] at hbody
    rw [hbody]
    simp [sketchItems]
  have hmem : ∀ t, t ∈ c.globals ↔ t ∈ gs.map Global.text := by
    intro t
    rw [hglobals, mem_foldl_addNew]
    simp
  have hdistinct := nodup_texts (hgs ▸ hblocks) (block_eq_of_text hmem hnodes)
  rw [foldl_addNew_of_nodup (by simpa using hdistinct), List.nil_append] at hglobals
  obtain ⟨hbody, hreports, hreadable⟩ := hread gs hglobals.symm
  exact ⟨hreports, hreadable, ofProgram_sketch hgs hsetup.back hloop.back hbody⟩

end Code

/-! ## The way round -/

namespace Workspace

/-- A sketch is generated from every canonical workspace. -/
theorem IsCanonical.exists_assembled {w : Workspace} (h : w.IsCanonical) {style : Style}
    (hindent : IsIndent style.indent) (htime : ∀ time ∈ style.time, '\n' ∉ time.toList) :
    ∃ g, w.generate style = .ok g ∧ Assembled w style g.code := by
  obtain ⟨gs, setup, loop, setupItems, loopItems, c, hgs, hsetup, hloop, hbodies, hglobals,
    hincludes, hfunctions, hdeclared⟩ := h.exists_bodies hindent
  have hneat : Neat {} := ⟨by simp, by simp, rfl, by simp⟩
  obtain ⟨⟨hsetupLine, hloopLine⟩, hc⟩ :=
    makes_bodies hindent (roots_isTemplated h.isTemplated) _ _ _ hneat hbodies
  dsimp only at hsetupLine hloopLine
  obtain ⟨v, hv, -⟩ := assemble_isValid htime hc hsetupLine hloopLine "<sketch>"
  obtain ⟨g, hg, hcode⟩ := exists_generate hbodies hdeclared ⟨v, hv⟩
  exact ⟨g, hg, hcode ▸ .intro hc hincludes hgs hglobals hsetupLine hloopLine hsetup hloop⟩

/-- From a canonical workspace a sketch is generated; read, it becomes the workspace again, with
nothing reported by the way, unless a limit of nesting is reported. -/
theorem IsCanonical.generate_readsBack {w : Workspace} (h : w.IsCanonical) {style : Style}
    (hindent : IsIndent style.indent) (htime : ∀ time ∈ style.time, '\n' ∉ time.toList)
    (file : String) {limit : Nat} (hlimit : 1 ≤ limit) :
    ∃ g, w.generate style = .ok g ∧
      ((∃ d ∈ (parse g.code file limit).diagnostics, d.IsNesting) ∨
        (parse g.code file limit).diagnostics = [] ∧
          (parse g.code file limit).unreadable = none ∧
          Blocks.ofProgram (parse g.code file limit).program = .ok { workspace := w }) := by
  obtain ⟨g, hg, hassembled⟩ := h.exists_assembled hindent htime
  exact ⟨g, hg, hassembled.readsBack h.distinct htime file hlimit⟩

def lampWorkspace : Workspace where
  globals := [.ofTexts "variables_declare" [("TYPE", "boolean"), ("VAR", "lit")] []]
  loop := [
    .ofTexts "controls_whileUntil" [("MODE", "WHILE")] [
      .value "BOOL" (.ofTexts "logic_negate" [] [.value "BOOL" (.variableGet "lit")]),
      .chain "DO" [
        .ofTexts "variables_set" [("VAR", "lit")] [.value "VALUE" (.truth true)],
        .ofTexts "arduino_delay" [("TIME", "0.5")] []]]]

theorem lampWorkspace_isCanonical : lampWorkspace.IsCanonical := by
  have hsafe : IsSafe "lit" := by decide +kernel
  refine ⟨nofun, List.forall_mem_singleton.mpr ?_, List.forall_mem_singleton.mpr ?_,
    List.nodup_singleton _, ?_⟩
  · refine .whileLoop (.negation (.variableGet hsafe (by decide))) ?_
    refine List.forall_mem_cons.mpr ⟨.set hsafe (by decide) (.truth true), ?_⟩
    exact List.forall_mem_singleton.mpr (.delay (by decide +kernel))
  · exact .declare (by decide) hsafe
  · have hall : lampWorkspace.walk.all (fun b => b.assigns?.all fun name =>
        lampWorkspace.walk.any fun c => c.declares? == some name) = true := by
      decide
    intro b hb name hname
    have hone := List.all_eq_true.mp hall b hb
    rw [hname, Option.all_some] at hone
    obtain ⟨c, hc, hdeclares⟩ := List.any_eq_true.mp hone
    exact ⟨c, hc, beq_iff_eq.mp hdeclares⟩

/-- Nothing in it nests too deep. -/
theorem generate_readsBack_lamp : ∃ g, lampWorkspace.generate { header := false } = .ok g ∧
    Blocks.ofProgram (parse g.code "<sketch>" 100).program =
      .ok { workspace := lampWorkspace } := by
  have hreports : (lampWorkspace.generate { header := false }).toOption.map
      (fun g => (parse g.code "<sketch>" 100).diagnostics.length) = some 0 := by
    decide +kernel
  obtain ⟨g, hg, hread⟩ := lampWorkspace_isCanonical.generate_readsBack
    (show IsIndent ({ header := false } : Style).indent by unfold IsIndent; decide) nofun
    "<sketch>" (show 1 ≤ 100 by decide)
  rw [hg] at hreports
  have hnone : (parse g.code "<sketch>" 100).diagnostics = [] :=
    List.length_eq_zero_iff.mp (Option.some.inj hreports)
  refine ⟨g, hg, ?_⟩
  rcases hread with ⟨d, hd, -⟩ | ⟨-, -, hback⟩
  · rw [hnone] at hd
    cases hd
  · exact hback

def fractionWorkspace : Workspace where
  loop := [.ofTexts "arduino_delay" [("TIME", ".5")] []]

def fractionCode : String :=
  "void setup() \x7b\n  // setup code\n\x7d\n\nvoid loop() \x7b\n  delay(.5);\n\x7d\n"

theorem eq_empty_of_isEmpty {w : Workspace} (h : w.isEmpty = true) : w = {} := by
  obtain ⟨setup, loop, globals⟩ := w
  simp only [isEmpty, Bool.and_eq_true, List.isEmpty_iff] at h
  obtain ⟨⟨rfl, rfl⟩, rfl⟩ := h
  rfl

/-- A number that begins with its point is written as it is and not read as a number, so that its
statement is lost. -/
theorem generate_loses_fraction :
    ((∀ c ∈ ".5".toList, c.isDigit = true ∨ c = '.') ∧ ".5".toList.count '.' ≤ 1 ∧
      (".5".toList.find? Char.isDigit) = some '5' ∧
      (Number.double? ".5").any Binary64.isFinite = true) ∧
    ∃ g, fractionWorkspace.generate { header := false } = .ok g ∧ g.code = fractionCode ∧
      (parse fractionCode "<sketch>" 100).diagnostics.map Diagnostic.message =
        ["unexpected token '.'"] ∧
      ∃ c, Blocks.ofProgram (parse fractionCode "<sketch>" 100).program = .ok c ∧
        c.workspace = {} ∧ fractionWorkspace ≠ {} := by
  refine ⟨by decide +kernel, _, rfl, by decide +kernel, by decide +kernel, ?_⟩
  have hempty : (Blocks.ofProgram (parse fractionCode "<sketch>" 100).program).toOption.map
      (fun c => c.workspace.isEmpty) = some true := by
    decide +kernel
  cases hread : Blocks.ofProgram (parse fractionCode "<sketch>" 100).program with
  | error fault =>
      rw [hread] at hempty
      cases hempty
  | ok c =>
      rw [hread] at hempty
      refine ⟨c, rfl, eq_empty_of_isEmpty (Option.some.inj hempty), fun h => ?_⟩
      exact absurd (congrArg Workspace.isEmpty h) (by decide)

end Workspace

end InoBlocks
