import InoBlocks.Proofs.Code.CanonicalControl
import InoBlocks.Proofs.Code.ValidSketch
import InoBlocks.Proofs.Sketch.ShallowClause
import InoBlocks.Proofs.Sketch.SketchReading

/-!
# Sketches of canonical statements

What is generated from canonical statements, as words: those of an include, if mathematics is
needed, which are passed over, and then the declarations and the two functions.
-/

namespace InoBlocks

open Word Code Grammar

/-! ## Templates -/

namespace Block

/-- The inputs of a choice hold what its conditions and bodies hold. -/
theorem forall_mem_arms {P : Block → Prop} {arms : List (Block × List Block)}
    {others : List Block} (htests : ∀ a ∈ arms, ∀ c ∈ a.1.walk, P c)
    (hbodies : ∀ a ∈ arms, ∀ b ∈ a.2, ∀ c ∈ b.walk, P c) (hothers : ∀ b ∈ others, ∀ c ∈ b.walk, P c)
    (number : Nat) :
    ∀ i ∈ armInputs number arms ++ otherwiseInputs others, ∀ c ∈ i.walk, P c := by
  induction arms generalizing number with
  | nil =>
      intro i hi
      rw [armInputs, List.nil_append, otherwiseInputs] at hi
      split at hi
      · cases hi
      · obtain rfl := List.mem_singleton.mp hi
        exact forall_mem_walkAll hothers
  | cons a arms ih =>
      obtain ⟨htest, htests⟩ := List.forall_mem_cons.mp htests
      obtain ⟨hbody, hbodies⟩ := List.forall_mem_cons.mp hbodies
      rw [armInputs, List.cons_append, List.cons_append, List.forall_mem_cons,
        List.forall_mem_cons]
      exact ⟨htest, forall_mem_walkAll hbody, ih htests hbodies (number + 1)⟩

theorem IsCanonicalValue.isTemplated {b : Block} (h : b.IsCanonicalValue) :
    ∀ c ∈ b.walk, IsTemplated c :=
  fun c hc => ⟨Or.inr (Or.inl (h.forall_mem_walk c hc).1), (h.forall_mem_walk c hc).2⟩

theorem isTemplated_node {type : String} {fields : List (String × String)} {is : List Input}
    (htype : IsTemplated (.ofTexts type [] [])) (his : ∀ i ∈ is, ∀ c ∈ i.walk, IsTemplated c) :
    ∀ c ∈ (ofTexts type fields is).walk, IsTemplated c :=
  forall_mem_walk (P := fun type => IsKnownType type ∧ type ∉ rawTypes) htype his

theorem isTemplated_of_values {type : String} {fields : List (String × String)} {is : List Input}
    (htype : IsTemplated (.ofTexts type [] []))
    (his : ∀ i ∈ is, ∃ name b, i = .value name b ∧ b.IsCanonicalValue) :
    ∀ c ∈ (ofTexts type fields is).walk, IsTemplated c := by
  refine isTemplated_node htype fun i hi => ?_
  obtain ⟨name, b, rfl, hb⟩ := his i hi
  exact hb.isTemplated

theorem IsCanonical.isTemplated {b : Block} (h : b.IsCanonical) : ∀ c ∈ b.walk, IsTemplated c := by
  induction h with
  | pinMode hpin => exact isTemplated_of_values (by decide) (by simpa using hpin)
  | digitalWrite hpin => exact isTemplated_of_values (by decide) (by simpa using hpin)
  | analogWrite hpin _ hvalue =>
      exact isTemplated_of_values (by decide) (by simpa using ⟨hpin, hvalue⟩)
  | delay => exact isTemplated_of_values (by decide) (by simp)
  | delayMicroseconds => exact isTemplated_of_values (by decide) (by simp)
  | serialBegin hbaud => exact isTemplated_of_values (by decide) (by simpa using hbaud)
  | serialPrint _ htext => exact isTemplated_of_values (by decide) (by simpa using htext)
  | randomSeed hseed => exact isTemplated_of_values (by decide) (by simpa using hseed)
  | call _ _ hcall hvalues =>
      refine isTemplated_of_values
        ⟨Or.inr (Or.inl (Blocks.valueCall?_inputs hcall).1), valueCall?_rawTypes hcall⟩
        fun i hi => ?_
      obtain ⟨j, hj, rfl⟩ := List.mem_map.mp hi
      exact ⟨_, _, rfl, hvalues j hj⟩
  | query h =>
      exact isTemplated_of_values
        ⟨Or.inr (Or.inl (Blocks.serialQuery?_type h)), serialQuery?_rawTypes h⟩ (by simp)
  | set _ _ hvalue => exact isTemplated_of_values (by decide) (by simpa using hvalue)
  | declaration h =>
      cases h with
      | declare => exact isTemplated_of_values (by decide) (by simp)
      | define _ _ hvalue => exact isTemplated_of_values (by decide) (by simpa using hvalue)
  | choice _ hvalues _ _ ihbodies ihothers =>
      exact isTemplated_node (by decide)
        (forall_mem_arms (fun a ha => (hvalues a ha).isTemplated) ihbodies ihothers 0)
  | repetition hvalue _ _ ih =>
      refine isTemplated_node (by decide) ?_
      simpa [Input.walk] using ⟨hvalue.isTemplated, forall_mem_walkAll ih⟩
  | whileLoop hvalue _ ih =>
      refine isTemplated_node (by decide) ?_
      simpa [Input.walk] using ⟨hvalue.isTemplated, forall_mem_walkAll ih⟩

end Block

namespace Code

/-! ## Sections as words -/

theorem readsLine_comment {text : String} (cs : List Char)
    (htext : text.toList = '/' :: '/' :: cs) (hfeed : '\n' ∉ cs) : ReadsLine text [] := by
  intro rest _
  have htake : (cs ++ '\n' :: rest).takeWhile (· != '\n') = cs := by
    rw [List.takeWhile_append_of_pos]
    · simp
    · intro c hc
      simpa using fun heq : c = '\n' => hfeed (heq ▸ hc)
  have hscan : Token.scan '/' ('/' :: (cs ++ '\n' :: rest)) = some (.comment, cs.length + 1) := by
    rw [Token.scan, htake]
  rw [htext, List.nil_append]
  simp only [List.cons_append, List.append_assoc, List.nil_append]
  rw [words_comment (by decide) hscan, List.drop_succ_cons, List.drop_left,
    words_layout (by decide)]

/-- The words of an include, without its first character. -/
def includeWords : List Word :=
  [⟨.identifier, "include"⟩, symbol .lessThan, ⟨.identifier, "math"⟩, symbol .dot,
    ⟨.identifier, "h"⟩, symbol .greaterThan]

theorem readsLine_include : ReadsLine ("#include " ++ mathHeader) includeWords := by
  have hnames : ∀ name ∈ ["include", "math", "h"], TokenKind.ofWord name = .identifier ∧
      name.toList.head?.any Text.isNameStart = true ∧
      name.toList.tail.all Text.isNameChar = true := by
    decide
  have hname : ∀ name ∈ ["include", "math", "h"], Word.Firm ⟨.identifier, name⟩ := by
    intro name hmem
    obtain ⟨hkind, hhead, htail⟩ := hnames name hmem
    exact firm_ofWord hkind hhead htail
  have hmark : ReadsAlone ['#'] [] := by
    intro rest _
    have hscan : Token.scan '#' rest = none := by
      rw [Token.scan_other (by decide) (Token.opensComment_of_ne (by decide) rest)]
      cases rest <;> rfl
    exact words_unread (by decide) hscan
  have hinclude := (hname "include" (by decide)).readsAs.blank (by decide)
  have hopen := (readsAs_symbol .lessThan rfl).append_cons (hname "math" (by decide)).readsAs
    (by decide)
  have hdot := (readsAs_symbol .dot rfl).append_cons (hname "h" (by decide)).readsAs (by decide)
  have hend := (readsAs_symbol .greaterThan rfl).append_cons
    (show ReadsAlone ['\n'] [] from .layout (by decide) _) (by decide)
  exact hmark.seq (hinclude.seq (hopen.append_cons (hdot.append_cons hend (by decide)) (by decide)))

theorem passesOver_include {skips : List Word} (h : skips = [] ∨ skips = includeWords) :
    ∀ w ∈ skips, passesOver w = true := by
  rcases h with rfl | rfl
  · exact nofun
  · decide

theorem readsLine_function {s : Section} (hs : s ∈ [Section.setup, Section.loop]) {body : String}
    {items : List (List Word × Node)} (hbody : ReadsLine body (items.flatMap Prod.fst)) :
    ReadsLine (functionText s body) (functionWords (s.name, items)) := by
  have hnames : ∀ s ∈ [Section.setup, Section.loop], TokenKind.ofWord s.name = .identifier ∧
      s.name.toList.head?.any Text.isNameStart = true ∧
      s.name.toList.tail.all Text.isNameChar = true := by
    decide
  obtain ⟨hkind, hhead, htail⟩ := hnames s hs
  have hheader := reads_functionHeader (firm_ofWord hkind hhead htail)
  have hfront : ReadsLine ("void " ++ s.name ++ "() \x7b") _ := .of_alone (by simpa using hheader)
  have hback : ReadsLine "\x7d" [symbol .rightBrace] :=
    .of_alone (readsAs_symbol .rightBrace rfl)
  have hlines := (LinesRead.cons hfront (.cons hbody (.one hback))).joinLines
  have htext : functionText s body =
      Text.joinLines ["void " ++ s.name ++ "() \x7b", body, "\x7d"] := by
    rw [← String.toList_inj]
    simp [functionText, Text.joinLines]
  rw [htext]
  simpa [functionWords, headerWords, bracedWords] using hlines

/-- Lines put together as a section are read as they are. -/
theorem LinesRead.joined {lines : List String} {ws : List Word} (h : LinesRead lines ws)
    {separator : String} (hfeeds : separator ∈ ["\n", "\n\n"]) :
    LinesRead (Code.joined separator lines) ws := by
  unfold Code.joined
  split
  · rename_i hempty
    rwa [List.isEmpty_iff.mp hempty] at h
  · exact .one (h.intercalate hfeeds)

theorem LinesRead.of_blank {lines : List String} (h : ∀ line ∈ lines, ReadsLine line []) :
    LinesRead lines [] := by
  induction lines with
  | nil => exact .nil
  | cons line lines ih =>
      obtain ⟨hline, hlines⟩ := List.forall_mem_cons.mp h
      exact .cons hline (ih hlines)

theorem readsLine_header {style : Style} (htime : ∀ time ∈ style.time, '\n' ∉ time.toList) :
    ReadsLine (Text.joinLines (headerLines style)) [] := by
  refine (LinesRead.of_blank fun line hline => ?_).joinLines
  rcases List.mem_append.mp hline with hline | hline
  · simp only [List.mem_cons, List.not_mem_nil, or_false] at hline
    rcases hline with rfl | rfl
    · exact readsLine_comment " Arduino sketch".toList rfl (by decide)
    · exact readsLine_comment " Generated by sketchblocks".toList rfl (by decide)
  · obtain ⟨time, hmem, rfl⟩ := List.mem_map.mp hline
    have hfeed := htime time (Option.mem_toList.mp hmem)
    refine readsLine_comment (" Generated at: ".toList ++ time.toList) (by simp) ?_
    rw [List.mem_append, not_or]
    exact ⟨by decide, hfeed⟩

/-- The sections of a sketch are read as the words of an include or none, declarations, and the two
functions. -/
theorem exists_linesRead_sections {style : Style} (htime : ∀ time ∈ style.time, '\n' ∉ time.toList)
    {c : Context} (hincludes : c.includes = [] ∨ c.includes = [mathHeader])
    (hfunctions : c.functions = []) {globals : List Word} (hglobals : LinesRead c.globals globals)
    {setup loop : String} {setupItems loopItems : List (List Word × Node)}
    (hsetup : ReadsLine setup (setupItems.flatMap Prod.fst))
    (hloop : ReadsLine loop (loopItems.flatMap Prod.fst)) :
    ∃ skips, (skips = [] ∨ skips = includeWords) ∧
      LinesRead (sections style c setup loop) (skips ++ (globals ++
        (functionWords (Section.setup.name, setupItems) ++
          functionWords (Section.loop.name, loopItems)))) := by
  have hheader :
      LinesRead (if style.header then [Text.joinLines (headerLines style)] else []) [] := by
    split
    · exact .one (readsLine_header htime)
    · exact .nil
  obtain ⟨skips, hskips, hread⟩ : ∃ skips, (skips = [] ∨ skips = includeWords) ∧
      LinesRead (c.includes.map ("#include " ++ ·)) skips := by
    rcases hincludes with h | h <;> rw [h]
    · exact ⟨[], Or.inl rfl, .nil⟩
    · exact ⟨includeWords, Or.inr rfl, .one readsLine_include⟩
  have hmain := LinesRead.cons (readsLine_function (s := .setup) (by simp) hsetup)
    (.one (readsLine_function (s := .loop) (by simp) hloop))
  have hfeed : "\n" ∈ ["\n", "\n\n"] := by simp
  have hall := ((hheader.append (hread.joined hfeed)).append (hglobals.joined hfeed)).append hmain
  refine ⟨skips, hskips, ?_⟩
  have hnone : Code.joined "\n\n" c.functions = [] := by rw [hfunctions]; rfl
  rw [sections, hnone]
  simpa using hall

/-! ## What is generated -/

/-- A declaration with its code at a place, and what that is read as. -/
structure Global (p : Place) where
  block : Block
  text : String
  words : List Word
  node : Node
  isDeclaration : block.IsDeclaration
  renders : Renders block p text words node
  declared : Declared words node

theorem exists_globals {bs : List Block} (h : ∀ b ∈ bs, b.IsDeclaration) {p : Place}
    (hp : IsIndent p.indent) : ∃ gs : List (Global p), gs.map Global.block = bs := by
  induction bs with
  | nil => exact ⟨[], rfl⟩
  | cons b bs ih =>
      obtain ⟨hb, hbs⟩ := List.forall_mem_cons.mp h
      obtain ⟨text, ws, n, hrenders, hdeclared⟩ := hb.declares p hp
      obtain ⟨gs, rfl⟩ := ih hbs
      exact ⟨⟨b, text, ws, n, hb, hrenders, hdeclared⟩ :: gs, rfl⟩

theorem type_of_isDeclaration {b : Block} (h : b.IsDeclaration) :
    b.type = "variables_declare" ∨ b.type = "variables_define" := by
  cases h with
  | declare => exact Or.inl rfl
  | define => exact Or.inr rfl

/-- A declaration among the top blocks, with its line and what that leaves behind. -/
structure TopLine (style : Style) where
  block : Block
  text : String
  assigned : List String
  declared : List String
  type : block.type = "variables_declare" ∨ block.type = "variables_define"
  gives : Gives ((part block).statement style.top) text assigned declared

/-- A declaration among the top blocks becomes a global variable. -/
theorem TopLine.addTop_eq {style : Style} (l : TopLine style) :
    addTop style l.block =
      (part l.block).statement style.top >>= fun text => modify fun c => c.addVariable text := by
  unfold addTop
  rcases l.type with h | h <;> rw [h] <;> rfl

def Global.line {style : Style} (g : Global style.top) : TopLine style where
  block := g.block
  text := g.text
  assigned := Block.collect Block.assigns? [g.block]
  declared := Block.collect Block.declares? [g.block]
  type := type_of_isDeclaration g.isDeclaration
  gives := g.renders.gives

theorem Leaves.withGlobals {c c' : Context} {xs ys : List String} (h : Leaves c c' xs ys)
    (globals : List String) :
    Leaves { c with globals := globals } { c' with globals := globals } xs ys where
  includes := h.includes
  globals := rfl
  functions := h.functions
  findings := h.findings
  assigned := h.assigned
  declared := h.declared

theorem forM_addTop {style : Style} (ls : List (TopLine style)) (c : Context) :
    ∃ c', (ls.map TopLine.block).forM (addTop style) c = .ok ((), c') ∧
      c'.globals = (ls.map TopLine.text).foldl addNew c.globals ∧
      Leaves { c with globals := c'.globals } c' (ls.flatMap TopLine.assigned)
        (ls.flatMap TopLine.declared) := by
  induction ls generalizing c with
  | nil => exact ⟨c, rfl, rfl, .refl c⟩
  | cons l ls ih =>
      obtain ⟨c₁, hrun, hleaves⟩ := l.gives c
      obtain ⟨c', hrest, hglobals, hleaves'⟩ := ih (c₁.addVariable l.text)
      refine ⟨c', ?_, ?_, ?_⟩
      · change (addTop style l.block >>= fun _ => (ls.map TopLine.block).forM (addTop style)) c = _
        rw [l.addTop_eq]
        change (((part l.block).statement style.top c >>= fun result => _) >>= fun result => _) = _
        rw [hrun]
        exact hrest
      · rw [hglobals, List.map_cons, List.foldl_cons, Context.addVariable, hleaves.globals]
      · rw [List.flatMap_cons, List.flatMap_cons]
        exact (hleaves.withGlobals c'.globals).trans hleaves'

/-- The body of one of the two functions is a comment if there are no statements in it. -/
theorem gives_sectionBody {style : Style} (hstyle : IsIndent style.indent) {roots : List Block}
    {s : Section} (hs : s ∈ [Section.setup, Section.loop]) {root : Block}
    (hroot : (roots.find? fun b => b.type == s.type) = some root) {body : String} {ws : List Word}
    {xs ys : List String}
    (hgives : Gives (Shape.statements style.top.deeper (parts (root.chain s.input))) body xs ys)
    (hreads : ReadsLine body ws) :
    ∃ text, Gives (sectionBody style roots s) text xs ys ∧ ReadsLine text ws := by
  let comment := Statement.line style.top.deeper ("// " ++ s.name ++ " code")
  refine ⟨if body == "" then comment else body, ?_, ?_⟩
  · unfold sectionBody
    rw [hroot]
    exact hgives.map _
  · split
    · rename_i hempty
      have hwords : ([] : List Word) = ws := by
        rw [← hreads.words_eq, beq_iff_eq.mp hempty]
        rfl
      rw [← hwords]
      have hfeeds : ∀ s ∈ [Section.setup, Section.loop],
          '\n' ∉ (" " ++ s.name ++ " code").toList := by
        decide
      exact readsLine_line hstyle (readsLine_comment (" " ++ s.name ++ " code").toList
        (by simp) (hfeeds s hs))
    · exact hreads

theorem exists_sectionBody {style : Style} (hstyle : IsIndent style.indent) (roots : List Block)
    {s : Section} (hs : s ∈ [Section.setup, Section.loop]) (root : Block)
    (hroot : (roots.find? fun b => b.type == s.type) = some root)
    (h : ∀ b ∈ root.chain s.input, Returns b) :
    ∃ text items, ReadsBody text items (root.chain s.input) ∧
      Gives (sectionBody style roots s) text (Block.collect Block.assigns? (root.chain s.input))
        (Block.collect Block.declares? (root.chain s.input)) := by
  obtain ⟨body, items, hbody⟩ := exists_rendersAll h (p := style.top.deeper) hstyle
  obtain ⟨text, hgives, hreads⟩ := gives_sectionBody hstyle hs hroot hbody.gives hbody.reads
  exact ⟨text, items, ⟨hreads, hbody.clauses, hbody.back⟩, hgives⟩

end Code

/-- A workspace of canonical statements: no global declaration comes twice, and whatever is
assigned is declared. -/
structure Workspace.IsCanonical (w : Workspace) : Prop where
  setup : ∀ b ∈ w.setup, b.IsCanonical
  loop : ∀ b ∈ w.loop, b.IsCanonical
  globals : ∀ b ∈ w.globals, b.IsDeclaration
  distinct : w.globals.Nodup
  declared : ∀ b ∈ w.walk, ∀ name, b.assigns? = some name →
    ∃ c ∈ w.walk, c.declares? = some name

namespace Workspace.IsCanonical

variable {w : Workspace} (h : w.IsCanonical)

include h

theorem isTemplated : ∀ b ∈ w.walk, IsTemplated b := by
  have hglobals : ∀ b ∈ w.globals, b.IsCanonical := fun b hb => .declaration (h.globals b hb)
  rw [walk, List.forall_mem_append, List.forall_mem_append]
  exact ⟨⟨Block.forall_mem_walkAll fun b hb => (h.setup b hb).isTemplated,
    Block.forall_mem_walkAll fun b hb => (h.loop b hb).isTemplated⟩,
    Block.forall_mem_walkAll fun b hb => (hglobals b hb).isTemplated⟩

/-- The names that the blocks of a workspace assign are among those that they declare. -/
theorem collect_subset : ∀ name ∈ Block.collect Block.assigns? w.globals ++
      (Block.collect Block.assigns? w.setup ++ Block.collect Block.assigns? w.loop),
    name ∈ Block.collect Block.declares? w.globals ++
      (Block.collect Block.declares? w.setup ++ Block.collect Block.declares? w.loop) := by
  have hmem : ∀ find? : Block → Option String, ∀ name, name ∈ Block.collect find? w.globals ++
      (Block.collect find? w.setup ++ Block.collect find? w.loop) ↔
        ∃ b ∈ w.walk, find? b = some name := by
    intro find? name
    simp only [Block.collect, walk, List.mem_append, List.mem_filterMap]
    constructor
    · rintro (⟨b, hb, hname⟩ | ⟨b, hb, hname⟩ | ⟨b, hb, hname⟩)
      · exact ⟨b, Or.inr hb, hname⟩
      · exact ⟨b, Or.inl (Or.inl hb), hname⟩
      · exact ⟨b, Or.inl (Or.inr hb), hname⟩
    · rintro ⟨b, (hb | hb) | hb, hname⟩
      · exact Or.inr (Or.inl ⟨b, hb, hname⟩)
      · exact Or.inr (Or.inr ⟨b, hb, hname⟩)
      · exact Or.inl ⟨b, hb, hname⟩
  intro name hname
  rw [hmem] at hname ⊢
  obtain ⟨b, hb, hassigns⟩ := hname
  exact h.declared b hb name hassigns

/-- What is generated from a canonical workspace: both functions with bodies that are read back,
and nothing declared but its declarations. -/
theorem exists_bodies {style : Style} (hstyle : IsIndent style.indent) :
    ∃ (gs : List (Global style.top)) (setup loop : String)
      (setupItems loopItems : List (List Word × Node)) (c : Context),
      gs.map Global.block = w.globals ∧ ReadsBody setup setupItems w.setup ∧
        ReadsBody loop loopItems w.loop ∧ bodies style w.roots {} = .ok ((setup, loop), c) ∧
        c.globals = (gs.map Global.text).foldl addNew [] ∧
        (c.includes = [] ∨ c.includes = [mathHeader]) ∧ c.functions = [] ∧
        c.declareAssigned = c := by
  obtain ⟨gs, hgs⟩ := exists_globals h.globals (p := style.top) hstyle
  obtain ⟨c₁, htop, hglobals, hleaves⟩ := forM_addTop (gs.map Global.line) {}
  have hblocks : (gs.map Global.line).map TopLine.block = w.globals := by
    rw [List.map_map, ← hgs]
    rfl
  have hassigned : (gs.map Global.line).flatMap TopLine.assigned =
      Block.collect Block.assigns? w.globals := by
    rw [← hgs, ← Block.flatMap_collect, List.flatMap_map, List.flatMap_map]
    rfl
  have hdeclares : (gs.map Global.line).flatMap TopLine.declared =
      Block.collect Block.declares? w.globals := by
    rw [← hgs, ← Block.flatMap_collect, List.flatMap_map, List.flatMap_map]
    rfl
  obtain ⟨setup, setupItems, hsetup, hgives⟩ := exists_sectionBody hstyle w.roots
    (s := .setup) (by simp) (.mk setupType [] [.chain setupInput w.setup]) rfl
    fun b hb => (h.setup b hb).returns
  obtain ⟨loop, loopItems, hloop, hgives'⟩ := exists_sectionBody hstyle w.roots
    (s := .loop) (by simp) (.mk loopType [] [.chain loopInput w.loop]) rfl
    fun b hb => (h.loop b hb).returns
  obtain ⟨c, hrun, hboth⟩ := hgives.bind
    (f := fun setup => sectionBody style w.roots .loop >>= fun loop => pure (setup, loop))
    (hgives'.map fun loop => (setup, loop)) c₁
  have hall := hleaves.trans hboth
  rw [hblocks] at htop
  rw [hassigned, hdeclares] at hall
  refine ⟨gs, setup, loop, setupItems, loopItems, c, hgs, hsetup, hloop, ?_, ?_, hall.includes,
    hall.functions, ?_⟩
  · change ((w.globals.forM (addTop style)) {} >>= fun result => _) = _
    rw [htop]
    exact hrun
  · rw [hboth.globals, hglobals, List.map_map]
    rfl
  · have hnone : (c.assigned.filter fun name => !c.declared.contains name) = [] := by
      refine List.filter_eq_nil_iff.mpr fun name hname => ?_
      have hassigned := ((hall.assigned name).mp hname).resolve_left (by simp)
      have hdeclared := (hall.declared name).mpr (Or.inr (h.collect_subset name hassigned))
      simpa using hdeclared
    rw [Context.declareAssigned, hnone]
    rfl

end Workspace.IsCanonical

end InoBlocks
