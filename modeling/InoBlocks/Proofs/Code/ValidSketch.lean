import InoBlocks.Proofs.Check.Passage
import InoBlocks.Proofs.Code.BlockTexts

/-!
# Generated sketches are valid

Whatever the fields of the blocks hold, a sketch that is generated without raw text passes the
checks: its brackets match, both entry points are there, and its calls have the arguments that they
take.
-/

namespace InoBlocks

namespace Code

open Check Text

/-! ## Blocks around statements -/

theorem walkAll_subset_of_mem {bs : List Block} {b : Block} (h : b ∈ bs) :
    ∀ c ∈ b.walk, c ∈ Block.walkAll bs := by
  induction bs with
  | nil => cases h
  | cons d bs ih =>
      intro c hc
      rw [Block.walkAll, List.mem_append]
      rcases List.mem_cons.mp h with rfl | h
      · exact Or.inl hc
      · exact Or.inr (ih h c hc)

theorem walk_subset_walkAll {is : List Input} {i : Input} (h : i ∈ is) :
    ∀ c ∈ i.walk, c ∈ Input.walkAll is := by
  induction is with
  | nil => cases h
  | cons j is ih =>
      intro c hc
      rw [Input.walkAll, List.mem_append]
      rcases List.mem_cons.mp h with rfl | h
      · exact Or.inl hc
      · exact Or.inr (ih h c hc)

theorem walkAll_blocks (i : Input) : Block.walkAll i.blocks = i.walk := by
  cases i with
  | value name b => simp [Input.blocks, Input.walk, Block.walkAll]
  | chain name bs => rfl
  | vacant name => rfl

theorem mem_walk_of_mem_chain {b c : Block} {name : String}
    (h : c ∈ Block.walkAll (b.chain name)) : c ∈ b.walk := by
  obtain ⟨type, fields, inputs⟩ := b
  rw [Block.chain, Block.input?, Block.inputs] at h
  rw [Block.walk]
  cases hfound : inputs.find? fun i => i.name == name with
  | none =>
      rw [hfound] at h
      cases h
  | some i =>
      rw [hfound] at h
      have hwalk : c ∈ i.walk := walkAll_blocks i ▸ h
      exact List.mem_cons_of_mem _ (walk_subset_walkAll (List.mem_of_find?_eq_some hfound) c hwalk)

/-! ## The functions and what stands beside them -/

theorem Makes.forM {α : Type} {k : α → Gen Unit} {xs : List α}
    (h : ∀ x ∈ xs, Makes (k x) fun _ => True) : Makes (xs.forM k) fun _ => True := by
  induction xs with
  | nil => exact .pure trivial
  | cons x xs ih =>
      exact (h x List.mem_cons_self).bind fun _ _ =>
        ih fun y hy => h y (List.mem_cons_of_mem x hy)

section Roots

variable {style : Style} (hstyle : IsIndent style.indent)

include hstyle

theorem makes_addTop {b : Block} (h : ∀ c ∈ b.walk, IsTemplated c) :
    Makes (addTop style b) fun _ => True := by
  have hpart := goodPart_part b h
  have hraw : b.type ∉ rawTypes := by
    cases b
    exact (h _ List.mem_cons_self).2
  unfold addTop
  split
  · exact .pure trivial
  · split
    · exact (hpart.statement style.top hstyle).bind fun text htext =>
        .modify fun c hc => hc.addVariable htext
    · split
      · rename_i hfunction
        refine absurd ?_ hraw
        simp only [Bool.or_eq_true, beq_iff_eq] at hfunction
        rcases hfunction with heq | heq <;> simp [heq, rawTypes]
      · exact .modify fun c hc => hc.warn _

theorem makes_sectionBody {roots : List Block} (h : ∀ c ∈ Block.walkAll roots, IsTemplated c)
    {s : Section} (hs : s ∈ [Section.setup, Section.loop]) :
    Makes (sectionBody style roots s) (Line 0 0) := by
  have hremarks : ∀ s ∈ [Section.setup, Section.loop],
      ∀ text ∈ ["// add an " ++ s.type ++ " block", "// " ++ s.name ++ " code"],
        ['/', '/'] <+: text.toList ∧ '\n' ∉ text.toList := by
    decide
  have hremark : ∀ text ∈ ["// add an " ++ s.type ++ " block", "// " ++ s.name ++ " code"],
      Line 0 0 (Statement.line style.top.deeper text) := fun text htext =>
    line_placed hstyle (.comment (hremarks s hs text htext).1 (hremarks s hs text htext).2 0)
  unfold sectionBody
  dsimp only
  split
  · exact .pure (hremark _ (by simp))
  · rename_i root hroot
    have hparts := goodPart_parts (root.chain s.input) fun c hc =>
      h c (walkAll_subset_of_mem (List.mem_of_find?_eq_some hroot) c (mem_walk_of_mem_chain hc))
    refine (makes_statements hparts (p := style.top.deeper) hstyle).map fun body hbody => ?_
    split
    · exact hremark _ (by simp)
    · rename_i hne
      rcases hbody with rfl | hbody
      · exact absurd rfl hne
      · exact hbody

theorem makes_bodies {roots : List Block} (h : ∀ c ∈ Block.walkAll roots, IsTemplated c) :
    Makes (bodies style roots) fun texts => Line 0 0 texts.1 ∧ Line 0 0 texts.2 := by
  refine (Makes.forM fun b hb => makes_addTop hstyle fun c hc =>
    h c (walkAll_subset_of_mem hb c hc)).bind fun _ _ => ?_
  exact (makes_sectionBody hstyle h (s := .setup) (by simp)).bind fun setup hsetup =>
    (makes_sectionBody hstyle h (s := .loop) (by simp)).map fun loop hloop => ⟨hsetup, hloop⟩

end Roots

theorem Neat.declareAssigned {c : Context} (h : Neat c) : Neat c.declareAssigned := by
  have hnames : ∀ name ∈ c.assigned.filter fun name => !c.declared.contains name, IsName name :=
    fun name hname => h.assigned name (List.mem_filter.mp hname).1
  rw [Context.declareAssigned]
  generalize c.assigned.filter _ = names at hnames
  induction names generalizing c with
  | nil => exact h
  | cons name names ih =>
      obtain ⟨hname, hnames⟩ := List.forall_mem_cons.mp hnames
      have htyped : ValueText ("int" ++ " " ++ name) := valueText_typed (by decide) hname
      obtain ⟨m, hm, -⟩ := htyped
      exact ih (h.addVariable (.clause hm 0)) hnames

/-! ## Sections -/

theorem line_functionText {s : Section} (hs : s ∈ [Section.setup, Section.loop]) {body : String}
    (hbody : Line 0 0 body) : Line 0 0 (functionText s body) := by
  have hnames : ∀ s ∈ [Section.setup, Section.loop], isFreeCall ("void " ++ s.name) = true := by
    decide
  have hcall : ValueText (Value.callText ("void " ++ s.name) []) :=
    valueText_freeCall (hnames s hs) (by simp)
  obtain ⟨m, hm, -⟩ := hcall
  have hlines : Lines 0 0 [Value.callText ("void " ++ s.name) [] ++ " \x7b", body, "\x7d"] :=
    .cons (.opens hm 0) (.cons (hbody.under 1) (.cons (.closes 0) .nil))
  refine cast (congrArg (Line 0 0) ?_) (hlines.joinLines (by simp))
  rw [← String.toList_inj]
  simp [functionText, Value.callText, Text.joinLines]

def sections (style : Style) (c : Context) (setup loop : String) : List String :=
  (if style.header then [Text.joinLines (headerLines style)] else []) ++
    joined "\n" (c.includes.map ("#include " ++ ·)) ++
    joined "\n" c.globals ++
    joined "\n\n" c.functions ++
    [functionText .setup setup, functionText .loop loop]

theorem line_joined {items : List String} (h : ∀ item ∈ items, Line 0 0 item) :
    ∀ s ∈ joined "\n" items, Line 0 0 s := by
  intro s hs
  unfold joined at hs
  split at hs
  · cases hs
  · rename_i hne
    obtain rfl := List.mem_singleton.mp hs
    exact (Lines.ofForall h).joinLines (by simpa using hne)

theorem line_sections {style : Style} (htime : ∀ time ∈ style.time, '\n' ∉ time.toList)
    {c : Context} (hc : Neat c) {setup loop : String} (hsetup : Line 0 0 setup)
    (hloop : Line 0 0 loop) : ∀ s ∈ sections style c setup loop, Line 0 0 s := by
  have hheader : ∀ text ∈ headerLines style, Line 0 0 text := by
    intro text htext
    rcases List.mem_append.mp htext with htext | htext
    · have htitles : ∀ text ∈ ["// Arduino sketch", "// Generated by sketchblocks"],
          ['/', '/'] <+: text.toList ∧ '\n' ∉ text.toList := by
        decide
      exact .comment (htitles text htext).1 (htitles text htext).2 0
    · obtain ⟨time, hmem, rfl⟩ := List.mem_map.mp htext
      have hfeed := htime time (Option.mem_toList.mp hmem)
      exact .comment (by simp) (by simpa using hfeed) 0
  have hincludes : ∀ text ∈ c.includes.map ("#include " ++ ·), Line 0 0 text := by
    intro text htext
    obtain ⟨header, hmem, rfl⟩ := List.mem_map.mp htext
    rw [hc.includes header hmem]
    exact .angled (s := "#include <math.h") (.simple (by decide)) 0
  intro s hs
  simp only [sections, List.mem_append] at hs
  rcases hs with (((hs | hs) | hs) | hs) | hs
  · split at hs
    · obtain rfl := List.mem_singleton.mp hs
      exact (Lines.ofForall hheader).joinLines (by simp [headerLines])
    · cases hs
  · exact line_joined hincludes s hs
  · exact line_joined hc.globals s hs
  · rw [hc.functions] at hs
    cases hs
  · rcases List.mem_cons.mp hs with rfl | hs
    · exact line_functionText (by simp) hsetup
    · obtain rfl := List.mem_singleton.mp hs
      exact line_functionText (by simp) hloop

theorem exists_functionText {name : String} (hname : name ∈ entryPoints) (style : Style)
    (c : Context) (setup loop : String) :
    ∃ s ∈ sections style c setup loop, ∃ back, s.toList = (entryHeader name).toList ++ back := by
  simp only [entryPoints, List.mem_cons, List.not_mem_nil, or_false] at hname
  rcases hname with rfl | rfl
  · exact ⟨functionText .setup setup, by simp [sections], '\n' :: setup.toList ++ ['\n', '}'],
      by simp [functionText, entryHeader, Section.setup]⟩
  · exact ⟨functionText .loop loop, by simp [sections], '\n' :: loop.toList ++ ['\n', '}'],
      by simp [functionText, entryHeader, Section.loop]⟩

/-- A sketch put together from neat pieces is its sections, with empty lines between them. -/
theorem assemble_toList {style : Style} (htime : ∀ time ∈ style.time, '\n' ∉ time.toList)
    {c : Context} (hc : Neat c) {setup loop : String} (hsetup : Line 0 0 setup)
    (hloop : Line 0 0 loop) :
    (assemble style c setup loop).toList =
      ("\n\n".intercalate (sections style c setup loop)).toList ++ ['\n'] := by
  have hpassage := passage_sections (line_sections htime hc hsetup hloop) (by simp [sections])
  have hspaced : isSpaced 0 ("\n\n".intercalate (sections style c setup loop)).toList = true := by
    have hall := hpassage.spaced 0 [] (by decide)
    rw [List.append_nil] at hall
    exact isSpaced_of_append (hall.trans rfl)
  rw [assemble, String.toList_append, String.toList_ofList]
  exact congrArg (· ++ ['\n']) (squeeze_eq_self hspaced)

/-- A sketch put together from neat pieces is valid. -/
theorem assemble_isValid {style : Style} (htime : ∀ time ∈ style.time, '\n' ∉ time.toList)
    {c : Context} (hc : Neat c) {setup loop : String} (hsetup : Line 0 0 setup)
    (hloop : Line 0 0 loop) (file : String) :
    ∃ v, validate (assemble style c setup loop) file = .ok v ∧ v.isValid = true := by
  have hlines := line_sections htime hc hsetup hloop
  have hpassage := passage_sections hlines (by simp [sections])
  have htext := assemble_toList htime hc hsetup hloop
  refine validate_of_passage (by rw [htext]; exact hpassage) (fun name hname => ?_) file
  obtain ⟨s, hs, back, hback⟩ := exists_functionText hname style c setup loop
  obtain ⟨front, after, m, hsplit, hmasks, hend⟩ := exists_section hlines hs
  rw [htext, hsplit, hback]
  have hentry := exists_entryPoint hname hmasks hend (back ++ (after ++ ['\n']))
  simpa using hentry

theorem isValid_of_generate {style : Style} (hindent : IsIndent style.indent)
    (htime : ∀ time ∈ style.time, '\n' ∉ time.toList) {roots : List Block}
    (h : ∀ b ∈ Block.walkAll roots, IsTemplated b) {g : Generated}
    (hg : generate style roots = .ok g) (file : String) :
    ∃ v, validate g.code file = .ok v ∧ v.isValid = true := by
  rw [generate] at hg
  cases hbodies : bodies style roots {} with
  | error fault =>
      rw [StateT.run, hbodies] at hg
      cases hg
  | ok result =>
      obtain ⟨⟨setup, loop⟩, c⟩ := result
      rw [StateT.run, hbodies] at hg
      have hempty : Neat {} := ⟨by simp, by simp, rfl, by simp⟩
      obtain ⟨⟨hsetup, hloop⟩, hc⟩ := makes_bodies hindent h _ _ _ hempty hbodies
      cases hcheck : style.validation (assemble style c.declareAssigned setup loop) with
      | error overlong =>
          simp [Except.mapError, bind, Except.bind, hcheck] at hg
      | ok validation =>
          simp [Except.mapError, bind, Except.bind, hcheck, pure, Except.pure] at hg
          subst hg
          exact assemble_isValid htime hc.declareAssigned hsetup hloop file

end Code

/-- The top blocks of a workspace have templates if its blocks have. -/
theorem Workspace.roots_isTemplated {w : Workspace} (h : ∀ b ∈ w.walk, Code.IsTemplated b) :
    ∀ b ∈ Block.walkAll w.roots, Code.IsTemplated b := by
  intro b hb
  have hroot : ∀ input blocks, ∀ type ∈ [setupType, loopType],
      Code.IsTemplated (.mk type [] [.chain input blocks]) := by
    intro input blocks type htype
    simp only [List.mem_cons, List.not_mem_nil, or_false] at htype
    have hraw : setupType ∉ Code.rawTypes ∧ loopType ∉ Code.rawTypes := by decide
    rcases htype with rfl | rfl
    · exact ⟨Or.inr (Or.inr (Or.inl rfl)), hraw.1⟩
    · exact ⟨Or.inr (Or.inr (Or.inr rfl)), hraw.2⟩
  simp only [roots, Block.walkAll, Block.walk, Input.walkAll, Input.walk, List.append_nil,
    List.cons_append, List.mem_cons, List.mem_append] at hb
  rcases hb with rfl | hb | rfl | hb | hb
  · exact hroot _ _ _ (by simp)
  · exact h b (by simp [walk, hb])
  · exact hroot _ _ _ (by simp)
  · exact h b (by simp [walk, hb])
  · exact h b (by simp [walk, hb])

/-- Whatever the fields of its blocks hold, a sketch generated from blocks with templates and
without raw text is valid. -/
theorem Workspace.generate_isValid (w : Workspace) (style : Code.Style)
    (hindent : Code.IsIndent style.indent) (htime : ∀ time ∈ style.time, '\n' ∉ time.toList)
    (hblocks : ∀ b ∈ w.walk, Code.IsTemplated b) {g : Code.Generated}
    (hg : w.generate style = .ok g) (file : String) :
    ∃ v, validate g.code file = .ok v ∧ v.isValid = true := by
  exact Code.isValid_of_generate hindent htime (roots_isTemplated hblocks) hg file

/-- A program whose fields try to break out of their templates. -/
def breakoutWorkspace : Workspace where
  setup := [.ofTexts "arduino_pinmode" [("PIN", "13); \x7d //"), ("MODE", "OUTPUT, 1")] []]
  loop := [.ofTexts "variables_set" [("VAR", "x) \x7b")]
    [.value "VALUE" (.ofTexts "text" [("TEXT", "\"); \x7d /* '\n")] [])]]

/-- None of them does. -/
theorem Workspace.generate_isValid_breakout :
    ∃ g, breakoutWorkspace.generate {} = .ok g ∧
      ∃ v, validate g.code "<sketch>" = .ok v ∧ v.isValid = true :=
  ⟨_, rfl, breakoutWorkspace.generate_isValid {} (by unfold Code.IsIndent; decide) (by simp)
    (by decide) rfl "<sketch>"⟩

end InoBlocks
