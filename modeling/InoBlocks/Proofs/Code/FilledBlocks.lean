import InoBlocks.Proofs.Code.Completes

/-!
# Filled blocks have code

A workspace whose inputs are all filled has a sketch, and generating it reports nothing.  The
sketch itself may still be refused by its checks, for a number with too many digits.
-/

namespace InoBlocks

namespace Code

theorem parts_eq_map (bs : List Block) : parts bs = bs.map part := by
  induction bs with
  | nil => rfl
  | cons b bs ih => rw [parts, ih, List.map_cons]

theorem slot_eq (i : Input) : slot i = (i.name, i.blocks.map part) := by
  cases i with
  | value name b => rfl
  | chain name bs => rw [slot, parts_eq_map]; rfl
  | vacant name => rfl

theorem slots_eq_map (is : List Input) : slots is = is.map slot := by
  induction is with
  | nil => rfl
  | cons i is ih => rw [slots, ih, List.map_cons]

/-- The parts in an input come from the blocks in an input of that name. -/
theorem chain_slots (s : Shape) {is : List Input} (hslots : s.slots = slots is) (name : String) :
    s.chain name = [] ∨ ∃ i ∈ is, i.name = name ∧ s.chain name = i.blocks.map part := by
  rw [Shape.chain, hslots, slots_eq_map]
  cases hlookup : (is.map slot).lookup name with
  | none => exact Or.inl rfl
  | some chain =>
      obtain ⟨front, back, hsplit, -⟩ := List.lookup_eq_some_iff.mp hlookup
      have hmem : (name, chain) ∈ is.map slot := by rw [hsplit]; simp
      obtain ⟨i, hi, heq⟩ := List.mem_map.mp hmem
      rw [slot_eq, Prod.mk.injEq] at heq
      exact Or.inr ⟨i, hi, heq.1, heq.2.symm⟩

/-- Whether a block completes in the places that its type may stand in. -/
structure HasCode (b : Block) : Prop where
  value : b.hasValue = true → Completes (part b).value fun _ => True
  statement : b.isCoded = true → ∀ p, Completes ((part b).statement p) fun _ => True

/-- A shape is filled if its inputs are, with blocks that have code. -/
theorem Shape.isFilled_of_inputs {s : Shape} {is : List Input} (hslots : s.slots = Code.slots is)
    (hfilled : ∀ i ∈ is, i.isFilled = true) (hcode : ∀ i ∈ is, ∀ b ∈ i.blocks, HasCode b) :
    s.IsFilled where
  value := by
    intro name hname
    refine (chain_slots s hslots name).imp_right ?_
    rintro ⟨i, hi, rfl, hchain⟩
    have hi' := hfilled i hi
    rw [hchain]
    cases i with
    | value name b =>
        rw [Input.isFilled, Bool.and_eq_true] at hi'
        exact ⟨part b, rfl, (hcode _ hi b (by simp [Input.blocks])).value hi'.2⟩
    | chain name bs =>
        rw [Input.isFilled, Bool.and_eq_true] at hi'
        exact absurd (hi'.1.symm.trans hname) Bool.noConfusion
    | vacant name => cases hi'
  body := by
    intro name hname p hp place
    rcases chain_slots s hslots name with hchain | ⟨i, hi, rfl, hchain⟩
    · rw [hchain] at hp
      cases hp
    · have hi' := hfilled i hi
      rw [hchain] at hp
      obtain ⟨b, hb, rfl⟩ := List.mem_map.mp hp
      refine (hcode i hi b hb).statement ?_ place
      cases i with
      | value name b' =>
          rw [Input.isFilled, Bool.and_eq_true, Bool.not_eq_true'] at hi'
          exact absurd (hi'.1.symm.trans hname) Bool.noConfusion
      | chain name bs =>
          rw [Input.isFilled, Bool.and_eq_true, List.all_eq_true] at hi'
          exact hi'.2 b hb
      | vacant name => cases hb

mutual

theorem hasCode (b : Block) (h : b.IsFilled) : HasCode b := by
  obtain ⟨type, fields, inputs⟩ := b
  rw [Block.IsFilled, Block.walk, List.forall_mem_cons] at h
  have hshape : Shape.IsFilled ⟨type, fields, slots inputs⟩ :=
    Shape.isFilled_of_inputs rfl h.1 (hasCode_inputs inputs h.2)
  exact ⟨hshape.operand, hshape.statement⟩

theorem hasCode_inputs (is : List Input) (h : ∀ c ∈ Input.walkAll is, ∀ i ∈ c.inputs, i.isFilled) :
    ∀ i ∈ is, ∀ b ∈ i.blocks, HasCode b := by
  match is with
  | [] => exact fun i hi => nomatch hi
  | i :: is =>
      rw [Input.walkAll, List.forall_mem_append] at h
      exact List.forall_mem_cons.mpr ⟨hasCode_input i h.1, hasCode_inputs is h.2⟩

theorem hasCode_input (i : Input) (h : ∀ c ∈ i.walk, ∀ i ∈ c.inputs, i.isFilled) :
    ∀ b ∈ i.blocks, HasCode b := by
  match i with
  | .value name b => exact List.forall_mem_singleton.mpr (hasCode b h)
  | .chain name bs => exact hasCode_blocks bs h
  | .vacant name => exact fun b hb => nomatch hb

theorem hasCode_blocks (bs : List Block) (h : ∀ c ∈ Block.walkAll bs, ∀ i ∈ c.inputs, i.isFilled) :
    ∀ b ∈ bs, HasCode b := by
  match bs with
  | [] => exact fun b hb => nomatch hb
  | b :: bs =>
      rw [Block.walkAll, List.forall_mem_append] at h
      exact List.forall_mem_cons.mpr ⟨hasCode b h.1, hasCode_blocks bs h.2⟩

end

/-! ## Sketches -/

/-- The blocks of a workspace are filled: the two regions hold statements, and beside them there
are declarations. -/
structure IsFilledWorkspace (w : Workspace) : Prop where
  setup : ∀ b ∈ w.setup, b.isCoded = true ∧ b.IsFilled
  loop : ∀ b ∈ w.loop, b.isCoded = true ∧ b.IsFilled
  globals : ∀ b ∈ w.globals,
    (b.type = "variables_declare" ∨ b.type = "variables_define") ∧ b.IsFilled

theorem completes_statements {bs : List Block} (h : ∀ b ∈ bs, b.isCoded = true ∧ b.IsFilled)
    (p : Place) : Completes (Shape.statements p (parts bs)) fun _ => True := by
  refine (Completes.mapM fun q hq => ?_).map _
  rw [parts_eq_map] at hq
  obtain ⟨b, hb, rfl⟩ := List.mem_map.mp hq
  exact (hasCode b (h b hb).2).statement (h b hb).1 p

theorem completes_addTop (style : Style) {w : Workspace} (h : IsFilledWorkspace w) :
    ∀ b ∈ w.roots, Completes (addTop style b) fun _ => True := by
  intro b hb
  rw [Workspace.roots, List.mem_cons, List.mem_cons] at hb
  unfold addTop
  rcases hb with rfl | rfl | hb
  · exact .pure trivial
  · exact .pure trivial
  · obtain ⟨htype, hfilled⟩ := h.globals b hb
    have hcoded : b.isCoded = true := by
      rcases htype with htype | htype <;> rw [Block.isCoded, htype] <;> rfl
    have htop : Completes (do
        let text ← (part b).statement style.top
        modify fun c => c.addVariable text) fun _ => True :=
      ((hasCode b hfilled).statement hcoded style.top).bind fun _ _ => .modify fun _ => rfl
    rcases htype with htype | htype <;> rw [htype] <;> exact htop

theorem completes_bodies (style : Style) {w : Workspace} (h : IsFilledWorkspace w) :
    Completes (bodies style w.roots) fun _ => True := by
  have hsection : ∀ {s : Section} {bs : List Block}, (∀ b ∈ bs, b.isCoded = true ∧ b.IsFilled) →
      (w.roots.find? fun b => b.type == s.type) = some (.mk s.type [] [.chain s.input bs]) →
      Completes (sectionBody style w.roots s) fun _ => True := by
    intro s bs hbs hroot
    have hchain : (Block.mk s.type [] [.chain s.input bs]).chain s.input = bs := by
      simp [Block.chain, Block.input?, Block.inputs, Input.name, Input.blocks]
    unfold sectionBody
    simp only [hroot, hchain]
    exact (completes_statements hbs _).map _
  refine (Completes.forM (completes_addTop style h)).bind fun _ _ => ?_
  exact (hsection h.setup rfl).bind fun _ _ => (hsection h.loop rfl).map _

theorem findings_declareAssigned (c : Context) : c.declareAssigned.findings = c.findings := by
  rw [Context.declareAssigned]
  generalize c.assigned.filter _ = names
  induction names generalizing c with
  | nil => rfl
  | cons name names ih => exact (ih _).trans rfl

/-- A sketch with what the bodies of its functions leave behind. -/
structure Generated.Holds (g : Generated) (c : Context) : Prop where
  includes : g.includes = c.includes
  globals : g.globals = c.globals
  diagnostics : g.diagnostics = c.findings.diagnostics

/-- Where the two functions have bodies there is a sketch, unless it is to be checked and holds a
number with too many digits. -/
theorem generate_of_bodies {style : Style} {roots : List Block} {setup loop : String} {c : Context}
    (h : bodies style roots {} = .ok ((setup, loop), c)) :
    (∃ g, generate style roots = .ok g ∧ g.Holds c.declareAssigned ∧
        g.code = assemble style c.declareAssigned setup loop) ∨
      style.check = true ∧ ∃ o, generate style roots = .error (.overlong o) := by
  have hbodies : ((bodies style roots).run {}).mapError GenerateFault.shape =
      .ok ((setup, loop), c) := by
    rw [StateT.run, h]
    rfl
  have hgenerate : generate style roots =
      (style.validation (assemble style c.declareAssigned setup loop)).mapError .overlong >>=
        fun validation => .ok {
          code := assemble style c.declareAssigned setup loop
          includes := c.declareAssigned.includes
          globals := c.declareAssigned.globals
          functions := c.declareAssigned.functions
          diagnostics := c.declareAssigned.findings.diagnostics
          validation := validation } := by
    rw [generate, hbodies]
    rfl
  rw [hgenerate]
  cases hvalidation : style.validation (assemble style c.declareAssigned setup loop) with
  | ok validation => exact Or.inl ⟨_, rfl, ⟨rfl, rfl, rfl⟩, rfl⟩
  | error o =>
      refine Or.inr ⟨?_, o, rfl⟩
      cases hcheck : style.check with
      | true => rfl
      | false =>
          rw [Style.validation, hcheck] at hvalidation
          cases hvalidation

/-- A filled workspace has a sketch, and generating it reports nothing, unless the sketch is to be
checked and holds a number with too many digits. -/
theorem generate_of_isFilled {w : Workspace} (h : IsFilledWorkspace w) (style : Style) :
    (∃ g, w.generate style = .ok g ∧ g.diagnostics = []) ∨
      style.check = true ∧ ∃ o, w.generate style = .error (.overlong o) := by
  obtain ⟨⟨setup, loop⟩, c, hrun, -, hfindings⟩ := completes_bodies style h {}
  refine (generate_of_bodies hrun).imp_left ?_
  rintro ⟨g, hg, hholds, -⟩
  refine ⟨g, hg, ?_⟩
  rw [hholds.diagnostics, findings_declareAssigned, hfindings]
  rfl

end Code

end InoBlocks
