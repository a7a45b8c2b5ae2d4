import InoBlocks.Proofs.Code.Gives
import InoBlocks.Proofs.Code.Reached

/-!
# What is left behind on the way

Generating code visits blocks one after the other, and each leaves something behind by itself: a
header, a name that it assigns or declares, or a warning.  `Visits g bad bs` says that a computation
visits the blocks `bs` and leaves behind what these do, unless it fails because of `bad`.  It holds
of a sequence of computations if it holds of each, so every template visits its block and then what
is come to by way of the inputs that it reads.
-/

namespace InoBlocks

namespace Block

def needsMath (b : Block) : Bool :=
  ["arduino_pow", "arduino_sqrt", "math_single", "math_trig", "math_constant"].contains b.type ||
    b.type == "math_arithmetic" && b.field? "OP" == some "POWER"

def variableName (b : Block) : String :=
  safeNameOf (b.field? "VAR") unnamed

def assignedName? (b : Block) : Option String :=
  if b.type == "variables_set" then some b.variableName else none

def declaredName? (b : Block) : Option String :=
  if b.isDeclaring then some b.variableName else none

end Block

namespace Code

def Context.visit (c : Context) (b : Block) : Context where
  includes := if b.needsMath then addNew c.includes mathHeader else c.includes
  globals := c.globals
  functions := c.functions
  declared := b.declaredName?.elim c.declared (addNew c.declared)
  assigned := b.assignedName?.elim c.assigned (addNew c.assigned)
  findings :=
    if b.isCoded then c.findings
    else c.findings.record .warning ("unsupported block: " ++ b.type) none

def IsStructural (fault : Fault) : Prop :=
  ∃ message blockType, fault.cause = .blockStructure message blockType

/-- A computation succeeds in every context, with the same result, and changes the context in one
way; or else it is bad, and fails in every context. -/
structure Runs {α : Type} (g : Gen α) (bad : Prop) (k : Context → Context) : Prop where
  ok : ¬ bad → ∃ a, ∀ c, g c = .ok (a, k c)
  error : bad → ∀ c, ∃ fault, g c = .error fault ∧ IsStructural fault

namespace Runs

variable {α β γ : Type} {g : Gen α} {f : α → Gen β} {bad bad' : Prop} {k k' : Context → Context}

theorem pure (a : α) : Runs (Pure.pure a) False id :=
  ⟨fun _ => ⟨a, fun _ => rfl⟩, False.elim⟩

theorem modify (k : Context → Context) :
    Runs (MonadState.modifyGet fun c => ((), k c) : Gen Unit) False k :=
  ⟨fun _ => ⟨(), fun _ => rfl⟩, False.elim⟩

theorem malformed (message : String) (blockType : Option String) (k : Context → Context) :
    Runs (Code.malformed message blockType : Gen α) True k :=
  ⟨fun h => absurd trivial h, fun _ _ => ⟨_, rfl, message, blockType, rfl⟩⟩

theorem congr (h : Runs g bad k) (hbad : bad ↔ bad') (hk : ∀ c, k c = k' c) : Runs g bad' k' :=
  ⟨fun hgood => (h.ok (mt hbad.mp hgood)).imp fun _ hrun c => hk c ▸ hrun c,
    fun hbad' => h.error (hbad.mpr hbad')⟩

/-- Where a computation fails, it does not matter what it would have changed. -/
theorem fail (h : Runs g True k) (hbad : bad) : Runs g bad k' :=
  ⟨fun hgood => absurd hbad hgood, fun _ => h.error trivial⟩

theorem bind (hg : Runs g bad k) (hf : ∀ a, Runs (f a) bad' k') :
    Runs (g >>= f) (bad ∨ bad') fun c => k' (k c) := by
  constructor
  · rw [not_or]
    rintro ⟨hgood, hgood'⟩
    obtain ⟨a, hrun⟩ := hg.ok hgood
    obtain ⟨b, hrun'⟩ := (hf a).ok hgood'
    refine ⟨b, fun c => ?_⟩
    change (g c >>= fun result => f result.1 result.2) = _
    rw [hrun]
    exact hrun' _
  · intro hbad c
    change ∃ fault, (g c >>= fun result => f result.1 result.2) = .error fault ∧ _
    by_cases h : bad
    · obtain ⟨fault, hrun, hfault⟩ := hg.error h c
      rw [hrun]
      exact ⟨fault, rfl, hfault⟩
    · obtain ⟨a, hrun⟩ := hg.ok h
      rw [hrun]
      exact (hf a).error (hbad.resolve_left h) _

theorem halt (h : Runs g True k) (f : α → Gen β) : Runs (g >>= f) True k := by
  refine ⟨fun hgood => absurd trivial hgood, fun _ c => ?_⟩
  obtain ⟨fault, hrun, hfault⟩ := h.error trivial c
  refine ⟨fault, ?_, hfault⟩
  change (g c >>= fun result => f result.1 result.2) = _
  rw [hrun]
  rfl

/-- A computation whose result is only put into another form. -/
theorem map (h : Runs g bad k) (f : α → β) : Runs (g >>= fun a => Pure.pure (f a)) bad k :=
  (h.bind fun a => pure (f a)).congr (iff_of_eq (or_false bad)) fun _ => rfl

theorem mapM {f : γ → Gen β} {xs : List γ} {bad : γ → Prop} {k : Context → γ → Context}
    (h : ∀ x ∈ xs, Runs (f x) (bad x) fun c => k c x) :
    Runs (xs.mapM f) (∃ x ∈ xs, bad x) fun c => xs.foldl k c := by
  induction xs with
  | nil => exact (pure []).congr (by simp) fun _ => rfl
  | cons x xs ih =>
      rw [List.mapM_cons]
      have hrest := ih fun y hy => h y (List.mem_cons_of_mem x hy)
      exact ((h x List.mem_cons_self).bind fun y => hrest.map (y :: ·)).congr (by simp) fun _ => rfl

theorem forM {f : γ → Gen Unit} {xs : List γ} {bad : γ → Prop} {k : Context → γ → Context}
    (h : ∀ x ∈ xs, Runs (f x) (bad x) fun c => k c x) :
    Runs (xs.forM f) (∃ x ∈ xs, bad x) fun c => xs.foldl k c := by
  induction xs with
  | nil => exact (pure ()).congr (by simp) fun _ => rfl
  | cons x xs ih =>
      have hrest := ih fun y hy => h y (List.mem_cons_of_mem x hy)
      exact ((h x List.mem_cons_self).bind fun _ => hrest).congr (by simp) fun _ => rfl

end Runs

abbrev Visits {α : Type} (g : Gen α) (bad : Prop) (bs : List Block) : Prop :=
  Runs g bad fun c => bs.foldl Context.visit c

namespace Visits

variable {α β γ : Type} {g : Gen α} {f : α → Gen β} {bad bad' : Prop} {bs bs' : List Block}

theorem congr (h : Visits g bad bs) (hbad : bad ↔ bad') (hbs : bs = bs') : Visits g bad' bs' :=
  Runs.congr h hbad fun _ => hbs ▸ rfl

theorem pure (a : α) : Visits (Pure.pure a) False [] :=
  Runs.pure a

theorem bind (hg : Visits g bad bs) (hf : ∀ a, Visits (f a) bad' bs') :
    Visits (g >>= f) (bad ∨ bad') (bs ++ bs') :=
  (Runs.bind hg hf).congr Iff.rfl fun _ => List.foldl_append.symm

theorem mapM {f : γ → Gen β} {xs : List γ} {bad : γ → Prop} {bs : γ → List Block}
    (h : ∀ x ∈ xs, Visits (f x) (bad x) (bs x)) :
    Visits (xs.mapM f) (∃ x ∈ xs, bad x) (xs.flatMap bs) :=
  (Runs.mapM h).congr Iff.rfl fun _ => List.foldl_flatMap.symm

/-- A block that leaves nothing behind may be visited beforehand. -/
theorem silent {b : Block} (h : Visits g bad bs) (hb : ∀ c : Context, c.visit b = c) :
    Visits g bad (b :: bs) :=
  Runs.congr h Iff.rfl fun c => by rw [List.foldl_cons, hb]

theorem modify {k : Context → Context} {b : Block} (h : ∀ c, k c = c.visit b) :
    Visits (MonadState.modifyGet fun c => ((), k c) : Gen Unit) False [b] :=
  (Runs.modify k).congr Iff.rfl h

end Visits

/-! ## Inputs -/

end Code

/-- Whether reading an input of a block goes wrong, there or further down. -/
def Block.Fails (b : Block) (u : Use) : Prop :=
  b.isMisfit u = true ∨ ∃ c ∈ b.reachedBy u, c.IsMalformed

theorem Block.exists_isMalformed_reached (b : Block) :
    (∃ c ∈ b.reached, c.IsMalformed) ↔ b.type = "" ∨ ∃ u ∈ b.uses, b.Fails u := by
  simp only [reached_eq, List.mem_cons, exists_eq_or_imp, List.mem_flatMap, IsMalformed, Fails]
  constructor
  · rintro ((h | ⟨u, hu, h⟩) | ⟨c, ⟨u, hu, hc⟩, h⟩)
    · exact Or.inl h
    · exact Or.inr ⟨u, hu, Or.inl h⟩
    · exact Or.inr ⟨u, hu, Or.inr ⟨c, hc, h⟩⟩
  · rintro (h | ⟨u, hu, h | ⟨c, hc, h⟩⟩)
    · exact Or.inl (Or.inl h)
    · exact Or.inl (Or.inr ⟨u, hu, h⟩)
    · exact Or.inr ⟨c, ⟨u, hu, hc⟩, h⟩

namespace Code

theorem exists_mem_flatMap {α β : Type} {xs : List α} {f : α → List β} {P : β → Prop} :
    (∃ y ∈ xs.flatMap f, P y) ↔ ∃ x ∈ xs, ∃ y ∈ f x, P y := by
  simp only [List.mem_flatMap]
  exact ⟨fun ⟨y, ⟨x, hx, hy⟩, h⟩ => ⟨x, hx, y, hy, h⟩,
    fun ⟨x, hx, y, hy, h⟩ => ⟨y, ⟨x, hx, hy⟩, h⟩⟩

/-- A computation reads inputs of a block, one after the other. -/
def Reads {α : Type} (b : Block) (g : Gen α) (us : List Use) : Prop :=
  Visits g (∃ u ∈ us, b.Fails u) (us.flatMap b.reachedBy)

namespace Reads

variable {α β : Type} {b : Block} {g : Gen α} {f : α → Gen β} {us vs : List Use}

theorem pure (a : α) : Reads b (Pure.pure a) [] :=
  (Visits.pure a).congr (by simp) rfl

theorem bind (hg : Reads b g us) (hf : ∀ a, Reads b (f a) vs) : Reads b (g >>= f) (us ++ vs) :=
  (Visits.bind hg hf).congr (by simp only [List.mem_append, or_and_right, exists_or])
    List.flatMap_append.symm

theorem map (hg : Reads b g us) (k : α → β) : Reads b (g >>= fun a => Pure.pure (k a)) us :=
  Runs.map hg k

theorem mapM {γ : Type} {k : γ → Gen β} {xs : List γ} {us : γ → List Use}
    (h : ∀ x ∈ xs, Reads b (k x) (us x)) : Reads b (xs.mapM k) (xs.flatMap us) :=
  (Visits.mapM h).congr exists_mem_flatMap.symm List.flatMap_assoc.symm

end Reads

/-- The code of a block visits the block and what is come to from it, as a statement and as a value;
a statement has no value. -/
structure Visited (b : Block) : Prop where
  statement : ∀ p, Visits ((part b).statement p) (∃ c ∈ b.reached, c.IsMalformed) b.reached
  value : b.isStatement = false →
    Visits (part b).value (∃ c ∈ b.reached, c.IsMalformed) b.reached
  misplaced : b.isStatement = true → Visits (part b).value True []

/-- Statements visit what is reached from each of them. -/
theorem visits_statements {bs : List Block} (h : ∀ b ∈ bs, Visited b) (p : Place) :
    Visits (Shape.statements p (parts bs)) (∃ c ∈ bs.flatMap Block.reached, c.IsMalformed)
      (bs.flatMap Block.reached) := by
  have hlines := Visits.mapM fun b hb => (h b hb).statement p
  rw [Shape.statements, parts_eq_map, List.mapM_map]
  exact (Runs.map hlines _).congr exists_mem_flatMap.symm fun _ => rfl

/-- A shape made from a block whose inputs hold blocks that are visited. -/
structure MadeFrom (s : Shape) (b : Block) : Prop where
  type : s.type = b.type
  fields : s.fields = b.fields
  slots : s.slots.length = b.inputs.length
  chain : ∀ name, s.chain name = parts (b.chain name)
  visited : ∀ name, ∀ c ∈ b.chain name, Visited c

/-! ## What is in an input -/

section Held

variable {α : Type} {b c : Block} {g : Gen α} {name : String}

theorem reads_empty (hchain : b.chain name = []) (h : Visits g False []) :
    Reads b g [.value name] := by
  refine h.congr ?_ ?_ <;>
    simp [Block.Fails, Block.reachedBy, Block.follow, Block.isMisfit, Use.name, hchain]

theorem reads_misfit {u : Use} {us : List Use} (hu : b.isMisfit u = true) (h : Visits g True []) :
    Reads b g (u :: us) :=
  h.fail ⟨u, List.mem_cons_self, Or.inl hu⟩

theorem isMisfit_of_several (h : 1 < (b.chain name).length) :
    b.isMisfit (.value name) = true := by
  rcases hchain : b.chain name with _ | ⟨c, _ | ⟨d, ds⟩⟩ <;>
    simp_all [Block.isMisfit]

/-- What is come to in an input that holds a value is what is come to from that. -/
theorem reads_one (hchain : b.chain name = [c]) (hc : c.isStatement = false)
    (h : Visits g (∃ d ∈ c.reached, d.IsMalformed) c.reached) : Reads b g [.value name] := by
  refine h.congr ?_ ?_ <;>
    simp [Block.Fails, Block.reachedBy, Block.follow, Block.isMisfit, Use.name, hchain, hc]

theorem reads_operand {β : Type} (hchain : b.chain name = [c]) (hc : Visited c)
    (f : Operand → β) : Reads b ((part c).value >>= fun o => pure (f o)) [.value name] := by
  cases hstatement : c.isStatement with
  | true =>
      have hmisfit : b.isMisfit (.value name) = true := by
        rw [Block.isMisfit, hchain]
        exact hstatement
      exact reads_misfit hmisfit (Runs.halt (hc.misplaced hstatement) _)
  | false => exact reads_one hchain hstatement ((hc.value hstatement).map f)

/-- A number or a text leaves nothing behind, so it need not be evaluated. -/
theorem reads_literal (hchain : b.chain name = [c])
    (hc : (part c).type = "math_number" ∨ (part c).type = "text") (h : Visits g False []) :
    Reads b g [.value name] := by
  obtain ⟨type, fields, inputs⟩ := c
  have hliteral : type ≠ "" ∧ Block.isStatement (.mk type fields inputs) = false ∧
      Block.uses (.mk type fields inputs) = [] ∧
      ∀ c : Context, c.visit (.mk type fields inputs) = c := by
    rcases hc with rfl | rfl <;> exact ⟨by decide, rfl, rfl, fun c => rfl⟩
  obtain ⟨htype, hstatement, huses, hvisit⟩ := hliteral
  -- Nothing is come to in it, and it leaves nothing behind, so it counts as visited.
  refine reads_one hchain hstatement ?_
  rw [Block.exists_isMalformed_reached, Block.reached_eq, huses]
  exact (h.silent hvisit).congr (by simpa [Block.type] using htype) rfl

end Held

namespace MadeFrom

variable {α : Type} {s : Shape} {b : Block} (h : MadeFrom s b)

include h

theorem field? (name : String) : s.field? name = b.field? name := by
  rw [Shape.field?, Block.field?, h.fields]

theorem variableName : Value.variableName s = b.variableName := by
  rw [Value.variableName, Block.variableName, h.field?]

/-- Several blocks are refused where one part is asked for. -/
theorem target_several {name : String} (hseveral : 1 < (b.chain name).length)
    (k : Option Part → Gen α) : Visits (s.target name >>= k) True [] := by
  have hfails : Visits (s.target name) True [] := by
    unfold Shape.target
    rw [h.chain, parts_eq_map]
    rcases hchain : b.chain name with _ | ⟨c, _ | ⟨d, ds⟩⟩
    · simp [hchain] at hseveral
    · simp [hchain] at hseveral
    · exact .malformed _ _ _
  exact hfails.halt k

theorem target_eq {name : String} (hone : (b.chain name).length ≤ 1) :
    s.target name = pure ((b.chain name).head?.map part) := by
  unfold Shape.target
  rw [h.chain, parts_eq_map]
  rcases hchain : b.chain name with _ | ⟨c, _ | ⟨d, ds⟩⟩
  · rfl
  · rfl
  · simp [hchain] at hone

/-- What is made of the one part in an input reads that input. -/
theorem target {k : Option Part → Gen α} {name : String} (hnone : Visits (k none) False [])
    (hone : ∀ c, b.chain name = [c] → Reads b (k (some (part c))) [.value name]) :
    Reads b (s.target name >>= k) [.value name] := by
  by_cases hseveral : 1 < (b.chain name).length
  · exact reads_misfit (isMisfit_of_several hseveral) (h.target_several hseveral k)
  · rw [h.target_eq (by omega)]
    rcases hchain : b.chain name with _ | ⟨c, _ | ⟨d, ds⟩⟩
    · exact reads_empty hchain hnone
    · exact hone c hchain
    · simp [hchain] at hseveral

theorem value (name default : String) (demanded : Nat) :
    Reads b (s.value name default demanded) [.value name] := by
  refine h.target (.pure default) fun c hchain => ?_
  exact reads_operand hchain (h.visited name c (by simp [hchain])) _

theorem number (name default : String) (limits : Limits) :
    Reads b (s.number name default limits) [.value name] := by
  refine h.target (.pure _) fun c hchain => ?_
  dsimp only
  split
  · rename_i htype
    exact reads_literal hchain (Or.inl (eq_of_beq htype)) (.pure _)
  · exact reads_operand hchain (h.visited name c (by simp [hchain])) _

theorem pin (default : String) : Reads b (s.pin default) [.value "PIN"] := by
  refine h.target (.pure _) fun c hchain => ?_
  dsimp only
  split
  · rename_i htype
    exact reads_literal hchain (Or.inr (eq_of_beq htype)) (.pure _)
  · exact h.number "PIN" default _

theorem body (p : Place) (name : String) : Reads b (s.body p name) [.body name] := by
  have hreached : b.reachedBy (.body name) = (b.chain name).flatMap Block.reached := rfl
  have hbody := visits_statements (h.visited name) p
  rw [← h.chain, ← hreached] at hbody
  exact hbody.congr (by simp [Block.Fails, Block.isMisfit]) (by simp)

/-! ## Values -/

theorem call (name : String) (inputs : List (String × String)) :
    Reads b (Value.call name inputs s) (inputs.map fun input => .value input.1) := by
  have harguments := Reads.mapM fun input (_ : input ∈ inputs) => h.value input.1 input.2 Binding.unknown
  rw [← List.map_eq_flatMap] at harguments
  exact harguments.map _

theorem infixed (operator : String × Nat) (default : String) :
    Reads b (Value.infixed operator default s) [.value "A", .value "B"] :=
  (h.value "A" default _).bind fun _ => (h.value "B" default _).map _

end MadeFrom

/-- A computation visits a block, and then what is come to by way of the inputs that it reads. -/
def Enters {α : Type} (b : Block) (g : Gen α) : Prop :=
  Visits g (∃ u ∈ b.uses, b.Fails u) b.reached

namespace Enters

variable {α : Type} {b : Block} {g : Gen α} {us : List Use}

theorem of_reads (h : Reads b g us) (huses : b.uses = us) (hsilent : ∀ c : Context, c.visit b = c) :
    Enters b g := by
  subst huses
  rw [Enters, Block.reached_eq]
  exact h.silent hsilent

theorem of_effect {k : Context → Context} (heffect : ∀ c, k c = c.visit b) (h : Reads b g us)
    (huses : b.uses = us) :
    Enters b ((MonadState.modifyGet fun c => ((), k c) : Gen Unit) >>= fun _ => g) := by
  subst huses
  rw [Enters, Block.reached_eq]
  exact ((Visits.modify heffect).bind fun _ => h).congr (iff_of_eq (false_or _)) rfl

end Enters

theorem MadeFrom.arithmetic {s : Shape} {fields : List (String × Scalar)} {inputs : List Input}
    (h : MadeFrom s (.mk "math_arithmetic" fields inputs)) :
    Enters (.mk "math_arithmetic" fields inputs) (Value.arithmetic s) := by
  have hvisit : ∀ c : Context, c.visit (.mk "math_arithmetic" fields inputs) =
      if s.field? "OP" == some "POWER" then c.addInclude mathHeader else c := by
    intro c
    have hmath : Block.needsMath (.mk "math_arithmetic" fields inputs) =
        (s.field? "OP" == some "POWER") := by
      rw [h.field?]
      rfl
    rw [Context.visit, hmath]
    split <;> rfl
  unfold Value.arithmetic
  split
  · rename_i hpower
    exact .of_effect (fun c => by rw [hvisit, if_pos hpower]) (h.call _ _) rfl
  · rename_i hpower
    exact .of_reads (h.infixed _ _) rfl fun c => by rw [hvisit, if_neg hpower]

theorem MadeFrom.valueTemplate {s : Shape} {b : Block} (h : MadeFrom s b)
    {template : Shape → Gen Operand} (htemplate : Value.template? b.type = some template) :
    Enters b (template s) := by
  obtain ⟨type, fields, inputs⟩ := b
  unfold Value.template? at htemplate
  dsimp only [Block.type] at htemplate
  -- One case for each type, in the order of the table.
  split at htemplate <;> cases htemplate
  iterate 2 exact .of_reads ((h.pin _).map _) rfl fun c => rfl
  iterate 5 exact .of_reads (h.call _ _) rfl fun c => rfl
  iterate 2 exact .of_effect (fun c => rfl) (h.call _ _) rfl
  iterate 6 exact .of_reads (h.call _ _) rfl fun c => rfl
  · exact .of_reads (.pure _) rfl fun c => rfl
  · exact .of_reads (by unfold Value.raw; dsimp only; split <;> exact .pure _) rfl fun c => rfl
  · exact .of_reads (.pure _) rfl fun c => rfl
  iterate 2 exact .of_reads (h.infixed _ _) rfl fun c => rfl
  · exact .of_reads ((h.value "BOOL" "true" _).map _) rfl fun c => rfl
  iterate 2 exact .of_reads (.pure _) rfl fun c => rfl
  · exact h.arithmetic
  · exact .of_effect (fun c => rfl) (by split <;> exact (h.value "NUM" "0" _).map _) rfl
  · exact .of_effect (fun c => rfl) (h.call _ _) rfl
  · exact .of_effect (fun c => rfl) (.pure _) rfl
  · exact .of_reads (.pure _) rfl fun c => rfl

/-! ## Statements -/

namespace MadeFrom

variable {s : Shape} {b : Block} (h : MadeFrom s b)

include h

/-- The arms of a choice read the branches from a number on, up to the first that is not there. -/
theorem arms (p : Place) (fuel number : Nat) :
    Reads b (Statement.arms s p fuel number)
      (((List.range' number fuel).takeWhile fun n => n = 0 ∨ b.HasBranch n).flatMap
        Block.branchUses) := by
  induction fuel generalizing number with
  | zero => exact .pure []
  | succ fuel ih =>
      rw [List.range'_succ, List.takeWhile_cons]
      unfold Statement.arms
      -- The condition is asked for before it is known whether there is an arm at all, so several
      -- blocks in its place are refused first, and they make it an arm.
      by_cases hseveral : 1 < (b.chain (Branch.condition number)).length
      · have hbranch : b.HasBranch number := Or.inl (List.length_pos_iff.mp (by omega))
        rw [if_pos (decide_eq_true (Or.inr hbranch))]
        exact reads_misfit (isMisfit_of_several hseveral) (h.target_several hseveral _)
      · have hnone : 0 < number ∧ ¬ b.HasBranch number ↔ ¬ (number = 0 ∨ b.HasBranch number) := by
          rw [not_or, Nat.pos_iff_ne_zero]
        have hgap := (isGap_iff h.chain number rfl).trans hnone
        rw [Branch.statements] at hgap
        change Reads b (s.target (Branch.condition number) >>= _) _
        rw [h.target_eq (by omega), pure_bind]
        by_cases hbranch : number = 0 ∨ b.HasBranch number
        · rw [if_pos (decide_eq_true hbranch), if_neg (mt hgap.mp (not_not.mpr hbranch))]
          exact (h.value _ "false" _).bind fun value =>
            (h.body p.deeper _).bind fun body => (ih (number + 1)).map _
        · rw [if_neg (mt of_decide_eq_true hbranch), if_pos (hgap.mpr hbranch)]
          exact .pure []

theorem otherwise (p : Place) : Reads b (Statement.otherwise s p) [.body "ELSE"] := by
  unfold Statement.otherwise
  split
  · rename_i hnone
    have hchain : b.chain "ELSE" = [] := by
      simpa [h.chain, parts_eq_map] using hnone
    refine (Visits.pure []).congr ?_ ?_ <;>
      simp [Block.Fails, Block.reachedBy, Block.follow, Block.isMisfit, Use.name, hchain]
  · exact (h.body p.deeper "ELSE").map _

theorem choice (p : Place) :
    Reads b (Statement.choice s p) (b.branches.flatMap Block.branchUses ++ [.body "ELSE"]) := by
  have harms := h.arms p (s.slots.length + 1) 0
  rw [h.slots, ← List.range_eq_range'] at harms
  unfold Statement.choice
  rw [h.slots]
  exact harms.bind fun _ => (h.otherwise p).map _

theorem loopCondition : Reads b (Statement.loopCondition s) [.value "BOOL"] := by
  unfold Statement.loopCondition
  split
  · exact (h.value "BOOL" "false" _).map _
  · exact h.value "BOOL" "false" _

theorem countedLoop (p : Place) :
    Reads b (Statement.countedLoop s p) [.value "FROM", .value "TO", .value "BY", .body "DO"] :=
  (h.number "FROM" "1" _).bind fun _ => (h.number "TO" "10" _).bind fun _ =>
    (h.number "BY" "1" _).bind fun _ => (h.body p.deeper "DO").map _

end MadeFrom

theorem MadeFrom.statementTemplate {s : Shape} {b : Block} (h : MadeFrom s b)
    {template : Shape → Place → Gen String} (htemplate : Statement.template? b.type = some template)
    (p : Place) : Enters b (template s p) := by
  obtain ⟨type, fields, inputs⟩ := b
  unfold Statement.template? at htemplate
  dsimp only [Block.type] at htemplate
  split at htemplate <;> cases htemplate
  iterate 2 exact .of_reads ((h.pin _).map _) rfl fun c => rfl
  · exact .of_reads ((h.pin _).bind fun _ => (h.number "VALUE" "128" _).map _) rfl fun c => rfl
  · exact .of_reads ((h.number "TIME" "1000" _).map _) rfl fun c => rfl
  · exact .of_reads ((h.number "TIME" "100" _).map _) rfl fun c => rfl
  · exact .of_reads ((h.number "BAUD" "9600" _).map _) rfl fun c => rfl
  · exact .of_reads ((h.value "TEXT" _ _).map _) rfl fun c => rfl
  · exact .of_reads ((h.value "SEED" _ _).map _) rfl fun c => rfl
  · exact .of_effect (fun c => by rw [h.variableName]; rfl) ((h.value "VALUE" "0" _).map _) rfl
  · exact .of_effect (fun c => by rw [h.variableName]; rfl) (.pure _) rfl
  · exact .of_effect (fun c => by rw [h.variableName]; rfl) ((h.value "VALUE" "0" _).map _) rfl
  · exact .of_reads (h.choice p) rfl fun c => rfl
  · exact .of_reads ((h.number "TIMES" "10" _).bind fun _ => (h.body _ "DO").map _) rfl fun c => rfl
  · exact .of_reads (h.loopCondition.bind fun _ => (h.body _ "DO").map _) rfl fun c => rfl
  · exact .of_reads (h.countedLoop p) rfl fun c => rfl
  · exact .of_reads (by unfold Statement.raw; dsimp only; split <;> exact .pure _) rfl fun c => rfl
  · exact .of_reads ((h.body _ "STATEMENTS").map _) rfl fun c => rfl

/-! ## Blocks -/

/-- No type is that of a statement and that of a value. -/
theorem template?_of_isStatement {type : String}
    (h : (Statement.template? type).isSome = true) : Value.template? type = none := by
  unfold Statement.template? at h
  split at h
  all_goals first | rfl | cases h

theorem uses_of_not_isCoded {b : Block} (h : b.isCoded = false) : b.uses = [] := by
  unfold Block.uses
  split
  all_goals first | rfl | skip
  all_goals
    rename_i htype
    rw [Block.isCoded, Block.hasValue, htype] at h
    cases h

/-- A block of an unknown type leaves a warning behind. -/
theorem visit_of_not_isCoded {b : Block} (h : b.isCoded = false) (c : Context) :
    c.visit b = c.warn ("unsupported block: " ++ b.type) := by
  have hcoded : ∀ type ∈ ["arduino_pow", "arduino_sqrt", "math_single", "math_trig",
      "math_constant", "math_arithmetic", "variables_set", "variables_declare",
      "variables_define"],
      ((Statement.template? type).isSome || (Value.template? type).isSome) = true := by
    decide
  have hother := mt (hcoded b.type) <| by
    rw [Block.isCoded, Block.hasValue] at h
    rw [h]
    exact Bool.false_ne_true
  simp only [List.mem_cons, List.not_mem_nil, or_false, not_or] at hother
  simp [Context.visit, Context.warn, Block.needsMath, Block.assignedName?, Block.declaredName?,
    Block.isDeclaring, h, hother]

namespace MadeFrom

variable {s : Shape} {b : Block} (h : MadeFrom s b)

include h

theorem visits {α : Type} {g : Gen α} (htype : s.type ≠ "") (hg : Enters b g) :
    Visits g (∃ c ∈ b.reached, c.IsMalformed) b.reached := by
  rw [h.type] at htype
  exact Visits.congr hg (by rw [Block.exists_isMalformed_reached, or_iff_right htype]) rfl

theorem unsupported (hcoded : b.isCoded = false) {α : Type} (a : α) :
    Enters b (do modify fun c => c.warn s.unsupported; return a) := by
  have hwarn : ∀ c : Context, c.warn s.unsupported = c.visit b := by
    intro c
    have htext : s.unsupported = "unsupported block: " ++ b.type :=
      congrArg ("unsupported block: " ++ ·) h.type
    exact (congrArg c.warn htext).trans (visit_of_not_isCoded hcoded c).symm
  exact .of_effect hwarn (.pure a) (uses_of_not_isCoded hcoded)

theorem isMalformed_reached (htype : s.type = "") : ∃ c ∈ b.reached, c.IsMalformed := by
  rw [Block.exists_isMalformed_reached, ← h.type]
  exact Or.inl htype

theorem statement (p : Place) :
    Visits (s.statement p) (∃ c ∈ b.reached, c.IsMalformed) b.reached := by
  unfold Shape.statement
  split
  · rename_i htype
    exact (Runs.malformed _ _ id).fail (h.isMalformed_reached (eq_of_beq htype))
  · rename_i htype
    refine h.visits (mt beq_iff_eq.mpr htype) ?_
    split
    · rename_i template htemplate
      exact h.statementTemplate (h.type ▸ htemplate) p
    · rename_i template hstatement hvalue
      exact Runs.map (h.valueTemplate (h.type ▸ hvalue)) _
    · rename_i hstatement hvalue
      refine h.unsupported ?_ _
      rw [Block.isCoded, Block.hasValue, ← h.type, hstatement, hvalue]
      rfl

theorem operand (hstatement : b.isStatement = false) :
    Visits s.operand (∃ c ∈ b.reached, c.IsMalformed) b.reached := by
  rw [Block.isStatement, ← h.type] at hstatement
  unfold Shape.operand
  split
  · rename_i htype
    exact (Runs.malformed _ _ id).fail (h.isMalformed_reached (eq_of_beq htype))
  · rename_i htype
    refine h.visits (mt beq_iff_eq.mpr htype) ?_
    split
    · rename_i template htemplate
      exact h.valueTemplate (h.type ▸ htemplate)
    · rename_i hvalue
      rw [hstatement, if_neg Bool.false_ne_true]
      refine h.unsupported ?_ _
      rw [Block.isCoded, Block.hasValue, ← h.type, hstatement, hvalue]
      rfl

theorem misplaced (hstatement : b.isStatement = true) : Visits s.operand True [] := by
  rw [Block.isStatement, ← h.type] at hstatement
  unfold Shape.operand
  split
  · exact .malformed _ _ _
  · rw [template?_of_isStatement hstatement]
    dsimp only
    exact .malformed _ _ _

end MadeFrom

/-- By induction on the size of a block: its code visits what is reached from it. -/
theorem visited (b : Block) : Visited b := by
  obtain ⟨type, fields, inputs⟩ := b
  have h : MadeFrom ⟨type, fields, slots inputs⟩ (.mk type fields inputs) :=
    ⟨rfl, rfl, slots_length inputs, chain_slots_eq type fields inputs,
      fun name c hc => visited c⟩
  exact ⟨h.statement, h.operand, h.misplaced⟩
termination_by sizeOf b
decreasing_by exact Block.sizeOf_lt_of_mem_chain hc

end Code

end InoBlocks
