import InoBlocks.Code.Generate

/-!
# Generating completes

`Completes g p` says that a computation of code succeeds in every context, returns what has a
property, and reports nothing.  The template of every block completes if the inputs of the block
are filled: with statements under the names of bodies, and with one block that has a value under
every other name.
-/

namespace InoBlocks

/-! ## Filled inputs -/

namespace Input

def isBodyName (name : String) : Bool :=
  "DO".toList.isPrefixOf name.toList ||
    ["ELSE", "STATEMENTS", Workspace.setupInput, Workspace.loopInput].contains name

theorem isBodyName_condition (suffix : String) : isBodyName ("IF" ++ suffix) = false := by
  have hheads : ∀ name ∈ ["ELSE", "STATEMENTS", Workspace.setupInput, Workspace.loopInput],
      name.toList.head? ≠ some 'I' := by decide
  have hlist : ("IF" ++ suffix).toList = 'I' :: 'F' :: suffix.toList := String.toList_append
  rw [isBodyName, Bool.or_eq_false_iff, hlist]
  refine ⟨rfl, ?_⟩
  rw [List.contains_eq_mem, decide_eq_false_iff_not]
  intro hmem
  exact hheads _ hmem (by rw [hlist]; rfl)

theorem isBodyName_arm (suffix : String) : isBodyName ("DO" ++ suffix) = true := by
  have hlist : ("DO" ++ suffix).toList = 'D' :: 'O' :: suffix.toList := String.toList_append
  rw [isBodyName, hlist]
  rfl

end Input

namespace Block

def hasValue (b : Block) : Bool :=
  (Code.Value.template? b.type).isSome

def isCoded (b : Block) : Bool :=
  (Code.Statement.template? b.type).isSome || b.hasValue

end Block

/-- Whether an input holds what its name asks for: blocks with code under the name of a body, and
one block that has a value under every other name. -/
def Input.isFilled : Input → Bool
  | .value name b => !isBodyName name && b.hasValue
  | .chain name bs => isBodyName name && bs.all Block.isCoded
  | .vacant _ => false

/-- Whether every input in a block, however deep, is filled. -/
def Block.IsFilled (b : Block) : Prop :=
  ∀ c ∈ b.walk, ∀ i ∈ c.inputs, i.isFilled = true

theorem Block.forall_mem_walkAll {P : Block → Prop} {bs : List Block}
    (h : ∀ b ∈ bs, ∀ c ∈ b.walk, P c) : ∀ c ∈ walkAll bs, P c := by
  induction bs with
  | nil => simp [walkAll]
  | cons b bs ih =>
      obtain ⟨hb, hbs⟩ := List.forall_mem_cons.mp h
      rw [walkAll, List.forall_mem_append]
      exact ⟨hb, ih hbs⟩

theorem Input.forall_mem_walkAll {P : Block → Prop} {is : List Input}
    (h : ∀ i ∈ is, ∀ b ∈ i.blocks, ∀ c ∈ b.walk, P c) : ∀ c ∈ walkAll is, P c := by
  induction is with
  | nil => simp [walkAll]
  | cons i is ih =>
      obtain ⟨hi, his⟩ := List.forall_mem_cons.mp h
      rw [walkAll, List.forall_mem_append]
      refine ⟨?_, ih his⟩
      cases i with
      | value name b => exact hi b (List.mem_singleton_self b)
      | chain name bs => exact Block.forall_mem_walkAll hi
      | vacant name => exact fun c hc => nomatch hc

namespace Code

/-- A computation succeeds in every context, what it returns has a property, and it reports
nothing. -/
def Completes {α : Type} (g : Gen α) (p : α → Prop) : Prop :=
  ∀ c, ∃ a c', g c = .ok (a, c') ∧ p a ∧ c'.findings = c.findings

namespace Completes

variable {α β : Type} {g : Gen α} {f : α → Gen β} {p q : α → Prop} {r : β → Prop}

theorem pure {a : α} (h : p a) : Completes (Pure.pure a) p :=
  fun c => ⟨a, c, rfl, h, rfl⟩

theorem bind (hg : Completes g p) (hf : ∀ a, p a → Completes (f a) r) : Completes (g >>= f) r := by
  intro c
  obtain ⟨a, c₁, hrun, ha, hfirst⟩ := hg c
  obtain ⟨b, c₂, hrun', hb, hsecond⟩ := hf a ha c₁
  refine ⟨b, c₂, ?_, hb, hsecond.trans hfirst⟩
  change (g c >>= fun result => f result.1 result.2) = _
  rw [hrun]
  exact hrun'

/-- A computation whose result is only put into another form. -/
theorem map (hg : Completes g p) (k : α → β) :
    Completes (g >>= fun a => Pure.pure (k a)) fun _ => True :=
  hg.bind fun _ _ => pure trivial

theorem modify {k : Context → Context} (h : ∀ c, (k c).findings = c.findings) :
    Completes (modify k : Gen Unit) fun _ => True :=
  fun c => ⟨(), k c, rfl, trivial, h c⟩

theorem ite {P : Prop} [Decidable P] {g' : Gen α} (h : P → Completes g p)
    (h' : ¬ P → Completes g' p) : Completes (if P then g else g') p := by
  by_cases hP : P
  · rw [if_pos hP]
    exact h hP
  · rw [if_neg hP]
    exact h' hP

theorem mapM {k : α → Gen β} {xs : List α} (h : ∀ x ∈ xs, Completes (k x) fun _ => True) :
    Completes (xs.mapM k) fun _ => True := by
  induction xs with
  | nil => exact pure trivial
  | cons x xs ih =>
      rw [List.mapM_cons]
      exact (h x List.mem_cons_self).bind fun y _ =>
        (ih fun z hz => h z (List.mem_cons_of_mem x hz)).map _

theorem forM {k : α → Gen Unit} {xs : List α} (h : ∀ x ∈ xs, Completes (k x) fun _ => True) :
    Completes (xs.forM k) fun _ => True := by
  induction xs with
  | nil => exact pure trivial
  | cons x xs ih =>
      exact (h x List.mem_cons_self).bind fun _ _ =>
        ih fun y hy => h y (List.mem_cons_of_mem x hy)

theorem needMath : Completes needMath fun _ => True :=
  modify fun _ => rfl

theorem assign (name : String) :
    Completes (MonadState.modifyGet fun c => ((), c.assign name) : Gen Unit) fun _ => True :=
  modify fun _ => rfl

theorem declare (name : String) :
    Completes (MonadState.modifyGet fun c => ((), c.declare name) : Gen Unit) fun _ => True :=
  modify fun _ => rfl

end Completes

/-! ## Inputs -/

/-- A shape whose inputs hold parts that complete where their names ask for them. -/
structure Shape.IsFilled (s : Shape) : Prop where
  value : ∀ name, Input.isBodyName name = false → s.chain name = [] ∨
    ∃ part, s.chain name = [part] ∧ Code.Completes part.value fun _ => True
  body : ∀ name, Input.isBodyName name = true → ∀ part ∈ s.chain name, ∀ p,
    Code.Completes (part.statement p) fun _ => True

namespace Shape.IsFilled

variable {s : Shape} (h : s.IsFilled)

include h

theorem target (name : String) (hname : Input.isBodyName name = false) :
    Completes (s.target name) fun found => ∀ part ∈ found,
      Completes part.value fun _ => True := by
  unfold Shape.target
  rcases h.value name hname with hchain | ⟨part, hchain, hpart⟩ <;> rw [hchain]
  · exact .pure (by simp)
  · exact .pure (by simpa using hpart)

theorem input (name default : String) (demanded : Nat)
    (hname : Input.isBodyName name = false := by decide) :
    Completes (s.value name default demanded) fun _ => True := by
  refine (h.target name hname).bind fun found hfound => ?_
  cases found with
  | none => exact .pure trivial
  | some part => exact (hfound part rfl).map _

theorem number (name default : String) (limits : Limits)
    (hname : Input.isBodyName name = false := by decide) :
    Completes (s.number name default limits) fun _ => True := by
  refine (h.target name hname).bind fun found hfound => ?_
  cases found with
  | none => exact .pure trivial
  | some part => exact .ite (fun _ => .pure trivial) fun _ => (hfound part rfl).map _

theorem pin (default : String) : Completes (s.pin default) fun _ => True := by
  refine (h.target "PIN" (by decide)).bind fun found hfound => ?_
  cases found with
  | none => exact .pure trivial
  | some part => exact .ite (fun _ => .pure trivial) fun _ => h.number "PIN" default _

theorem statements (p : Place) (name : String)
    (hname : Input.isBodyName name = true := by decide) :
    Completes (s.body p name) fun _ => True :=
  (Completes.mapM fun part hpart => h.body name hname part hpart p).map _

/-! ## Values -/

theorem call (name : String) (inputs : List (String × String))
    (hinputs : (inputs.all fun input => !Input.isBodyName input.1) = true := by decide) :
    Completes (Value.call name inputs s) fun _ => True := by
  refine (Completes.mapM fun input hinput => ?_).map _
  exact h.input input.1 input.2 _ (by simpa using List.all_eq_true.mp hinputs input hinput)

theorem mathCall (name : String) (inputs : List (String × String))
    (hinputs : (inputs.all fun input => !Input.isBodyName input.1) = true := by decide) :
    Completes (Value.mathCall name inputs s) fun _ => True :=
  Completes.needMath.bind fun _ _ => h.call name inputs hinputs

theorem infixed (operator : String × Nat) (default : String) :
    Completes (Value.infixed operator default s) fun _ => True :=
  (h.input "A" default _).bind fun _ _ => (h.input "B" default _).map _

theorem mathSingle : Completes (Value.mathSingle s) fun _ => True :=
  Completes.needMath.bind fun _ _ => .ite (fun _ => (h.input "NUM" "0" _).map _)
    fun _ => (h.input "NUM" "0" _).map _

theorem valueTemplate {type : String} {template : Shape → Gen Operand}
    (htemplate : Value.template? type = some template) :
    Completes (template s) fun _ => True := by
  unfold Value.template? at htemplate
  split at htemplate <;> cases htemplate
  iterate 2 exact (h.pin _).map _
  iterate 5 exact h.call _ _
  iterate 2 exact h.mathCall _ _
  iterate 6 exact h.call _ _
  · exact .pure trivial
  · exact .ite (fun _ => .pure trivial) fun _ => .pure trivial
  · exact .pure trivial
  iterate 2 exact h.infixed _ _
  · exact (h.input "BOOL" "true" _).map _
  · exact .pure trivial
  · exact .pure trivial
  · exact .ite (fun _ => h.mathCall _ _) fun _ => h.infixed _ _
  · exact h.mathSingle
  · exact h.mathCall _ _
  · exact Completes.needMath.bind fun _ _ => .pure trivial
  · exact .pure trivial

/-! ## Statements -/

theorem arms (p : Place) (fuel number : Nat) :
    Completes (Statement.arms s p fuel number) fun _ => True := by
  induction fuel generalizing number with
  | zero => exact .pure trivial
  | succ fuel ih =>
      have hcondition := Input.isBodyName_condition (Number.decimal number)
      have hbody := Input.isBodyName_arm (Number.decimal number)
      refine (h.target _ hcondition).bind fun found _ => .ite (fun _ => .pure trivial) fun _ => ?_
      refine (h.input _ "false" _ hcondition).bind fun value _ => ?_
      exact (h.statements p.deeper _ hbody).bind fun body _ => (ih (number + 1)).map _

theorem otherwise (p : Place) : Completes (Statement.otherwise s p) fun _ => True := by
  unfold Statement.otherwise
  exact .ite (fun _ => .pure trivial) fun _ => (h.statements p.deeper "ELSE").map _

theorem choice (p : Place) : Completes (Statement.choice s p) fun _ => True :=
  (h.arms p _ _).bind fun _ _ => (h.otherwise p).map _

theorem loopCondition : Completes (Statement.loopCondition s) fun _ => True :=
  .ite (fun _ => (h.input "BOOL" "false" _).map _) fun _ => h.input "BOOL" "false" _

theorem countedLoop (p : Place) : Completes (Statement.countedLoop s p) fun _ => True :=
  (h.number "FROM" "1" _).bind fun _ _ => (h.number "TO" "10" _).bind fun _ _ =>
    (h.number "BY" "1" _).bind fun _ _ => (h.statements p.deeper "DO").map _

theorem statementTemplate {type : String} {template : Shape → Place → Gen String}
    (htemplate : Statement.template? type = some template) (p : Place) :
    Completes (template s p) fun _ => True := by
  unfold Statement.template? at htemplate
  split at htemplate <;> cases htemplate
  · exact (h.pin _).map _
  · exact (h.pin _).map _
  · exact (h.pin _).bind fun _ _ => (h.number "VALUE" "128" _).map _
  · exact (h.number "TIME" "1000" _).map _
  · exact (h.number "TIME" "100" _).map _
  · exact (h.number "BAUD" "9600" _).map _
  · exact (h.input "TEXT" _ _).map _
  · exact (h.input "SEED" _ _).map _
  · exact (Completes.assign _).bind fun _ _ => (h.input "VALUE" "0" _).map _
  · exact (Completes.declare _).map _
  · exact (Completes.declare _).bind fun _ _ => (h.input "VALUE" "0" _).map _
  · exact h.choice p
  · exact (h.number "TIMES" "10" _).bind fun _ _ => (h.statements _ "DO").map _
  · exact h.loopCondition.bind fun _ _ => (h.statements _ "DO").map _
  · exact h.countedLoop p
  · exact .ite (fun _ => .pure trivial) fun _ => .pure trivial
  · exact (h.statements _ "STATEMENTS").map _

theorem operand (hvalue : (Value.template? s.type).isSome = true) :
    Completes s.operand fun _ => True := by
  obtain ⟨template, htemplate⟩ := Option.isSome_iff_exists.mp hvalue
  have htype : ¬ (s.type == "") = true := by
    rintro hempty
    rw [eq_of_beq hempty] at htemplate
    cases htemplate
  rw [Shape.operand, if_neg htype]
  simp only [htemplate]
  exact h.valueTemplate htemplate

theorem statement
    (hcoded : ((Statement.template? s.type).isSome || (Value.template? s.type).isSome) = true)
    (p : Place) : Completes (s.statement p) fun _ => True := by
  have htype : ¬ (s.type == "") = true := by
    intro hempty
    rw [eq_of_beq hempty] at hcoded
    cases hcoded
  rw [Shape.statement, if_neg htype]
  cases hstatement : Statement.template? s.type with
  | some template =>
      dsimp only
      exact h.statementTemplate hstatement p
  | none =>
      rw [hstatement, Option.isSome_none, Bool.false_or] at hcoded
      obtain ⟨template, hvalue⟩ := Option.isSome_iff_exists.mp hcoded
      rw [hvalue]
      exact (h.valueTemplate hvalue).map _

end Shape.IsFilled

end Code

end InoBlocks
