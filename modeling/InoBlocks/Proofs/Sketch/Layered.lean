import InoBlocks.Proofs.Sketch.Yields

/-!
# What readers build, level by level

A tree is built from parts that are read at its own level of nesting and from parts that are read
one level further down.  `Expr.Layered` and `Node.Layered` say that a property holds of a tree if
it holds of its parts, with one property for each of the two levels.  What the readers return then
has the property, and so have the trees that are kept after a fault.
-/

namespace InoBlocks

open Read ExprGrammar

/-! ## What steps return -/

/-- What a step returns has a property, whatever it starts from. -/
abbrev Builds {σ α : Type} (x : EStateM Stop σ α) (P : α → Prop) : Prop :=
  Yields (fun _ => True) x P

namespace Builds

variable {σ α : Type} {P : α → Prop}

theorem after {β : Type} {x : EStateM Stop σ α} {f : α → EStateM Stop σ β} {Q : β → Prop}
    (h : ∀ a, Builds (f a) Q) : Builds (x >>= f) Q := by
  have hx : Builds x fun _ => True := by
    intro s _
    cases x s with
    | ok a s' => exact ⟨trivial, trivial⟩
    | error stop s' => trivial
  exact hx.bind fun a _ => h a

theorem ok {x : EStateM Stop σ α} (h : Builds x P) {s s' : σ} {a : α} (hx : x s = .ok a s') :
    P a := by
  have hrun := h s trivial
  rw [hx] at hrun
  exact hrun.1

theorem stopAt (cause : Token → Cause) : Builds (Read.stopAt cause : Read α) P :=
  fun _ _ => trivial

theorem reading {x : Read α} (h : Builds x P) : Builds (Grammar.reading x) P := by
  intro s _
  rw [Grammar.reading]
  cases hx : x s.tokens with
  | ok a ts => exact ⟨h.ok hx, trivial⟩
  | error stop ts => trivial

theorem recovering (limit : Nat) {x : Recover α} (h : Builds x P) :
    Builds (Grammar.recovering limit x) fun found => ∀ a ∈ found, P a := by
  intro s _
  rw [Grammar.recovering]
  cases hx : x s with
  | ok a s' => exact ⟨by simpa using h.ok hx, trivial⟩
  | error stop s' =>
      cases stop with
      | misread fault =>
          dsimp only
          cases Grammar.recover limit fault s' with
          | ok a s'' => exact ⟨by simp, trivial⟩
          | error stop s'' => trivial
      | unreadable text => trivial
      | exhausted => trivial

theorem descend {inner : Option Inner} {body : Inner → Nat → Read α}
    (h : ∀ i ∈ inner, ∀ depth, Builds (body i depth) P) (depth : Nat) :
    Builds (ExprGrammar.descend inner depth body) P := by
  cases inner with
  | none => exact stopAt _
  | some i => exact .ite (stopAt _) (h i rfl _)

end Builds

/-! ## Expressions -/

/-- Properties of expressions that are passed on to an operand with its operators: what is nested
in it has the one, and what is not has the other. -/
structure Expr.Layered (below here : Expr → Prop) : Prop where
  name (l : Location) (id : String) : here (.name l id)
  literal (l : Location) (value : LiteralValue) (raw : String) : here (.literal l value raw)
  pin (l : Location) (id : String) (analog : Bool) : here (.pin l id analog)
  /-- What stands in parentheses. -/
  raise {e : Expr} : below e → here e
  member (l : Location) (property : String) {e : Expr} : here e → here (.member l e property)
  call (l : Location) {e : Expr} {es : List Expr} : here e → (∀ a ∈ es, below a) →
    here (.call l e es)
  trailing (l : Location) (operator : String) {e : Expr} : here e →
    here (.unary l operator e false)
  leading (l : Location) (operator : String) {e : Expr} : below e → here (.unary l operator e true)

namespace ExprGrammar

/-- What is read one level of nesting further down has a property. -/
def Supplies (below : Expr → Prop) (inner : Option Inner) : Prop :=
  ∀ i ∈ inner, ∀ depth, Builds (i.expression depth) below ∧ Builds (i.leading depth) below

section Layered

variable {below here : Expr → Prop} (h : Expr.Layered below here) {inner : Option Inner}
  (hinner : Supplies below inner) (depth : Nat)

include h hinner in
theorem builds_primary : Builds (primary inner depth) here := by
  refine Builds.after fun t => ?_
  split
  · refine Builds.after fun t => ?_
    rw [number]
    split
    · exact .pure (h.literal ..)
    · exact fun _ _ => trivial
  iterate 7 exact Builds.after fun _ => .pure (h.literal ..)
  · refine Builds.after fun t => .pure ?_
    rw [nameOrPin]
    split
    · exact h.pin ..
    · exact h.name ..
  · refine Builds.after fun _ => ?_
    refine Yields.bind (Builds.descend (fun i hi d => (hinner i hi d).1) _) fun e he => ?_
    exact Builds.after fun _ => .pure (h.raise he)
  · exact Builds.stopAt _

theorem builds_moreArguments {argument : Read Expr} (h : Builds argument below) (fuel : Nat) :
    Builds (moreArguments argument fuel) fun es => ∀ e ∈ es, below e := by
  induction fuel with
  | zero => exact .pure (by simp)
  | succ fuel ih =>
      refine Builds.after fun found => ?_
      cases found with
      | none => exact .pure (by simp)
      | some _ =>
          refine Yields.bind h fun e he => ih.bind fun es hes => ?_
          exact .pure (List.forall_mem_cons.mpr ⟨he, hes⟩)

theorem builds_arguments {argument : Read Expr} (h : Builds argument below) :
    Builds (arguments argument) fun es => ∀ e ∈ es, below e := by
  refine Builds.after fun _ => .ite (.pure (by simp)) ?_
  refine Yields.bind h fun e he => Builds.after fun fuel => ?_
  exact (builds_moreArguments h fuel).bind fun es hes =>
    .pure (List.forall_mem_cons.mpr ⟨he, hes⟩)

include h hinner in
/-- The arguments of a call are below it, and its callee is not. -/
theorem builds_trailers (fuel : Nat) {e : Expr} (he : here e) :
    Builds (trailers inner depth fuel e) here := by
  induction fuel generalizing e with
  | zero => exact .pure he
  | succ fuel ih =>
      refine Builds.after fun _ => .ite ?_ (.ite ?_ (.ite ?_ (.pure he)))
      · refine Builds.after fun _ => ?_
        refine Yields.bind
          (Builds.descend (fun i hi d => builds_arguments (hinner i hi d).1) _) fun es hes => ?_
        exact Builds.after fun _ => ih (h.call _ he hes)
      · exact Builds.after fun _ => Builds.after fun _ => ih (h.member _ _ he)
      · exact Builds.after fun _ => ih (h.trailing _ _ he)

include h hinner in
theorem builds_leading : Builds (leading inner depth) here := by
  refine Builds.after fun found => ?_
  cases found with
  | some _ =>
      refine Yields.bind (Builds.descend (fun i hi d => (hinner i hi d).2) _) fun e he => ?_
      exact .pure (h.leading _ _ he)
  | none =>
      refine Yields.bind (builds_primary h hinner depth) fun e he => ?_
      exact Builds.after fun fuel => builds_trailers h hinner depth fuel he

end Layered

/-- A chain has a property at the depth where it ends, which is either the one where it begins or
one that the limit allows. -/
theorem builds_chainRest (reaches : Nat → Expr → Prop) {right : Expr → Prop}
    {operand : Nat → Read Expr} (hoperand : ∀ depth, Builds (operand depth) right)
    (hbinary : ∀ {depth l operator e e'}, reaches depth e → right e' →
      reaches (depth + 1) (.binary l operator e e'))
    (operators : TokenKind → Bool) (fuel : Nat) {depth : Nat} {e : Expr} (he : reaches depth e) :
    Builds (chainRest operand operators fuel depth e) fun e =>
      ∃ reached, (reached = depth ∨ depth ≤ reached ∧ reached ≤ maxTreeDepth) ∧
        reaches reached e := by
  induction fuel generalizing depth e with
  | zero => exact .pure ⟨depth, Or.inl rfl, he⟩
  | succ fuel ih =>
      refine Builds.after fun found => ?_
      cases found with
      | none => exact .pure ⟨depth, Or.inl rfl, he⟩
      | some t =>
          dsimp only
          by_cases hdepth : maxTreeDepth ≤ depth
          · rw [if_pos hdepth]
            exact fun _ _ => trivial
          · rw [if_neg hdepth]
            refine Yields.bind (hoperand (depth + 1)) fun e' he' => ?_
            refine (ih (hbinary he he')).mono fun _ ⟨reached, hreached, hreaches⟩ => ?_
            exact ⟨reached, Or.inr (by omega), hreaches⟩

end ExprGrammar

/-! ## Statements -/

/-- A property of the first part of the header of a loop: what holds of its value. -/
inductive Node.Opens (value : Expr → Prop) : Node → Prop where
  | none : Opens value .empty
  | bare {e : Expr} : value e → Opens value (.bare e)
  | declaration (l : Location) (type name : String) {e : Expr} : value e →
      Opens value (.declaration l type name e)

/-- Properties of nodes that are passed on to a statement: its expressions have the first, the
statements in it the second, and then it has the third. -/
structure Node.Layered (value : Expr → Prop) (inside here : Node → Prop) : Prop where
  spare : value .empty
  absent : inside .empty
  declaration (l : Location) (type name : String) {e : Expr} : value e →
    here (.declaration l type name e)
  exit (l : Location) {e : Expr} : value e → here (.exit l e)
  effect (l : Location) {e : Expr} : value e → here (.effect l e)
  block (l : Location) {body : List Node} : (∀ m ∈ body, inside m) → here (.block l body)
  branch (l : Location) {test : Expr} {consequent alternative : Node} : value test →
    inside consequent → inside alternative → here (.branch l test consequent alternative)
  forLoop (l : Location) {init : Node} {test update : Expr} {body : Node} : init.Opens value →
    value test → value update → inside body → here (.forLoop l init test update body)
  whileLoop (l : Location) {test : Expr} {body : Node} : value test → inside body →
    here (.whileLoop l test body)

/-- What stands at the top level of a sketch: a function with a body that has one property, or a
variable with a value that has another. -/
inductive Node.TopLevel (value : Expr → Prop) (body : Node → Prop) : Node → Prop where
  | function (l : Location) (name type : String) (ps : List Parameter) {n : Node} : body n →
      TopLevel value body (.function l name type ps n)
  | declaration (l : Location) (type name : String) {e : Expr} : value e →
      TopLevel value body (.declaration l type name e)

namespace Grammar

section Value

variable {value : Expr → Prop} {expression : Read Expr} (hspare : value .empty)
  (hexpression : Builds expression value)

include hspare hexpression

theorem builds_unlessAt (kind : TokenKind) : Builds (unlessAt kind expression) value :=
  Builds.after fun _ => .ite (.pure hspare) hexpression

theorem builds_declaration :
    Builds (declaration expression) fun node =>
      ∃ l type name e, node = .declaration l type name e ∧ value e := by
  have hinitial : Builds (initialValue expression) value := by
    refine Builds.after fun found => ?_
    cases found with
    | none => exact .pure hspare
    | some _ => exact hexpression
  refine Builds.after fun _ => Builds.after fun _ => Builds.after fun _ => ?_
  exact Yields.bind hinitial fun e he => Builds.after fun _ => .pure ⟨_, _, _, e, rfl, he⟩

omit hspare in
theorem builds_condition (opening closing : String) :
    Builds (condition expression opening closing) value :=
  Builds.after fun _ => Yields.bind hexpression fun _ he => Builds.after fun _ => .pure he

theorem builds_loopInit : Builds (loopInit expression) (Node.Opens value) := by
  have hbare : Builds (bareInit expression) (Node.Opens value) :=
    Builds.after fun _ => .ite (.pure .none) (Yields.bind hexpression fun _ he => .pure (.bare he))
  refine Builds.after fun _ => .ite ?_ ?_
  · refine (builds_declaration hspare hexpression).mono ?_
    rintro _ ⟨l, type, name, e, rfl, he⟩
    exact .declaration l type name he
  · exact Yields.bind hbare fun _ hinit => Builds.after fun _ => .pure hinit

theorem builds_loopHeader :
    Builds (loopHeader expression) fun header =>
      header.1.Opens value ∧ value header.2.1 ∧ value header.2.2 := by
  refine Builds.after fun _ => Yields.bind (builds_loopInit hspare hexpression) fun init hinit => ?_
  refine Yields.bind (builds_unlessAt hspare hexpression _) fun test htest => ?_
  refine Builds.after fun _ => ?_
  refine Yields.bind (builds_unlessAt hspare hexpression _) fun update hupdate => ?_
  exact Builds.after fun _ => .pure ⟨hinit, htest, hupdate⟩

end Value

section Inside

variable {inside : Node → Prop}

theorem builds_statements {statement : Recover (Option Node)}
    (h : Builds statement fun found => ∀ m ∈ found, inside m) (fuel : Nat) :
    Builds (statements statement fuel) fun ns => ∀ m ∈ ns, inside m := by
  induction fuel with
  | zero => exact .pure (by simp)
  | succ fuel ih =>
      refine Builds.after fun _ => .ite (.pure (by simp)) ?_
      refine Yields.bind h fun found hfound => ih.bind fun ns hns => .pure ?_
      intro m hm
      rcases List.mem_append.mp hm with hm | hm
      · exact hfound m (by simpa using hm)
      · exact hns m hm

theorem builds_block {statement : Recover (Option Node)}
    (h : Builds statement fun found => ∀ m ∈ found, inside m) :
    Builds (block statement) fun node => ∃ l body, node = .block l body ∧ ∀ m ∈ body, inside m := by
  refine Builds.after fun _ => Builds.after fun _ => Builds.after fun fuel => ?_
  refine (builds_statements h fuel).bind fun body hbody => ?_
  refine Builds.after fun _ => .ite ?_ ?_ <;>
    exact Builds.after fun _ => .pure ⟨_, body, rfl, hbody⟩

end Inside

section Parts

variable {value : Expr → Prop} {inside here : Node → Prop} (h : Node.Layered value inside here)
  {parts : Parts} (hexpression : Builds parts.expression value)
  (hstatement : Builds parts.statement fun found => ∀ m ∈ found, inside m)

include h hstatement in
theorem builds_substatement : Builds (substatement parts) inside := by
  refine Yields.bind hstatement fun found hfound => .pure ?_
  cases found with
  | none => exact h.absent
  | some m => exact hfound m rfl

include h hstatement in
theorem builds_alternative : Builds (alternative parts) inside := by
  refine Builds.after fun found => ?_
  cases found with
  | none => exact .pure h.absent
  | some _ => exact builds_substatement h hstatement

include h hexpression hstatement

theorem builds_branch : Builds (branch parts) here := by
  refine Builds.after fun _ => ?_
  refine (builds_condition hexpression _ _).reading.bind fun test htest => ?_
  refine (builds_substatement h hstatement).bind fun consequent hthen => ?_
  refine (builds_alternative h hstatement).bind fun otherwise helse => .pure ?_
  exact h.branch _ htest hthen helse

theorem builds_forLoop : Builds (forLoop parts) here := by
  refine Builds.after fun _ => ?_
  refine (builds_loopHeader h.spare hexpression).reading.bind fun header hheader => ?_
  obtain ⟨init, test, update⟩ := header
  obtain ⟨hinit, htest, hupdate⟩ := hheader
  refine (builds_substatement h hstatement).bind fun body hbody => .pure ?_
  exact h.forLoop _ hinit htest hupdate hbody

theorem builds_whileLoop : Builds (whileLoop parts) here := by
  refine Builds.after fun _ => ?_
  refine (builds_condition hexpression _ _).reading.bind fun test htest => ?_
  refine (builds_substatement h hstatement).bind fun body hbody => .pure ?_
  exact h.whileLoop _ htest hbody

theorem builds_statementOf : Builds (statementOf parts) here := by
  refine Builds.after fun kind => ?_
  split
  · exact builds_branch h hexpression hstatement
  · exact builds_forLoop h hexpression hstatement
  · exact builds_whileLoop h hexpression hstatement
  · refine (Builds.after fun _ => ?_ : Builds (exit parts.expression) _).reading
    refine Yields.bind (builds_unlessAt h.spare hexpression _) fun e he => ?_
    exact Builds.after fun _ => .pure (h.exit _ he)
  · refine (builds_block hstatement).mono ?_
    rintro _ ⟨l, body, rfl, hbody⟩
    exact h.block l hbody
  -- What begins with no keyword is a declaration, or else an expression by itself.
  · have hdeclaration : Builds (declaration parts.expression) here := by
      refine (builds_declaration h.spare hexpression).mono ?_
      rintro _ ⟨l, type, name, e, rfl, he⟩
      exact h.declaration l type name he
    refine .ite (Builds.reading hdeclaration) ?_
    refine (Builds.after fun _ => ?_ : Builds (effect parts.expression) _).reading
    exact Yields.bind hexpression fun e he => Builds.after fun _ => .pure (h.effect _ he)

end Parts

/-- The statements of one level, from what is read of the level below. -/
theorem builds_statement_succ {value : Expr → Prop} {inside here : Node → Prop}
    (h : Node.Layered value inside here) {limit levelsLeft depth : Nat}
    (hexpression : Builds (expression levelsLeft (depth + 1)) value)
    (hstatement : Builds (statement limit levelsLeft (depth + 1)) fun found =>
      ∀ m ∈ found, inside m) :
    Builds (statement limit (levelsLeft + 1) depth) fun found => ∀ m ∈ found, here m :=
  Builds.recovering limit
    (.ite (Builds.stopAt _).reading (builds_statementOf h hexpression hstatement))

/-! ## Sketches -/

section TopLevel

variable {value : Expr → Prop} {body : Node → Prop} {limit : Nat} (hspare : value .empty)
  (hexpression : Builds (expression maxNesting 0) value)
  (hblock : Builds (block (statement limit maxNesting 0)) body)

include hspare hexpression hblock

theorem builds_topLevel :
    Builds (topLevel limit) fun found => ∀ m ∈ found, m.TopLevel value body := by
  refine Builds.after fun _ => Builds.after fun s => .ite (.pure (by simp)) (.ite (.ite ?_ ?_) ?_)
  · have hfunction : Builds (function limit) (Node.TopLevel value body) :=
      Builds.after fun _ => Builds.after fun _ => Builds.after fun _ => Builds.after fun _ =>
        Yields.bind hblock fun _ hbody => .pure (.function _ _ _ _ hbody)
    exact hfunction.bind fun m hm => .pure (by simpa using hm)
  · refine (builds_declaration hspare hexpression).reading.bind fun m hm => .pure ?_
    obtain ⟨l, type, name, e, rfl, he⟩ := hm
    simpa using Node.TopLevel.declaration l type name he
  · exact Builds.after fun _ => .pure (by simp)

theorem topLevel_of_mem_declarations (fuel : Nat) (s : ReadState) :
    ∀ m ∈ (declarations limit fuel s).1, m.TopLevel value body := by
  induction fuel generalizing s with
  | zero => simp [declarations]
  | succ fuel ih =>
      rw [declarations]
      split
      · simp
      · split
        · rename_i found s' hrun
          intro m hm
          rcases List.mem_append.mp hm with hm | hm
          · obtain rfl : found = some (some m) :=
              Option.join_eq_some_iff.mp (Option.mem_toList.mp hm)
            have hreturns := builds_topLevel hspare hexpression hblock
            exact (hreturns.recovering limit).ok hrun (some m) rfl m rfl
          · exact ih s' m hm
        · simp

theorem topLevel_of_mem_parse (source file : String) :
    ∀ m ∈ (parse source file limit).program.body, m.TopLevel value body :=
  topLevel_of_mem_declarations hspare hexpression hblock _ _

end TopLevel

end Grammar

end InoBlocks
