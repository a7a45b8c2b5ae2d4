import InoBlocks.Proofs.Sketch.Layered

/-!
# The nesting of a sketch

One limit counts nested statements together with what is nested in expressions: arguments, the
operands of leading operators and what is assigned.  It holds for every tree that is kept: on no
way down from the body of a function or from the value of a global variable are more such parts
entered than the limit says.  Parentheses are counted too, but they leave no mark on the tree.
-/

namespace InoBlocks

open Read ExprGrammar

/-! ## Ways down a tree -/

/-- The parts of an expression, and whether each of them is nested in it. -/
def Expr.children : Expr → List (Bool × Expr)
  | .empty | .name .. | .literal .. | .pin .. => []
  | .member _ object _ => [(false, object)]
  | .call _ callee arguments => (false, callee) :: arguments.map fun e => (true, e)
  | .unary _ _ operand before => [(before, operand)]
  | .binary _ _ left right => [(false, left), (false, right)]
  | .assign _ _ left right => [(false, left), (true, right)]
  | .foreign _ _ _ value => [(false, value)]

namespace Node

/-- The parts of a node, and whether each of them is nested in it.  A statement is nested in the one
around it, but the header of a loop belongs to the loop. -/
def children : Node → List (Bool × Node)
  | .empty | .parameter _ => []
  | .program _ body => body.map fun n => (false, n)
  | .function _ _ _ ps body => ps.map (fun p => (false, .parameter p)) ++ [(false, body)]
  | .declaration _ _ _ value | .exit _ value | .effect _ value => [(false, .bare value)]
  | .block _ body => body.map fun n => (true, n)
  | .branch _ test consequent alternative =>
      [(false, .bare test), (true, consequent), (true, alternative)]
  | .forLoop _ init test update body =>
      [(false, init), (false, .bare test), (false, .bare update), (true, body)]
  | .whileLoop _ test body => [(false, .bare test), (true, body)]
  | .bare value => value.children.map fun (nested, e) => (nested, .bare e)

/-- How many nested parts are entered on a way down from a node, which says for each step the
position of the next part among those that are there; nothing, if there is no such way. -/
def entered : List Nat → Node → Option Nat
  | [], _ => some 0
  | i :: path, n => do
      let (nested, child) ← (n.children.filter fun c => !c.2.isEmpty)[i]?
      return (← child.entered path) + nested.toNat

/-- No way down from a node enters more nested parts than so many. -/
def Nests (k : Nat) (n : Node) : Prop :=
  ∀ path count, n.entered path = some count → count ≤ k

/-- A part of a node with so many levels of nesting fits into it. -/
def Fits (k : Nat) (nested : Bool) (n : Node) : Prop :=
  ∃ j, j + nested.toNat ≤ k ∧ n.Nests j

variable {k : Nat} {n : Node}

theorem Nests.fits (h : n.Nests k) : n.Fits k false :=
  ⟨k, Nat.le_refl k, h⟩

theorem Nests.fits_succ (h : n.Nests k) : n.Fits (k + 1) true :=
  ⟨k, Nat.le_refl (k + 1), h⟩

theorem Fits.nests {nested : Bool} (h : n.Fits k nested) : n.Nests k := by
  obtain ⟨j, hj, h⟩ := h
  intro path count hpath
  have hcount := h path count hpath
  omega

theorem nests_of_children
    (h : ∀ c ∈ n.children, c.2.isEmpty = true ∨ c.2.Fits k c.1) : n.Nests k := by
  intro path count hpath
  cases path with
  | nil =>
      obtain rfl : 0 = count := by simpa [entered] using hpath
      exact Nat.zero_le k
  | cons i path =>
      simp only [entered, Option.bind_eq_bind, Option.bind_eq_some_iff, Option.pure_def,
        Option.some.injEq] at hpath
      obtain ⟨⟨nested, child⟩, hchild, inner, hinner, rfl⟩ := hpath
      obtain ⟨hmem, hthere⟩ := List.mem_filter.mp (List.mem_of_getElem? hchild)
      rcases h (nested, child) hmem with hempty | ⟨j, hj, hnests⟩
      · simp [hempty] at hthere
      · have hcount := hnests path inner hinner
        dsimp only at hj ⊢
        omega

end Node

/-! ## Expressions -/

open Node

/-- What is nested in an operand fits into it, and what is not has as many levels at most. -/
theorem Expr.layered_nests (k : Nat) :
    Expr.Layered (fun e => (bare e).Fits k true) fun e => (bare e).Nests k where
  name _ _ := nests_of_children (by simp [Node.children, Expr.children])
  literal _ _ _ := nests_of_children (by simp [Node.children, Expr.children])
  pin _ _ _ := nests_of_children (by simp [Node.children, Expr.children])
  raise he := he.nests
  member _ _ _ he := nests_of_children (by simp [Node.children, Expr.children, he.fits])
  call _ _ es he hes := nests_of_children (by
    simp only [Node.children, Expr.children, List.map_cons, List.map_map, List.forall_mem_cons,
      List.forall_mem_map]
    exact ⟨Or.inr he.fits, fun e hmem => Or.inr (hes e hmem)⟩)
  trailing _ _ _ he := nests_of_children (by simp [Node.children, Expr.children, he.fits])
  leading _ _ _ he := nests_of_children (by simp [Node.children, Expr.children, he])

namespace ExprGrammar

theorem nests_chains {k : Nat} {operand : Nat → Read Expr}
    (h : ∀ depth, Builds (operand depth) fun e => (bare e).Nests k)
    (ls : List (List TokenKind)) (depth : Nat) :
    Builds (chains operand ls depth) fun e => (bare e).Nests k := by
  induction ls generalizing depth with
  | nil => exact h depth
  | cons operators tighter ih =>
      have hbinary : ∀ {l operator e e'}, (bare e).Nests k → (bare e').Nests k →
          (bare (.binary l operator e e')).Nests k := fun he he' =>
        nests_of_children (by simp [Node.children, Expr.children, he.fits, he'.fits])
      refine Yields.bind (ih depth) fun e he => Builds.after fun fuel => ?_
      have hchain : ∀ depth, Builds (chainRest _ _ fuel depth e) _ := fun depth =>
        builds_chainRest (fun _ e => (bare e).Nests k) ih hbinary operators.contains fuel he
      exact (hchain depth).mono fun _ ⟨_, _, he⟩ => he

theorem nests_assignment {k : Nat} {inner : Option Inner}
    (hinner : Supplies (fun e => (bare e).Fits k true) inner) (depth : Nat) :
    Builds (assignment inner depth) fun e => (bare e).Nests k := by
  have hchains := nests_chains (builds_leading (Expr.layered_nests k) hinner) levels depth
  refine Yields.bind hchains fun e he => Builds.after fun found => ?_
  cases found with
  | none => exact .pure he
  | some _ =>
      refine Yields.bind (Builds.descend (fun i hi d => (hinner i hi d).1) _)
        fun value hvalue => .pure ?_
      exact nests_of_children (by simp [Node.children, Expr.children, he.fits, hvalue])

theorem supplies_fits (levelsLeft : Nat) :
    Supplies (fun e => (bare e).Fits levelsLeft true) (inner? levelsLeft) := by
  induction levelsLeft with
  | zero =>
      rintro i ⟨⟩
  | succ k ih =>
      rintro i hi depth
      cases hi
      exact ⟨(nests_assignment ih depth).mono fun _ he => he.fits_succ,
        (builds_leading (Expr.layered_nests k) ih depth).mono fun _ he => he.fits_succ⟩

theorem nests_expression (levelsLeft depth : Nat) :
    Builds (expression levelsLeft depth) fun e => (bare e).Nests levelsLeft :=
  nests_assignment (supplies_fits levelsLeft) depth

end ExprGrammar

/-! ## Statements -/

theorem Node.nests_of_opens {k : Nat} {init : Node}
    (h : init.Opens fun e => (Node.bare e).Nests k) : init.Nests k := by
  cases h with
  | none => exact nests_of_children (by simp [Node.children])
  | bare he => exact he
  | declaration l type name he => exact nests_of_children (by simp [Node.children, he.fits])

/-- The statements in a statement fit into it, and its expressions have as many levels at most. -/
theorem Node.layered_nests (k : Nat) :
    Node.Layered (fun e => (bare e).Nests k) (fun m => m.isEmpty = true ∨ m.Fits k true)
      fun m => m.Nests k where
  spare := nests_of_children (by simp [Node.children, Expr.children])
  absent := Or.inl rfl
  declaration _ _ _ _ he := nests_of_children (by simp [Node.children, he.fits])
  exit _ _ he := nests_of_children (by simp [Node.children, he.fits])
  effect _ _ he := nests_of_children (by simp [Node.children, he.fits])
  block _ _ hbody := nests_of_children (by simpa [Node.children] using hbody)
  branch _ _ _ _ htest hthen helse :=
    nests_of_children (by simp [Node.children, htest.fits, hthen, helse])
  forLoop _ _ _ _ _ hinit htest hupdate hbody :=
    nests_of_children (by
      simp [Node.children, (nests_of_opens hinit).fits, htest.fits, hupdate.fits, hbody])
  whileLoop _ _ _ htest hbody := nests_of_children (by simp [Node.children, htest.fits, hbody])

namespace Grammar

/-- Every statement that is found fits into what is read with the levels that are left. -/
theorem fits_statement (limit levelsLeft depth : Nat) :
    Builds (statement limit levelsLeft depth) fun found =>
      ∀ m ∈ found, m.Fits levelsLeft true := by
  induction levelsLeft generalizing depth with
  | zero => exact Builds.recovering limit (Builds.stopAt _).reading
  | succ k ih =>
      have hinside : Builds (statement limit k (depth + 1)) fun found =>
          ∀ m ∈ found, m.isEmpty = true ∨ m.Fits k true :=
        (ih (depth + 1)).mono fun _ hfound m hm => Or.inr (hfound m hm)
      have hstatement :=
        builds_statement_succ (Node.layered_nests k) (nests_expression k _) hinside
      exact hstatement.mono fun _ hfound m hm => (hfound m hm).fits_succ

end Grammar

/-! ## Sketches -/

/-- Where the ways down a sketch begin: the bodies of its functions and the values of its global
variables. -/
def Program.starts (p : Program) : List Node :=
  p.body.filterMap fun
    | .function _ _ _ _ body => some body
    | .declaration _ _ _ value => some (.bare value)
    | _ => none

namespace Grammar

/-- No way down a sketch enters more nested parts than there are levels of nesting, whatever faults
were recovered from. -/
theorem parse_entered_le (source file : String) (limit : Nat) {start : Node}
    (hstart : start ∈ (parse source file limit).program.starts) {path : List Nat} {count : Nat}
    (hpath : start.entered path = some count) : count ≤ maxNesting := by
  have hblock : Builds (block (statement limit maxNesting 0)) (Node.Nests maxNesting) := by
    refine (builds_block (fits_statement limit maxNesting 0)).mono ?_
    rintro _ ⟨l, body, rfl, hbody⟩
    exact nests_of_children (by
      simpa [Node.children] using fun m hm => Or.inr (hbody m hm))
  have hspare : (Node.bare .empty).Nests maxNesting :=
    nests_of_children (by simp [Node.children, Expr.children])
  obtain ⟨m, hm, hstart⟩ := List.mem_filterMap.mp hstart
  cases topLevel_of_mem_parse hspare (nests_expression _ _) hblock source file m hm with
  | function l name type ps hbody =>
      obtain rfl := Option.some.inj hstart
      exact hbody path count hpath
  | declaration l type name he =>
      obtain rfl := Option.some.inj hstart
      exact he path count hpath

/-- A value that is nested as deep as it may be, and behind it one that is nested too deep. -/
def steepText : String :=
  "void loop() \x7b b = " ++ String.join (List.replicate 30 "!") ++ "c; d = " ++
    String.join (List.replicate 40 "!") ++ "e; \x7d"

/-- The limit is reached in a tree that was kept after a fault. -/
theorem parse_entered_le_steep :
    (parse steepText "steep.ino" 100).diagnostics.length = 1 ∧
      ∃ start ∈ (parse steepText "steep.ino" 100).program.starts,
        start.entered (0 :: 0 :: 1 :: List.replicate 30 0) = some 32 ∧ 32 ≤ maxNesting := by
  have hcounts : ((parse steepText "steep.ino" 100).diagnostics.length,
      (parse steepText "steep.ino" 100).program.starts.map
        (Node.entered (0 :: 0 :: 1 :: List.replicate 30 0))) = (1, [some 32]) := by
    decide +kernel
  obtain ⟨hfaults, hcounts⟩ := Prod.mk.inj hcounts
  obtain ⟨start, hstart, hpath⟩ := List.map_eq_singleton_iff.mp hcounts
  have hmem : start ∈ (parse steepText "steep.ino" 100).program.starts := by
    rw [hstart]
    exact List.mem_singleton.mpr rfl
  exact ⟨hfaults, start, hmem, hpath, parse_entered_le steepText "steep.ino" 100 hmem hpath⟩

end Grammar

end InoBlocks
