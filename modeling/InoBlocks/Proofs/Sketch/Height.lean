import InoBlocks.Proofs.Sketch.Layered
import InoBlocks.Proofs.Sketch.ReadBack
import InoBlocks.Sketch.Calls

/-!
# The height of a sketch

The limits of nesting bound how high the tree of a sketch grows over its leaves, but for the
steps behind an operand: its arguments, its members and its trailing operators are read by a loop
that neither limit counts.  So a height is taken by how many levels such a step counts for.  If it
counts for none, there is one bound for all texts; if it counts for one, there is no bound, and no
room is enough for putting together the text of every expression.
-/

namespace InoBlocks

open Read ExprGrammar

/-! ## Heights -/

namespace Expr

mutual

/-- The most levels above each other in an expression, where a step behind its operand counts
for `step`. -/
def heightBy (step : Nat) : Expr → Nat
  | .empty => 0
  | .name .. | .literal .. | .pin .. => 1
  | .member _ object _ => object.heightBy step + step
  | .call _ callee arguments => max (callee.heightBy step + step) (heightByAll step arguments + 1)
  | .unary _ _ operand before => operand.heightBy step + if before then 1 else step
  | .binary _ _ left right | .assign _ _ left right =>
      max (left.heightBy step) (right.heightBy step) + 1
  | .foreign _ _ _ value => value.heightBy step + 1

def heightByAll (step : Nat) : List Expr → Nat
  | [] => 0
  | e :: es => max (e.heightBy step) (heightByAll step es)

end

theorem heightByAll_le {step n : Nat} {es : List Expr} :
    heightByAll step es ≤ n ↔ ∀ e ∈ es, e.heightBy step ≤ n := by
  induction es with
  | nil => simp [heightByAll]
  | cons e es ih => rw [heightByAll, Nat.max_le, ih, List.forall_mem_cons]

end Expr

namespace Node

mutual

/-- The most levels above each other in a node, where a step behind its operand counts for
`step`. -/
def heightBy (step : Nat) : Node → Nat
  | .empty => 0
  | .program _ body | .block _ body => heightByAll step body + 1
  | .function _ _ _ parameters body =>
      max (if parameters.isEmpty then 0 else 1) (body.heightBy step) + 1
  | .parameter _ => 1
  | .declaration _ _ _ value | .exit _ value | .effect _ value => value.heightBy step + 1
  | .branch _ test consequent alternative =>
      max (test.heightBy step) (max (consequent.heightBy step) (alternative.heightBy step)) + 1
  | .forLoop _ init test update body =>
      max (max (init.heightBy step) (test.heightBy step))
        (max (update.heightBy step) (body.heightBy step)) + 1
  | .whileLoop _ test body => max (test.heightBy step) (body.heightBy step) + 1
  | .bare value => value.heightBy step

def heightByAll (step : Nat) : List Node → Nat
  | [] => 0
  | n :: ns => max (n.heightBy step) (heightByAll step ns)

end

theorem heightByAll_le {step m : Nat} {ns : List Node} :
    heightByAll step ns ≤ m ↔ ∀ n ∈ ns, n.heightBy step ≤ m := by
  induction ns with
  | nil => simp [heightByAll]
  | cons n ns ih => rw [heightByAll, Nat.max_le, ih, List.forall_mem_cons]

end Node

/-! ## Expressions -/

/-- What is nested in an operand counts for a level, and the steps behind it for none. -/
theorem Expr.layered_heightBy (n : Nat) :
    Expr.Layered (fun e => e.heightBy 0 ≤ n) fun e => e.heightBy 0 ≤ n + 1 where
  name _ _ := Nat.le_add_left 1 n
  literal _ _ _ := Nat.le_add_left 1 n
  pin _ _ _ := Nat.le_add_left 1 n
  raise := Nat.le_succ_of_le
  member _ _ _ he := he
  call _ _ _ he hes := Nat.max_le.mpr ⟨he, Nat.succ_le_succ (heightByAll_le.mpr hes)⟩
  trailing _ _ _ he := he
  leading _ _ _ he := Nat.succ_le_succ he

namespace ExprGrammar

/-- What a step returns has at most so many levels, steps behind an operand aside. -/
abbrev Within (n : Nat) (x : Read Expr) : Prop :=
  Builds x fun e => e.heightBy 0 ≤ n

theorem Within.mono {n m : Nat} {x : Read Expr} (h : Within n x) (hle : n ≤ m) : Within m x :=
  Yields.mono h fun _ he => Nat.le_trans he hle

/-- A chain grows by a level for each operator, and the limit counts its operators. -/
theorem within_chains {n : Nat} {operand : Nat → Read Expr} (h : ∀ depth, Within n (operand depth))
    (ls : List (List TokenKind)) (depth : Nat) :
    Within (n + ls.length * maxTreeDepth) (chains operand ls depth) := by
  induction ls generalizing depth with
  | nil => exact (h depth).mono (by omega)
  | cons operators tighter ih =>
      refine Yields.bind (ih depth) fun e he => Builds.after fun fuel => ?_
      -- Each operator adds a level, and the limit has one less left for it.
      let reaches (reached : Nat) (e : Expr) : Prop :=
        depth ≤ reached ∧ e.heightBy 0 ≤ n + tighter.length * maxTreeDepth + (reached - depth)
      have hbinary : ∀ {reached l operator e e'}, reaches reached e →
          e'.heightBy 0 ≤ n + tighter.length * maxTreeDepth →
          reaches (reached + 1) (.binary l operator e e') := by
        rintro reached l operator e e' ⟨hle, he⟩ he'
        refine ⟨Nat.le_succ_of_le hle, ?_⟩
        rw [Expr.heightBy]
        omega
      have hchain := builds_chainRest reaches ih hbinary operators.contains fuel
        ⟨Nat.le_refl depth, Nat.le_add_right_of_le he⟩
      refine hchain.mono fun e ⟨reached, hreached, hle, he⟩ => ?_
      rw [List.length_cons, Nat.succ_mul]
      omega

/-- How many levels the expressions of one level of nesting have at most. -/
def levelHeight : Nat :=
  levels.length * maxTreeDepth + 2

theorem within_assignment {n : Nat} {inner : Option Inner}
    (hinner : Supplies (fun e => e.heightBy 0 ≤ n) inner) (depth : Nat) :
    Within (n + levelHeight) (assignment inner depth) := by
  have hchains :=
    within_chains (builds_leading (Expr.layered_heightBy n) hinner) levels depth
  refine Yields.bind hchains fun e he => Builds.after fun found => ?_
  cases found with
  | none => exact .pure (by rw [levelHeight]; omega)
  | some _ =>
      refine Yields.bind (Builds.descend (fun i hi d => (hinner i hi d).1) _)
        fun value hvalue => .pure ?_
      rw [Expr.heightBy, levelHeight]
      omega

/-- How many levels an expression has at most with so many levels of nesting left. -/
def heightLimit (levelsLeft : Nat) : Nat :=
  (levelsLeft + 1) * levelHeight

theorem supplies_inner? (levelsLeft : Nat) :
    Supplies (fun e => e.heightBy 0 ≤ levelsLeft * levelHeight) (inner? levelsLeft) := by
  induction levelsLeft with
  | zero =>
      rintro i ⟨⟩
  | succ k ih =>
      rintro i hi depth
      cases hi
      rw [Nat.succ_mul]
      refine ⟨within_assignment ih depth, ?_⟩
      refine Within.mono (builds_leading (Expr.layered_heightBy _) ih depth) ?_
      rw [levelHeight]
      omega

theorem within_expression (levelsLeft depth : Nat) :
    Within (heightLimit levelsLeft) (expression levelsLeft depth) := by
  rw [heightLimit, Nat.succ_mul]
  exact within_assignment (supplies_inner? levelsLeft) depth

end ExprGrammar

/-! ## Statements -/

theorem Node.Opens.heightBy_le {n : Nat} {init : Node}
    (h : init.Opens fun e => e.heightBy 0 ≤ n) : init.heightBy 0 ≤ n + 1 := by
  cases h with
  | none => exact Nat.zero_le _
  | bare he => exact Nat.le_succ_of_le he
  | declaration l type name he => exact Nat.succ_le_succ he

/-- A statement stands around its expressions, and perhaps around a declaration. -/
theorem Node.layered_heightBy (n : Nat) :
    Node.Layered (fun e => e.heightBy 0 ≤ n) (fun m => m.heightBy 0 ≤ n + 1)
      fun m => m.heightBy 0 ≤ n + 2 where
  spare := Nat.zero_le n
  absent := Nat.zero_le _
  declaration _ _ _ _ he := Nat.succ_le_succ (Nat.le_succ_of_le he)
  exit _ _ he := Nat.succ_le_succ (Nat.le_succ_of_le he)
  effect _ _ he := Nat.succ_le_succ (Nat.le_succ_of_le he)
  block _ _ hbody := Nat.succ_le_succ (heightByAll_le.mpr hbody)
  branch _ _ _ _ htest hthen helse := by
    rw [heightBy]
    omega
  forLoop _ _ _ _ _ hinit htest hupdate hbody := by
    have hopens := hinit.heightBy_le
    rw [heightBy]
    omega
  whileLoop _ _ _ htest hbody := by
    rw [heightBy]
    omega

namespace Grammar

/-- A level of nesting leaves room for the statement around an expression and the loop around
that. -/
theorem builds_statement (limit levelsLeft depth : Nat) :
    Builds (statement limit levelsLeft depth) fun found =>
      ∀ m ∈ found, m.heightBy 0 ≤ heightLimit levelsLeft := by
  induction levelsLeft generalizing depth with
  | zero => exact Builds.recovering limit (Builds.stopAt _).reading
  | succ k ih =>
      have hroom : heightLimit k + 2 ≤ heightLimit (k + 1) := by
        simp only [heightLimit, levelHeight, Nat.succ_mul]
        omega
      have hinside := (ih (depth + 1)).mono fun _ hfound m hm => Nat.le_succ_of_le (hfound m hm)
      have hstatement := builds_statement_succ (Node.layered_heightBy (heightLimit k))
        (within_expression k _) hinside
      exact hstatement.mono fun _ hfound m hm => Nat.le_trans (hfound m hm) hroom

/-! ## Sketches -/

/-- Steps behind operands aside, one bound holds for the trees of all texts. -/
theorem parse_heightBy_le (source file : String) (limit : Nat) :
    (parse source file limit).program.toNode.heightBy 0 ≤ heightLimit maxNesting + 3 := by
  have hblock : Builds (block (statement limit maxNesting 0)) fun node =>
      node.heightBy 0 ≤ heightLimit maxNesting + 1 := by
    refine (builds_block (builds_statement limit maxNesting 0)).mono ?_
    rintro _ ⟨l, body, rfl, hbody⟩
    exact Nat.succ_le_succ (Node.heightByAll_le.mpr hbody)
  refine Nat.succ_le_succ (Node.heightByAll_le.mpr fun m hm => ?_)
  cases topLevel_of_mem_parse (Nat.zero_le _) (within_expression _ _) hblock source file m hm with
  | function l name type ps hbody =>
      rw [Node.heightBy]
      split <;> omega
  | declaration l type name he => exact Nat.succ_le_succ (Nat.le_succ_of_le he)

end Grammar

/-! ## Steps behind an operand -/

/-- An operand with trailing operators behind it. -/
def Expr.trailed (e : Expr) (ts : List Token) : Expr :=
  ts.foldl (fun e t => .unary e.location t.text e false) e

theorem Expr.heightBy_trailed (e : Expr) (ts : List Token) :
    (e.trailed ts).heightBy 1 = e.heightBy 1 + ts.length := by
  induction ts generalizing e with
  | nil => rfl
  | cons t ts ih =>
      rw [trailed, List.foldl_cons, ← trailed, ih, heightBy, if_neg Bool.false_ne_true,
        List.length_cons]
      omega

namespace ExprGrammar

/-- Trailing operators are all taken. -/
theorem trailers_trailed {inner : Option Inner} {depth fuel : Nat} {us rest : List Token}
    (hus : ∀ t ∈ us, isTrailing t.kind = true)
    (hstop : ∀ fuel e, trailers inner depth fuel e rest = .ok e rest) (hfuel : us.length ≤ fuel)
    (e : Expr) : trailers inner depth fuel e (us ++ rest) = .ok (e.trailed us) rest := by
  induction us generalizing e fuel with
  | nil => exact hstop fuel e
  | cons t us ih =>
      obtain ⟨fuel, rfl⟩ := Nat.exists_eq_add_of_le' (Nat.le_trans (Nat.le_add_left 1 _) hfuel)
      have hlength : us.length ≤ fuel := Nat.le_of_succ_le_succ hfuel
      rw [List.cons_append, trailers_step (hus t List.mem_cons_self),
        ih (fun u hu => hus u (List.mem_cons_of_mem t hu)) hlength]
      rfl

/-- In front of a token that goes on with nothing, an operand is a whole expression. -/
theorem reader_of_leading {k depth : Nat} {ts rest : List Token} {e : Expr}
    (h : reader k 8 depth ts = .ok e rest) (hrest : (kindAt 0 rest).joins = 0) :
    reader k 1 depth ts = .ok e rest := by
  -- Up from the tightest level to the loosest: no operator of any of them follows.
  have hlevels : ∀ d, d ≤ 6 → reader k (8 - d) depth ts = .ok e rest := by
    intro d hd
    induction d with
    | zero => exact h
    | succ d ih =>
        have hnext : 8 - (d + 1) + 1 = 8 - d := by omega
        rw [reader_chain k (by omega) (by omega), hnext, bind_ok (ih (by omega)),
          bind_ok (remaining_apply rest)]
        exact goOn_stop k _ depth e (by omega)
  have hassigns : isAssignment (kindAt 0 rest) = false := by
    cases hassigns : isAssignment (kindAt 0 rest) with
    | false => rfl
    | true => rw [TokenKind.joins_of_isAssignment hassigns] at hrest; cases hrest
  rw [reader_assignment, bind_ok (hlevels 6 (Nat.le_refl 6)), bind_ok (accept_none hassigns)]
  rfl

/-- A name with trailing operators is an expression. -/
theorem expression_trailed (k depth : Nat) {name : Token} {us rest : List Token}
    (hname : name.kind = .identifier) (hus : ∀ t ∈ us, isTrailing t.kind = true)
    (hrest : (kindAt 0 rest).joins = 0) :
    expression k depth (name :: us ++ rest) = .ok ((nameOrPin name).trailed us) rest := by
  have hstop : ∀ fuel e, trailers (inner? k) depth fuel e rest = .ok e rest := by
    intro fuel e
    rw [← goOn_trailing]
    exact goOn_stop k fuel depth e (by omega)
  have hfuel : us.length ≤ (us ++ rest).length := by simp
  refine reader_of_leading ?_ hrest
  have haccept : accept isLeading (name :: us ++ rest) = .ok none (name :: us ++ rest) :=
    accept_none (by rw [List.cons_append, kindAt_cons, hname]; rfl)
  rw [reader_leading, leading, bind_ok haccept, List.cons_append]
  dsimp only
  rw [trailing, bind_ok (primary_identifier hname), bind_ok (remaining_apply _),
    trailers_trailed hus hstop hfuel]

end ExprGrammar

namespace Grammar

open Word

def stepped : Nat → String
  | 0 => "a"
  | n + 1 => stepped n ++ "++"

theorem spelling_stepped (n : Nat) :
    ∃ pointed, Spelling (stepped n)
      (⟨.identifier, "a"⟩ :: List.replicate n (symbol .increment)) pointed := by
  induction n with
  | zero =>
      have hname : Word.Firm ⟨.identifier, "a"⟩ := firm_name 'a' [] (by decide) (by decide)
      exact ⟨_, .word hname rfl rfl⟩
  | succ n ih =>
      obtain ⟨pointed, h⟩ := ih
      rw [List.replicate_succ', ← List.cons_append]
      exact ⟨false, h.step rfl rfl⟩

/-- A name with increments behind it is read as such, and nothing is reported. -/
theorem parse_stepped (n : Nat) (file : String) (limit : Nat) :
    ∃ l t us, us.length = n ∧
      IsFunction (parse (inFunction "loop" (stepped n)) file limit) "loop"
        [.effect l ((nameOrPin t).trailed us)] ∧
      (parse (inFunction "loop" (stepped n)) file limit).diagnostics = [] := by
  obtain ⟨pointed, hspelling⟩ := spelling_stepped n
  have hname : Word.Firm ⟨.identifier, "loop"⟩ :=
    firm_name 'l' "oop".toList (by decide) (by decide)
  obtain ⟨t, us, semicolon, right, rest, hus, hsemicolon, -, hparse⟩ :=
    parse_inFunction hname hspelling rfl file limit
  obtain ⟨ht, hsteps⟩ := List.cons.inj hus
  have hkind : t.kind = .identifier := congrArg Word.kind ht
  have hbegins : t.kind.begins = true := by rw [hkind]; rfl
  have htrailing : ∀ u ∈ us, isTrailing u.kind = true := by
    intro u hu
    have hword := List.eq_of_mem_replicate (hsteps ▸ List.mem_map_of_mem hu)
    rw [← Token.word_kind, hword]
    rfl
  have hlength : us.length = n := by simpa using congrArg List.length hsteps
  have hrest : (kindAt 0 (semicolon :: right :: rest)).joins = 0 := by
    rw [kindAt_cons, hsemicolon]
    rfl
  have hread := expression_trailed 31 1 hkind htrailing hrest
  have hok := statement_effect_ok limit 31 (by decide) hbegins hsemicolon hread 0 (.empty "parser")
  obtain ⟨hfunction, hdiagnostics⟩ := hparse _ _ _ hok
  exact ⟨t.location, t, us, hlength, hfunction, hdiagnostics⟩

/-- No bound holds for the trees of all texts if a step behind an operand counts for a level. -/
theorem parse_unbounded :
    ¬ ∃ bound, ∀ source file limit,
      (parse source file limit).program.toNode.heightBy 1 ≤ bound := by
  rintro ⟨bound, hbound⟩
  obtain ⟨l, t, us, hlength, ⟨-, l', l'', hbody⟩, -⟩ := parse_stepped bound "s.ino" 0
  have hle := hbound (inFunction "loop" (stepped bound)) "s.ino" 0
  rw [Program.toNode, hbody] at hle
  simp only [Node.heightBy, Node.heightByAll, Expr.heightBy_trailed] at hle
  omega

end Grammar

/-! ## Room for the text of an expression -/

theorem Expr.sourceCalls_trailed (e : Expr) (ts : List Token) :
    (e.trailed ts).sourceCalls = e.sourceCalls + 2 * ts.length := by
  induction ts generalizing e with
  | nil => rfl
  | cons t ts ih =>
      rw [trailed, List.foldl_cons, ← trailed, ih, sourceCalls, List.length_cons]
      omega

/-- An operand with trailing operators has no block, so its text is put together. -/
theorem Blocks.length_le_effectCalls (e : Expr) (ts : List Token) :
    ts.length ≤ effectCalls (e.trailed ts) := by
  cases ts using List.reverseRecOn with
  | nil => exact Nat.zero_le _
  | append_singleton ts t =>
      have hstep : e.trailed (ts ++ [t]) =
          .unary (e.trailed ts).location t.text (e.trailed ts) false := by
        simp [Expr.trailed, List.foldl_append]
      have hcalls := Expr.sourceCalls_trailed e (ts ++ [t])
      have heffect : effectCalls (e.trailed (ts ++ [t])) =
          (e.trailed (ts ++ [t])).sourceCalls + 1 := by
        rw [hstep]
        rfl
      omega

/-- Whatever room there is, there is a sketch that is read without a remark and for whose blocks
there is no room. -/
theorem Grammar.parse_bottomless (room : Nat) (file : String) (limit : Nat) :
    ∃ source, (parse source file limit).diagnostics = [] ∧
      Blocks.ofProgramWithin room (parse source file limit).program = .error .bottomless := by
  obtain ⟨l, t, us, hlength, ⟨-, l', l'', hbody⟩, hdiagnostics⟩ := parse_stepped room file limit
  refine ⟨_, hdiagnostics, Room.within_of_lt ?_⟩
  have hle := Blocks.length_le_effectCalls (nameOrPin t) us
  rw [Program.calls, hbody]
  simp only [List.map_cons, List.map_nil, List.foldr_cons, List.foldr_nil, Program.partCalls,
    beq_self_eq_true, Bool.or_true, if_true, Node.calls, Node.statementCalls, Node.Calls.ofStatement]
  omega

end InoBlocks
