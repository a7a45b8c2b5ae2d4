import InoBlocks.Sketch.Blocks
import InoBlocks.Sketch.Outline
import InoBlocks.Stack

/-!
# Calls along a sketch

How many calls are under way at a time where the text of an expression is put together, where a
sketch becomes blocks, and where its outline is made.  An operand is written by a call of its own,
which asks for its text; the arguments of a call are gone through by one.  A statement is taken up
by what its kind has, and a row of alternatives by one call for all of them.
-/

namespace InoBlocks

namespace Expr

mutual

/-- The calls for the text of an expression. -/
def sourceCalls : Expr → Nat
  | .empty | .name .. | .literal .. | .pin .. => 1
  | .member _ object _ => object.sourceCalls + 2
  | .call _ callee arguments => max callee.sourceCalls (sourceCallsAll arguments) + 2
  | .binary _ _ left right | .assign _ _ left right => max left.sourceCalls right.sourceCalls + 2
  | .unary _ _ operand _ => operand.sourceCalls + 2
  | .foreign _ _ _ value => if value.isEmpty then 1 else value.sourceCalls + 1

def sourceCallsAll : List Expr → Nat
  | [] => 0
  | e :: es => max e.sourceCalls (sourceCallsAll es)

end

mutual

/-- The calls for the block of an expression. -/
def blockCalls : Expr → Nat
  | .empty | .name .. | .literal .. | .pin .. => 1
  | .call l callee arguments =>
      let raw := (Expr.call l callee arguments).sourceCalls + 1
      match callee with
      | .name _ id =>
          match Blocks.valueCall? id with
          | some (_, names) =>
              if arguments.length = names.length then blockCallsAll arguments + 3 else raw
          | none => raw
      | _ =>
          match (Blocks.serialMethod? callee).bind Blocks.serialQuery?, arguments with
          | some _, [] => 1
          | _, _ => raw
  | .binary l operator left right =>
      if (Block.operator? operator).isSome then max left.blockCalls right.blockCalls + 1
      else (Expr.binary l operator left right).sourceCalls + 1
  | .unary l operator operand before =>
      if operator == "!" && before then operand.blockCalls + 1
      else (Expr.unary l operator operand before).sourceCalls + 1
  | .member l object property => (Expr.member l object property).sourceCalls + 1
  | .assign l operator left right => (Expr.assign l operator left right).sourceCalls + 1
  | .foreign l form head value => (Expr.foreign l form head value).sourceCalls + 1

def blockCallsAll : List Expr → Nat
  | [] => 0
  | e :: es => max e.blockCalls (blockCallsAll es)

end

end Expr

namespace Blocks

/-- The calls beneath that of a function by name. -/
def namedCallCalls (whole : Expr) (name : String) (arguments : List Expr) : Nat :=
  match name, arguments with
  | "digitalWrite", [pin, state] =>
      if (constant? state).any isState then pin.blockCalls else whole.sourceCalls
  | "pinMode", [pin, mode] =>
      if (constant? mode).any isMode then pin.blockCalls else whole.sourceCalls
  | "delay", [.literal _ (.number _) _] | "delayMicroseconds", [.literal _ (.number _) _] => 0
  | _, _ =>
      match statementCall? name with
      | some (_, names) =>
          if arguments.length = names.length then Expr.blockCallsAll arguments + 2
          else whole.sourceCalls
      | none => whole.sourceCalls

/-- The calls beneath that of a method of the serial line. -/
def serialCallCalls (whole : Expr) (method : String) (arguments : List Expr) : Nat :=
  match method, arguments with
  | "begin", [e] | "print", [e] | "println", [e] => e.blockCalls
  | _, [] => if (serialQuery? method).isSome then 0 else whole.sourceCalls
  | _, _ => whole.sourceCalls

/-- The calls for an expression that is evaluated for its effect. -/
def effectCalls (e : Expr) : Nat :=
  match e with
  | .call _ (.name _ name) arguments => namedCallCalls e name arguments + 2
  | .call _ callee arguments =>
      match serialMethod? callee with
      | some method => serialCallCalls e method arguments + 2
      | none => e.sourceCalls + 2
  | .assign _ "=" (.name _ _) right => right.blockCalls + 1
  | _ => e.sourceCalls + 1

def declarationCalls (value : Expr) : Nat :=
  if value.isEmpty then 1 else value.blockCalls + 1

end Blocks

namespace Node

/-- The calls for the text of a node where an expression is expected. -/
def sourceCalls (n : Node) : Nat :=
  n.toExpr.sourceCalls

/-- The calls for a node, by the place it stands in: as a statement, as a body, and behind an
`else`. -/
structure Calls where
  statement : Nat
  body : Nat
  arms : Nat

/-- One statement. -/
def Calls.ofStatement (calls : Nat) : Calls := ⟨calls, calls + 1, calls + 1⟩

/-- The calls beneath that of a loop, for its header. -/
def headerCalls (init : Node) (test update : Expr) : Nat :=
  match Blocks.repetitions? init test update with
  | some bound => bound.blockCalls
  | none => max init.sourceCalls (max test.sourceCalls update.sourceCalls)

mutual

def calls : Node → Calls
  | .empty => ⟨1, 1, 0⟩
  | .effect _ value => .ofStatement (Blocks.effectCalls value + 1)
  | .declaration _ _ _ value => .ofStatement (Blocks.declarationCalls value + 1)
  | .forLoop _ init test update body =>
      .ofStatement (max (headerCalls init test update) body.calls.body + 2)
  | .whileLoop _ test body => .ofStatement (max test.blockCalls body.calls.body + 1)
  | .branch _ test consequent alternative =>
      let arms := max test.blockCalls (max consequent.calls.body alternative.calls.arms)
      ⟨arms + 2, arms + 3, arms⟩
  | .block _ body =>
      let calls := statementCalls body + 1
      ⟨1, calls, calls⟩
  | _ => .ofStatement 1

def statementCalls : List Node → Nat
  | [] => 0
  | n :: ns => max n.calls.statement (statementCalls ns)

end

mutual

/-- The calls for the outline of a node. -/
def outlineCalls : Node → Nat
  | .program _ body | .block _ body => outlineCallsAll body + 2
  | .function _ _ _ _ body => body.outlineCalls + 3
  | .branch _ test consequent alternative =>
      max test.sourceCalls (max consequent.outlineCalls alternative.outlineCalls + 1) + 2
  | .forLoop _ init test update body =>
      max (max init.sourceCalls (max test.sourceCalls update.sourceCalls))
        (body.outlineCalls + 1) + 2
  | .whileLoop _ test body => max test.sourceCalls (body.outlineCalls + 1) + 2
  | .exit _ value | .effect _ value | .bare value => value.sourceCalls + 2
  | .declaration l type name value => (Node.declaration l type name value).sourceCalls + 2
  | .empty | .parameter _ => 0

def outlineCallsAll : List Node → Nat
  | [] => 0
  | n :: ns => max n.outlineCalls (outlineCallsAll ns)

end

end Node

namespace Program

/-- The calls for one part of a sketch. -/
def partCalls : Node → Nat
  | .function _ name _ _ body => if name == "setup" || name == "loop" then body.calls.body else 0
  | .declaration _ _ _ value => Blocks.declarationCalls value
  | _ => 0

/-- The calls for the blocks of a sketch. -/
def calls (p : Program) : Nat :=
  (p.body.map partCalls).foldr max 0 + 1

def outlineCalls (p : Program) : Nat :=
  p.toNode.outlineCalls

end Program

/-- The blocks of a sketch, where there is room for so many calls.  A sketch that was read has a
block or a text for each of its parts, so there is nothing to give up over before. -/
def Blocks.ofProgramWithin (room : Nat) (p : Program) : Except (Halt ConvertFault) Converted :=
  Room.within room p.calls fun _ => ofProgram p

end InoBlocks
