import InoBlocks.Number.Reading
import InoBlocks.Sketch.Reader
import InoBlocks.Sketch.Source

/-!
# The grammar of expressions

Operators between operands are read level by level, loosest first, each level a chain that leans
to the left.  Assignments lean to the right.  What is nested -- parentheses, arguments, the
operand of a leading operator, the value of an assignment -- goes down a level of nesting; the
number of levels is limited, and that limit is what the recursion runs on.

Two limits hold together.  `inner?` counts the levels of nesting that are left.  `depth` counts
levels of nesting and the operators of the chains around, and bounds the height of the tree.
-/

namespace InoBlocks

def maxNesting : Nat := 32

/-- Levels of nesting and operators of chains together. -/
def maxTreeDepth : Nat := 100

namespace ExprGrammar

open Read

/-- What can be read one level of nesting further down, at a depth. -/
structure Inner where
  expression : (depth : Nat) → Read Expr
  leading : (depth : Nat) → Read Expr

/-- Stop at the next token because nesting reached a limit. -/
def tooDeep {α : Type} (limit : Nat) : Read α :=
  stopAt fun _ => .nestedTooDeep limit

def descend {α : Type} (inner : Option Inner) (depth : Nat) (body : Inner → Nat → Read α) :
    Read α :=
  match inner with
  | none => tooDeep maxNesting
  | some i => if maxTreeDepth ≤ depth then tooDeep maxTreeDepth else body i (depth + 1)

/-! ## Literals and names -/

/-- The inside of a quoted text; a text that is not closed keeps its tail. -/
def unquote (raw : String) : String :=
  match raw.toList with
  | [] => ""
  | quote :: inside =>
      if inside.getLast? = some quote then String.ofList inside.dropLast
      else String.ofList inside

def nameOrPin (t : Token) : Expr :=
  if isAnalogPin t.text then .pin t.location t.text true else .name t.location t.text

def number (t : Token) : Read Expr :=
  match Number.double? t.text with
  | some value => return .literal t.location (.number value) t.text
  | none => throw (.unreadable t.text)

/-- Read a literal, a name or an expression in parentheses. -/
def primary (inner : Option Inner) (depth : Nat) : Read Expr := do
  let t ← peek
  match t.kind with
  | .number => do
      let t ← advance
      number t
  | .string => do
      let t ← advance
      return .literal t.location (.text (unquote t.text)) t.text
  | .boolean | .high | .low | .input | .output | .inputPullup => do
      let t ← advance
      return .literal t.location (.text t.text) t.text
  | .identifier => do
      let t ← advance
      return nameOrPin t
  | .leftParen => do
      let _ ← advance
      let e ← descend inner depth fun i d => i.expression d
      let _ ← expect .rightParen "')'"
      return e
  | _ => unexpected "expression"

/-! ## Calls, members, trailing operators -/

/-- Read the arguments after the first, each behind a comma. -/
def moreArguments (argument : Read Expr) : (fuel : Nat) → Read (List Expr)
  | 0 => return []
  | fuel + 1 => do
      match ← acceptKind .comma with
      | none => return []
      | some _ =>
          let e ← argument
          return e :: (← moreArguments argument fuel)

/-- Read the arguments of a call up to its closing parenthesis. -/
def arguments (argument : Read Expr) : Read (List Expr) := do
  if (← peekKind 0) == .rightParen then
    return []
  else
    let e ← argument
    return e :: (← moreArguments argument (← remaining))

def isTrailing (kind : TokenKind) : Bool :=
  kind == .increment || kind == .decrement

/-- Read what follows an operand: arguments, members, trailing operators. -/
def trailers (inner : Option Inner) (depth : Nat) : (fuel : Nat) → Expr → Read Expr
  | 0, e => return e
  | fuel + 1, e => do
      let kind ← peekKind 0
      if kind == .leftParen then
        let _ ← advance
        let es ← descend inner depth fun i d => arguments (i.expression d)
        let _ ← expect .rightParen "')' after arguments"
        trailers inner depth fuel (.call e.location e es)
      else if kind == .dot then
        let _ ← advance
        let t ← expect .identifier "member name"
        trailers inner depth fuel (.member e.location e t.text)
      else if isTrailing kind then
        let t ← advance
        trailers inner depth fuel (.unary e.location t.text e false)
      else
        return e

def trailing (inner : Option Inner) (depth : Nat) : Read Expr := do
  let e ← primary inner depth
  trailers inner depth (← remaining) e

/-! ## Operators -/

/-- Whether an operator may stand before its operand. -/
def isLeading (kind : TokenKind) : Bool :=
  kind == .logicalNot || kind == .minus || kind == .plus || isTrailing kind

def leading (inner : Option Inner) (depth : Nat) : Read Expr := do
  match ← accept isLeading with
  | some t =>
      let e ← descend inner depth fun i d => i.leading d
      return .unary t.location t.text e true
  | none => trailing inner depth

/-- Read the rest of a chain.  Each operator makes the tree a level higher. -/
def chainRest (operand : Nat → Read Expr) (operators : TokenKind → Bool) :
    (fuel : Nat) → (depth : Nat) → Expr → Read Expr
  | 0, _, e => return e
  | fuel + 1, depth, e => do
      match ← accept operators with
      | none => return e
      | some t =>
          if maxTreeDepth ≤ depth then
            throw (.misread { cause := .nestedTooDeep maxTreeDepth, location := some t.location })
          else
            let right ← operand (depth + 1)
            chainRest operand operators fuel (depth + 1) (.binary e.location t.text e right)

/-- Read a chain of operands with operators of one level between them. -/
def chain (operand : Nat → Read Expr) (operators : TokenKind → Bool) (depth : Nat) :
    Read Expr := do
  let e ← operand depth
  chainRest operand operators (← remaining) depth e

/-- The operators between operands, level by level, loosest first. -/
def levels : List (List TokenKind) := [
    [.logicalOr],
    [.logicalAnd],
    [.equal, .notEqual],
    [.lessThan, .lessEqual, .greaterThan, .greaterEqual],
    [.plus, .minus],
    [.multiply, .divide, .modulo]]

/-- Read chains of some levels, the operands of the last being read by `operand`. -/
def chains (operand : Nat → Read Expr) : List (List TokenKind) → Nat → Read Expr
  | [] => operand
  | operators :: tighter => chain (chains operand tighter) operators.contains

def isAssignment (kind : TokenKind) : Bool :=
  kind == .assign || kind == .plusAssign

def assignment (inner : Option Inner) (depth : Nat) : Read Expr := do
  let e ← chains (leading inner) levels depth
  match ← accept isAssignment with
  | none => return e
  | some t =>
      let value ← descend inner depth fun i d => i.expression d
      return .assign e.location t.text e value

/-- What can be read below, with a number of levels of nesting left. -/
def inner? : (levelsLeft : Nat) → Option Inner
  | 0 => none
  | n + 1 => some ⟨assignment (inner? n), leading (inner? n)⟩

/-- Read an expression with a number of levels of nesting left. -/
def expression (levelsLeft depth : Nat) : Read Expr :=
  assignment (inner? levelsLeft) depth

end ExprGrammar

end InoBlocks
