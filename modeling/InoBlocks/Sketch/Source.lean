import InoBlocks.Sketch.Tree
import InoBlocks.Text.Class

/-!
# Expressions as text

Writing an expression down so that reading it gives it back.  An operand is put in parentheses
when its outermost operator binds looser than the place it stands in demands, and only then.
-/

namespace InoBlocks

namespace Binding

/-! ## Binding strengths: the higher one binds tighter -/

/-- The strength of an operator between two operands or between a target and a value. -/
def ofOperator? : String → Option Nat
  | "=" | "+=" => some 1
  | "||" => some 2
  | "&&" => some 3
  | "==" | "!=" => some 4
  | "<" | "<=" | ">" | ">=" => some 5
  | "+" | "-" => some 6
  | "*" | "/" | "%" => some 7
  | _ => none

def leading : Nat := 8

/-- A call, a member, or an operator after its operand. -/
def trailing : Nat := 9

def primary : Nat := 10

def unknown : Nat := 0

/-- The strength of an operator; an unknown one counts as a primary. -/
def ofOperator (operator : String) : Nat :=
  (ofOperator? operator).getD primary

end Binding

/-- Why an expression has no text. -/
inductive SourceFault where
  /-- An assignment with an operator that assigns nothing. -/
  | unknownAssignment (operator : String)
  /-- An operator without a spelling in front of an operand. -/
  | blankOperator
  deriving DecidableEq, Repr

/-- An analog pin is an `A` and digits, and may end in a line feed. -/
def isAnalogPinText : List Char → Bool
  | 'A' :: cs =>
      let digits := cs.takeWhile Text.isDecimal
      let rest := cs.dropWhile Text.isDecimal
      !digits.isEmpty && (rest == [] || rest == ['\n'])
  | _ => false

def isAnalogPin (name : String) : Bool :=
  isAnalogPinText name.toList

/-- Whether an operator, put right in front of an operand, would fuse with the operand's sign
into another operator. -/
def fuses (operator operand : List Char) : Bool :=
  match operator.getLast?, operand.head? with
  | some last, some first => (last == '+' || last == '-') && first == last
  | _, _ => false

/-- An operator in front of an operand, with a blank between them if they would fuse. -/
def joinLeading (operator operand : String) : String :=
  if fuses operator.toList operand.toList then operator ++ " " ++ operand else operator ++ operand

/-- An operator in front of an operand, if the operator has a spelling. -/
def joinLeading? (operator operand : String) : Except SourceFault String :=
  if operator == "" then .error .blankOperator else .ok (joinLeading operator operand)

namespace Expr

/-- How tightly the outermost operator of an expression binds. -/
def binding : Expr → Nat
  | binary _ operator _ _ | assign _ operator _ _ => Binding.ofOperator operator
  | unary _ _ _ before => if before then Binding.leading else Binding.trailing
  | call .. | member .. => Binding.trailing
  | _ => Binding.primary

/-- A text in parentheses, if it binds looser than its place demands. -/
def guarded (text : String) (binding demanded : Nat) : String :=
  if binding < demanded then "(" ++ text ++ ")" else text

def assigned (head : String) (value : Expr) (valueText : String) : String :=
  if value.isEmpty then head else head ++ " = " ++ valueText

mutual

def source : Expr → String
  | empty => ""
  | name _ id => id
  | literal _ _ raw => raw
  | pin _ id _ => id
  | member _ object property =>
      guarded object.source object.binding Binding.trailing ++ "." ++ property
  | call _ callee arguments =>
      guarded callee.source callee.binding Binding.trailing ++ "(" ++
        ", ".intercalate (sources arguments) ++ ")"
  | binary _ operator left right =>
      let strength := Binding.ofOperator operator
      guarded left.source left.binding strength ++ " " ++ operator ++ " " ++
        guarded right.source right.binding (strength + 1)
  | unary _ operator operand before =>
      if before then
        joinLeading operator (guarded operand.source operand.binding Binding.leading)
      else
        guarded operand.source operand.binding Binding.trailing ++ operator
  | assign _ operator left right =>
      let strength := Binding.ofOperator operator
      guarded left.source left.binding (strength + 1) ++ " " ++ operator ++ " " ++
        guarded right.source right.binding strength
  | foreign _ _ head value => assigned head value value.source

def sources : List Expr → List String
  | [] => []
  | e :: es => e.source :: sources es

end

mutual

/-- The first reason, in the order of writing, why an expression has no text. -/
def sourceFault? : Expr → Option SourceFault
  | empty | name .. | literal .. | pin .. => none
  | member _ object _ => object.sourceFault?
  | foreign _ _ _ value => value.sourceFault?
  | call _ callee arguments => sourceFaults? arguments <|> callee.sourceFault?
  | binary _ _ left right => left.sourceFault? <|> right.sourceFault?
  | unary _ operator operand before =>
      operand.sourceFault? <|>
        (if before && operator == "" then some .blankOperator else none)
  | assign _ operator left right =>
      match Binding.ofOperator? operator with
      | none => some (.unknownAssignment operator)
      | some _ => left.sourceFault? <|> right.sourceFault?

/-- The first reason why one of several expressions has no text. -/
def sourceFaults? : List Expr → Option SourceFault
  | [] => none
  | e :: es => e.sourceFault? <|> sourceFaults? es

end

/-- The text of an expression, or the reason why it has none. -/
def source? (e : Expr) : Except SourceFault String :=
  match e.sourceFault? with
  | some fault => .error fault
  | none => .ok e.source

end Expr

namespace Node

/-- A part of a sketch of which only the form is known, where an expression is expected. -/
def formOnly (l : Location) (form : String) : Expr :=
  .foreign l form ("<" ++ form ++ ">") .empty

/-- A node as an expression: a declaration shows its text, any other node that is no expression
its form. -/
def toExpr : Node → Expr
  | empty => .empty
  | bare e => e
  | declaration l type name value =>
      .foreign l (declaration l type name value).form (type ++ " " ++ name) value
  | node => formOnly (node.location?.getD default) node.form

/-- The text of a node where an expression is expected. -/
def source (n : Node) : String :=
  n.toExpr.source

/-- The reason why a node has no text where an expression is expected. -/
def sourceFault? (n : Node) : Option SourceFault :=
  n.toExpr.sourceFault?

/-- How tightly a node binds where an expression is expected. -/
def binding (n : Node) : Nat :=
  n.toExpr.binding

end Node

end InoBlocks
