import InoBlocks.Location
import InoBlocks.Number.Binary64

/-!
# The tree of a sketch

A sketch is read into two sorts of trees.  `Expr` is what has a value.  `Node` is what stands on
its own: statements, declarations, and whole programs.  Both have an empty form for a part that
is not there, such as the condition of `for (;;)` or a statement that could not be read.

Operators keep their spelling.  Every tree carries the place it was read from; `forget` removes
the places, and two trees are the same sketch if they agree without them.
-/

namespace InoBlocks

/-! ## Expressions -/

/-- What a literal stands for: a number, or a text, which for a constant or a truth value is its
own spelling. -/
inductive LiteralValue where
  | number (value : Binary64)
  | text (value : String)
  deriving DecidableEq, Repr

/-- An expression. -/
inductive Expr where
  /-- The expression that is not there. -/
  | empty
  /-- A variable or a function. -/
  | name (location : Location) (id : String)
  /-- A number, a quoted text, a truth value or a constant, with its exact spelling. -/
  | literal (location : Location) (value : LiteralValue) (raw : String)
  /-- An analog pin such as `A0`. -/
  | pin (location : Location) (id : String) (analog : Bool)
  /-- A member of an object. -/
  | member (location : Location) (object : Expr) (property : String)
  /-- A call of a function or a method. -/
  | call (location : Location) (callee : Expr) (arguments : List Expr)
  /-- Two operands with an operator between them. -/
  | binary (location : Location) (operator : String) (left right : Expr)
  /-- One operand with an operator before it or after it. -/
  | unary (location : Location) (operator : String) (operand : Expr) (before : Bool)
  /-- An assignment. -/
  | assign (location : Location) (operator : String) (left right : Expr)
  /-- Something that is no expression: its form, and the text it shows, which may end in a value
  behind an equals sign. -/
  | foreign (location : Location) (form head : String) (value : Expr)

instance : Inhabited Expr := ⟨.empty⟩

namespace Expr

def location : Expr → Location
  | empty => default
  | name l _ | literal l _ _ | pin l _ _ | member l _ _ | call l _ _ | binary l _ _ _
  | unary l _ _ _ | assign l _ _ _ | foreign l _ _ _ => l

def isEmpty : Expr → Bool
  | empty => true
  | _ => false

def form : Expr → String
  | empty => "NoneType"
  | name .. => "Identifier"
  | literal .. => "Literal"
  | pin .. => "ArduinoPin"
  | member .. => "MemberExpression"
  | call .. => "CallExpression"
  | binary .. => "BinaryExpression"
  | unary .. => "UnaryExpression"
  | assign .. => "AssignmentExpression"
  | foreign _ form _ _ => form

mutual

def forget : Expr → Expr
  | empty => empty
  | name _ id => name default id
  | literal _ value raw => literal default value raw
  | pin _ id analog => pin default id analog
  | member _ object property => member default object.forget property
  | call _ callee arguments => call default callee.forget (forgetList arguments)
  | binary _ operator left right => binary default operator left.forget right.forget
  | unary _ operator operand before => unary default operator operand.forget before
  | assign _ operator left right => assign default operator left.forget right.forget
  | foreign _ form head value => foreign default form head value.forget

def forgetList : List Expr → List Expr
  | [] => []
  | e :: es => e.forget :: forgetList es

end

mutual

/-- Whether two expressions are the same, places aside. -/
def same : Expr → Expr → Bool
  | empty, empty => true
  | name _ id, name _ id' => id == id'
  | literal _ value raw, literal _ value' raw' => value == value' && raw == raw'
  | pin _ id analog, pin _ id' analog' => id == id' && analog == analog'
  | member _ object property, member _ object' property' =>
      object.same object' && property == property'
  | call _ callee arguments, call _ callee' arguments' =>
      callee.same callee' && sameList arguments arguments'
  | binary _ operator left right, binary _ operator' left' right' =>
      operator == operator' && left.same left' && right.same right'
  | unary _ operator operand before, unary _ operator' operand' before' =>
      operator == operator' && operand.same operand' && before == before'
  | assign _ operator left right, assign _ operator' left' right' =>
      operator == operator' && left.same left' && right.same right'
  | foreign _ form head value, foreign _ form' head' value' =>
      form == form' && head == head' && value.same value'
  | _, _ => false

/-- Whether two lists of expressions are the same, places aside. -/
def sameList : List Expr → List Expr → Bool
  | [], [] => true
  | e :: es, e' :: es' => e.same e' && sameList es es'
  | _, _ => false

end

end Expr

/-! ## Statements, declarations, programs -/

/-- A parameter of a function. -/
structure Parameter where
  location : Location
  type : String
  name : String
  deriving DecidableEq, Repr

namespace Parameter

def forget (p : Parameter) : Parameter :=
  { p with location := default }

/-- Whether two parameters are the same, places aside. -/
def same (p q : Parameter) : Bool :=
  p.type == q.type && p.name == q.name

end Parameter

/-- A part of a sketch that stands on its own. -/
inductive Node where
  /-- The part that is not there. -/
  | empty
  /-- A whole sketch. -/
  | program (location : Location) (body : List Node)
  /-- A function with its body. -/
  | function (location : Location) (name returnType : String) (parameters : List Parameter)
      (body : Node)
  /-- A parameter by itself. -/
  | parameter (p : Parameter)
  /-- The declaration of a variable, perhaps with a value. -/
  | declaration (location : Location) (type name : String) (value : Expr)
  /-- Statements between braces. -/
  | block (location : Location) (body : List Node)
  /-- A choice; the alternative may be empty. -/
  | branch (location : Location) (test : Expr) (consequent alternative : Node)
  /-- A counted loop; each part of its header may be empty. -/
  | forLoop (location : Location) (init : Node) (test update : Expr) (body : Node)
  /-- A loop on a condition. -/
  | whileLoop (location : Location) (test : Expr) (body : Node)
  /-- The end of a function, perhaps with a value. -/
  | exit (location : Location) (value : Expr)
  /-- An expression evaluated for its effect. -/
  | effect (location : Location) (value : Expr)
  /-- An expression by itself, such as the first part of a loop header. -/
  | bare (value : Expr)

instance : Inhabited Node := ⟨.empty⟩

namespace Node

def location? : Node → Option Location
  | empty | bare .empty => none
  | parameter p => some p.location
  | bare e => some e.location
  | program l _ | function l _ _ _ _ | declaration l _ _ _ | block l _ | branch l _ _ _
  | forLoop l _ _ _ _ | whileLoop l _ _ | exit l _ | effect l _ => some l

def isEmpty : Node → Bool
  | empty | bare .empty => true
  | _ => false

/-- The name of a node's form in listings and messages. -/
def form : Node → String
  | empty => Expr.empty.form
  | program .. => "Program"
  | function .. => "FunctionDeclaration"
  | parameter _ => "Parameter"
  | declaration .. => "VariableDeclaration"
  | block .. => "BlockStatement"
  | branch .. => "IfStatement"
  | forLoop .. => "ForStatement"
  | whileLoop .. => "WhileStatement"
  | exit .. => "ReturnStatement"
  | effect .. => "ExpressionStatement"
  | bare e => e.form

def isExpression : Node → Bool
  | bare e => !e.isEmpty
  | _ => false

/-- Whether a node is a group of statements between braces. -/
def isBlock : Node → Bool
  | block .. => true
  | _ => false

def isStatement : Node → Bool
  | declaration .. | block .. | branch .. | forLoop .. | whileLoop .. | exit .. | effect .. => true
  | _ => false

mutual

def forget : Node → Node
  | empty => empty
  | program _ body => program default (forgetList body)
  | function _ name returnType parameters body =>
      function default name returnType (parameters.map Parameter.forget) body.forget
  | parameter p => parameter p.forget
  | declaration _ type name value => declaration default type name value.forget
  | block _ body => block default (forgetList body)
  | branch _ test consequent alternative =>
      branch default test.forget consequent.forget alternative.forget
  | forLoop _ init test update body =>
      forLoop default init.forget test.forget update.forget body.forget
  | whileLoop _ test body => whileLoop default test.forget body.forget
  | exit _ value => exit default value.forget
  | effect _ value => effect default value.forget
  | bare value => bare value.forget

def forgetList : List Node → List Node
  | [] => []
  | n :: ns => n.forget :: forgetList ns

end

mutual

def same : Node → Node → Bool
  | empty, empty => true
  | program _ body, program _ body' => sameList body body'
  | function _ name returnType parameters body,
      function _ name' returnType' parameters' body' =>
      name == name' && returnType == returnType' &&
        parameters.map Parameter.forget == parameters'.map Parameter.forget && body.same body'
  | parameter p, parameter p' => p.same p'
  | declaration _ type name value, declaration _ type' name' value' =>
      type == type' && name == name' && value.same value'
  | block _ body, block _ body' => sameList body body'
  | branch _ test consequent alternative, branch _ test' consequent' alternative' =>
      test.same test' && consequent.same consequent' && alternative.same alternative'
  | forLoop _ init test update body, forLoop _ init' test' update' body' =>
      init.same init' && test.same test' && update.same update' && body.same body'
  | whileLoop _ test body, whileLoop _ test' body' => test.same test' && body.same body'
  | exit _ value, exit _ value' => value.same value'
  | effect _ value, effect _ value' => value.same value'
  | bare value, bare value' => value.same value'
  | _, _ => false

/-- Whether two lists of nodes are the same, places aside. -/
def sameList : List Node → List Node → Bool
  | [], [] => true
  | n :: ns, n' :: ns' => n.same n' && sameList ns ns'
  | _, _ => false

end

end Node

/-- A sketch: its top-level functions and variables, in order. -/
structure Program where
  location : Location
  body : List Node

namespace Program

def toNode (p : Program) : Node :=
  .program p.location p.body

/-- Whether two sketches are the same, places aside. -/
def same (p q : Program) : Bool :=
  Node.sameList p.body q.body

def functionName? : Node → Option String
  | .function _ name _ _ _ => some name
  | _ => none

def variableName? : Node → Option String
  | .declaration _ _ name _ => some name
  | _ => none

def functions (p : Program) : List String :=
  p.body.filterMap functionName?

def globals (p : Program) : List String :=
  p.body.filterMap variableName?

def function? (p : Program) (name : String) : Option Node :=
  p.body.find? fun node => functionName? node == some name

end Program

end InoBlocks
