import InoBlocks.Number.Layout

/-!
# Blocks

A block has a type, scalar fields and inputs, all in the order in which they were given.  An
input holds a value, a chain of statements, or nothing.  A workspace is the three regions of a
sketch.
-/

namespace InoBlocks

/-- What a field holds. -/
inductive Scalar where
  | text (value : String)
  | integer (value : Int)
  | real (value : Binary64)
  | flag (value : Bool)
  | null
  deriving DecidableEq, Repr

namespace Scalar

def toText : Scalar → String
  | text s => s
  | integer n => Number.signedDecimal n
  | real x => x.toText
  | flag b => if b then "TRUE" else "FALSE"
  | null => "None"

def text? : Scalar → Option String
  | null => none
  | s => some s.toText

end Scalar

mutual

/-- A block. -/
inductive Block where
  | mk (type : String) (fields : List (String × Scalar)) (inputs : List Input)

/-- A named input of a block. -/
inductive Input where
  /-- One block that has a value. -/
  | value (name : String) (block : Block)
  /-- Statements in order. -/
  | chain (name : String) (blocks : List Block)
  /-- Nothing. -/
  | vacant (name : String)

end

namespace Input

def name : Input → String
  | value n _ | chain n _ | vacant n => n

/-- The blocks in an input; what has a value is a chain of one. -/
def blocks : Input → List Block
  | value _ b => [b]
  | chain _ bs => bs
  | vacant _ => []

/-- Whether an input holds anything, be it an empty chain. -/
def isPresent : Input → Bool
  | vacant _ => false
  | _ => true

end Input

namespace Block

instance : Inhabited Block := ⟨.mk "" [] []⟩

def type : Block → String
  | mk t _ _ => t

def fields : Block → List (String × Scalar)
  | mk _ fs _ => fs

def inputs : Block → List Input
  | mk _ _ is => is

def ofTexts (type : String) (fields : List (String × String)) (inputs : List Input) : Block :=
  mk type (fields.map fun f => (f.1, .text f.2)) inputs

/-- A field as text; nothing if the field is missing or holds nothing. -/
def field? (b : Block) (name : String) : Option String :=
  (b.fields.lookup name).bind Scalar.text?

def input? (b : Block) (name : String) : Option Input :=
  b.inputs.find? fun i => i.name == name

def chain (b : Block) (name : String) : List Block :=
  ((b.input? name).map Input.blocks).getD []

end Block

mutual

/-- A block and all blocks in its inputs, each before what is in it. -/
def Block.walk : Block → List Block
  | .mk type fields inputs => .mk type fields inputs :: Input.walkAll inputs

def Input.walk : Input → List Block
  | .value _ b => b.walk
  | .chain _ bs => Block.walkAll bs
  | .vacant _ => []

def Input.walkAll : List Input → List Block
  | [] => []
  | i :: is => i.walk ++ Input.walkAll is

def Block.walkAll : List Block → List Block
  | [] => []
  | b :: bs => b.walk ++ Block.walkAll bs

end

/-- A block program: what runs once, what runs again and again, and the declarations. -/
structure Workspace where
  setup : List Block := []
  loop : List Block := []
  globals : List Block := []

namespace Workspace

def empty : Workspace := {}

def isEmpty (w : Workspace) : Bool :=
  w.setup.isEmpty && w.loop.isEmpty && w.globals.isEmpty

def walk (w : Workspace) : List Block :=
  Block.walkAll w.setup ++ Block.walkAll w.loop ++ Block.walkAll w.globals

def blockCount (w : Workspace) : Nat :=
  w.walk.length

def setupType : String := "arduino_setup"

def setupInput : String := "SETUP_CODE"

/-- The type of the block around what runs again and again. -/
def loopType : String := "arduino_loop"

def loopInput : String := "LOOP_CODE"

/-- The top blocks of a workspace: the two regions of statements, each in a block of its own,
and then the declarations. -/
def roots (w : Workspace) : List Block :=
  .mk setupType [] [.chain setupInput w.setup] ::
    .mk loopType [] [.chain loopInput w.loop] :: w.globals

end Workspace

/-! ## Common blocks -/

namespace Block

def rawStatement (code : String) : Block :=
  .ofTexts "arduino_raw_statement" [("CODE", code)] []

def rawExpression (code : String) : Block :=
  .ofTexts "arduino_raw_expression" [("CODE", code)] []

def number (text : String) : Block :=
  .ofTexts "math_number" [("NUM", text)] []

def truth (value : Bool) : Block :=
  .ofTexts "logic_boolean" [("BOOL", if value then "TRUE" else "FALSE")] []

def variableGet (name : String) : Block :=
  .ofTexts "variables_get" [("VAR", name)] []

def arithmeticNames : List (String × String) :=
  [("+", "ADD"), ("-", "MINUS"), ("*", "MULTIPLY"), ("/", "DIVIDE"), ("%", "MODULO")]

/-- The operators of comparison and their names, the longer ones first. -/
def comparisonNames : List (String × String) :=
  [("==", "EQ"), ("!=", "NEQ"), ("<=", "LTE"), (">=", "GTE"), ("<", "LT"), (">", "GT")]

/-- The operators between truth values and their names. -/
def connectiveNames : List (String × String) :=
  [("&&", "AND"), ("||", "OR")]

/-- The tables of operators, each with the type of its blocks. -/
def operatorTables : List (String × List (String × String)) := [
    ("math_arithmetic", arithmeticNames), ("logic_compare", comparisonNames),
    ("logic_operation", connectiveNames)]

/-- The block of an operator: its type, and the name of the operator in it. -/
def operator? (symbol : String) : Option (String × String) :=
  operatorTables.findSome? fun table => (table.2.lookup symbol).map fun name => (table.1, name)

end Block

/-! ## Moving over blocks -/

/-- A block in a chain, with the blocks after it. -/
structure BlockCursor where
  block : Block
  next : List Block

namespace BlockCursor

def ofChain? : List Block → Option BlockCursor
  | [] => none
  | b :: bs => some ⟨b, bs⟩

def forward? (c : BlockCursor) : Option BlockCursor :=
  ofChain? c.next

def enter? (c : BlockCursor) (name : String) : Option BlockCursor :=
  ofChain? (c.block.chain name)

end BlockCursor

end InoBlocks
