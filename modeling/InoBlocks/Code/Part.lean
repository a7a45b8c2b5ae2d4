import InoBlocks.Block
import InoBlocks.Code.Context
import InoBlocks.Number.Numeral
import InoBlocks.Sketch.RawText

/-!
# Parts

What the code of a block is made from: its fields, and for each input the blocks in it as parts
of their own, which can be asked for their code as a statement or as a value.  A template reads
its inputs by name; what it does not read is never generated.
-/

namespace InoBlocks

namespace Code

/-- Text with the strength with which its outermost operator binds. -/
structure Operand where
  text : String
  binding : Nat

/-- A block in an input, ready to give code. -/
structure Part where
  type : String
  field? : String → Option String
  /-- The code as a statement. -/
  statement : Place → Gen String
  /-- The code as a value. -/
  value : Gen Operand

/-- A block with the parts in its inputs. -/
structure Shape where
  type : String
  fields : List (String × Scalar)
  slots : List (String × List Part)

namespace Shape

def field? (s : Shape) (name : String) : Option String :=
  (s.fields.lookup name).bind Scalar.text?

def field (s : Shape) (name : String) : String :=
  (s.field? name).getD ""

def chain (s : Shape) (name : String) : List Part :=
  (s.slots.lookup name).getD []

def target (s : Shape) (name : String) : Gen (Option Part) :=
  match s.chain name with
  | [] => pure none
  | [part] => pure (some part)
  | _ =>
      malformed ("input " ++ name ++ " holds a statement sequence where a value is expected")
        (some s.type)

/-- The value in an input, in parentheses if it binds looser than demanded; a default if the
input is empty. -/
def value (s : Shape) (name default : String) (demanded : Nat := Binding.unknown) :
    Gen String := do
  match ← s.target name with
  | none => return default
  | some part =>
      let operand ← part.value
      return Expr.guarded operand.text operand.binding demanded

/-- The number in an input, or else in the field of that name.  A plain number is kept inside
limits; any other value stays as it is. -/
def number (s : Shape) (name default : String) (limits : Limits) : Gen String := do
  match ← s.target name with
  | none => return Numeral.ofField (s.field? name) default limits
  | some part =>
      if part.type == "math_number" then
        return Numeral.ofField (part.field? "NUM") default limits
      else
        return (← part.value).text

def pinLimits : Limits := .upTo 53

def analogLimits : Limits := .upTo 255

/-- A typed pin: the name of an analog pin, or a number. -/
def typedPin (typed? : Option String) (default : String) : String :=
  match (typed?.map Text.trimmed).filter isAnalogPin with
  | some name => name
  | none => Numeral.ofField typed? default pinLimits

/-- The pin of a block, given as a field, as a text or as a number. -/
def pin (s : Shape) (default : String) : Gen String := do
  match ← s.target "PIN" with
  | none => return typedPin (s.field? "PIN") default
  | some part =>
      if part.type == "text" then return typedPin (some ((part.field? "TEXT").getD "")) default
      else s.number "PIN" default pinLimits

/-- The statements of a chain, one below the other; those without text leave no line. -/
def statements (p : Place) (chain : List Part) : Gen String := do
  let lines ← chain.mapM fun part => part.statement p
  return Text.joinLines (lines.filter fun line => line != "")

def body (s : Shape) (p : Place) (name : String) : Gen String :=
  statements p (s.chain name)

end Shape

end Code

end InoBlocks
