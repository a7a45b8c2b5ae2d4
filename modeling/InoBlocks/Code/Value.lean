import InoBlocks.Code.Part
import InoBlocks.Sketch.SafeName

/-!
# Values

The templates of the blocks that have a value.  Each gives its text together with the strength
of its outermost operator, so that whoever takes it as an operand knows when to put it in
parentheses.
-/

namespace InoBlocks

namespace Code

def mathHeader : String := "<math.h>"

def needMath : Gen Unit :=
  modify fun c => c.addInclude mathHeader

namespace Value

def atom (text : String) : Gen Operand :=
  pure ⟨text, Binding.primary⟩

def callText (name : String) (arguments : List String) : String :=
  name ++ "(" ++ ", ".intercalate arguments ++ ")"

/-- A call with the values of some inputs, each with its default. -/
def call (name : String) (inputs : List (String × String)) (s : Shape) : Gen Operand := do
  let arguments ← inputs.mapM fun input => s.value input.1 input.2
  return ⟨callText name arguments, Binding.trailing⟩

def mathCall (name : String) (inputs : List (String × String)) (s : Shape) : Gen Operand := do
  needMath
  call name inputs s

def pinCall (name default : String) (s : Shape) : Gen Operand := do
  return ⟨callText name [← s.pin default], Binding.trailing⟩

def pin (s : Shape) : Gen Operand :=
  atom (Shape.typedPin (some (Text.trimmed (s.field "PIN"))) "13")

def raw (s : Shape) : Gen Operand :=
  let code := Text.trimmed (s.field "CODE")
  if code == "" then atom "0" else pure ⟨code, rawBinding code.toList⟩

def variableName (s : Shape) : String :=
  safeNameOf (s.field? "VAR") unnamed

def infixed (operator : String × Nat) (default : String) (s : Shape) : Gen Operand := do
  let left ← s.value "A" default operator.2
  let right ← s.value "B" default (operator.2 + 1)
  return ⟨left ++ " " ++ operator.1 ++ " " ++ right, operator.2⟩

def operator (symbol : String) : String × Nat :=
  (symbol, Binding.ofOperator symbol)

def comparison (name? : Option String) : String × Nat :=
  operator <|
    match name? with
    | some "NEQ" => "!="
    | some "LT" => "<"
    | some "LTE" => "<="
    | some "GT" => ">"
    | some "GTE" => ">="
    | _ => "=="

def connective (name? : Option String) : String × Nat :=
  operator (if name? == some "OR" then "||" else "&&")

def arithmeticOperator (name? : Option String) : String × Nat :=
  operator <|
    match name? with
    | some "MINUS" => "-"
    | some "MULTIPLY" => "*"
    | some "DIVIDE" => "/"
    | some "MODULO" => "%"
    | _ => "+"

def arithmetic (s : Shape) : Gen Operand :=
  if s.field? "OP" == some "POWER" then
    mathCall "pow" [("A", "0"), ("B", "0")] s
  else
    infixed (arithmeticOperator (s.field? "OP")) "0" s

def negation (s : Shape) : Gen Operand := do
  return ⟨"!" ++ (← s.value "BOOL" "true" Binding.leading), Binding.leading⟩

def truth (s : Shape) : Gen Operand :=
  atom (if s.field? "BOOL" == some "TRUE" then "true" else "false")

def isSigned (text : String) : Bool :=
  match text.toList with
  | c :: _ => c == '-' || c == '+'
  | [] => false

def number (s : Shape) : Gen Operand :=
  let text := Numeral.ofField (s.field? "NUM") "0" .none
  pure ⟨text, if isSigned text then Binding.leading else Binding.primary⟩

/-- A function of one number, by its name in a block. -/
def single (name? : Option String) : String × List String :=
  match name? with
  | some "ABS" => ("abs", [])
  | some "LN" => ("log", [])
  | some "LOG10" => ("log10", [])
  | some "EXP" => ("exp", [])
  | some "POW10" => ("pow", ["10"])
  | _ => ("sqrt", [])

def mathSingle (s : Shape) : Gen Operand := do
  needMath
  if s.field? "OP" == some "NEG" then
    return ⟨joinLeading "-" (← s.value "NUM" "0" Binding.leading), Binding.leading⟩
  else
    let (name, front) := single (s.field? "OP")
    return ⟨callText name (front ++ [← s.value "NUM" "0"]), Binding.trailing⟩

/-- The function of an angle, by its name in a block. -/
def angleFunction (name? : Option String) : String :=
  match name? with
  | some "COS" => "cos"
  | some "TAN" => "tan"
  | some "ASIN" => "asin"
  | some "ACOS" => "acos"
  | some "ATAN" => "atan"
  | _ => "sin"

def trigonometry (s : Shape) : Gen Operand :=
  mathCall (angleFunction (s.field? "OP")) [("NUM", "0")] s

/-- A constant of mathematics, by its name in a block. -/
def constantText (name? : Option String) : String :=
  match name? with
  | some "E" => "M_E"
  | some "GOLDEN_RATIO" => "((1 + sqrt(5)) / 2)"
  | some "SQRT2" => "M_SQRT2"
  | some "SQRT1_2" => "M_SQRT1_2"
  | some "INFINITY" => "INFINITY"
  | _ => "M_PI"

def constant (s : Shape) : Gen Operand := do
  needMath
  atom (constantText (s.field? "CONSTANT"))

def text (s : Shape) : Gen Operand :=
  atom (quoteText (s.field "TEXT"))

/-- The template of a type of block that has a value. -/
def template? : String → Option (Shape → Gen Operand)
  | "arduino_digitalread" => some (pinCall "digitalRead" "2")
  | "arduino_analogread" => some (pinCall "analogRead" "A0")
  | "arduino_map" =>
      some (call "map" [("VALUE", "0"), ("FROM_LOW", "0"), ("FROM_HIGH", "1023"),
        ("TO_LOW", "0"), ("TO_HIGH", "255")])
  | "arduino_constrain" =>
      some (call "constrain" [("VALUE", "0"), ("MIN", "0"), ("MAX", "255")])
  | "arduino_min" => some (call "min" [("A", "0"), ("B", "0")])
  | "arduino_max" => some (call "max" [("A", "0"), ("B", "0")])
  | "arduino_abs" => some (call "abs" [("VALUE", "0")])
  | "arduino_pow" => some (mathCall "pow" [("BASE", "0"), ("EXPONENT", "1")])
  | "arduino_sqrt" => some (mathCall "sqrt" [("VALUE", "0")])
  | "arduino_millis" => some (call "millis" [])
  | "arduino_micros" => some (call "micros" [])
  | "arduino_random" => some (call "random" [("MIN", "0"), ("MAX", "100")])
  | "arduino_serial_available" => some (call "Serial.available" [])
  | "arduino_serial_read" => some (call "Serial.read" [])
  | "arduino_serial_read_string" => some (call "Serial.readString" [])
  | "arduino_pin" => some pin
  | "arduino_raw_expression" => some raw
  | "variables_get" => some fun s => atom (variableName s)
  | "logic_compare" => some fun s => infixed (comparison (s.field? "OP")) "0" s
  | "logic_operation" => some fun s => infixed (connective (s.field? "OP")) "false" s
  | "logic_negate" => some negation
  | "logic_boolean" => some truth
  | "math_number" => some number
  | "math_arithmetic" => some arithmetic
  | "math_single" => some mathSingle
  | "math_trig" => some trigonometry
  | "math_constant" => some constant
  | "text" => some text
  | _ => none

end Value

end Code

end InoBlocks
