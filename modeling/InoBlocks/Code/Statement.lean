import InoBlocks.Code.Value

/-!
# Statements

The templates of the blocks that are statements, and the code of a block of any type.
-/

namespace InoBlocks

namespace Code

namespace Statement

def line (p : Place) (code : String) : String :=
  p.pad ++ code

def callLine (p : Place) (name : String) (arguments : List String) : String :=
  line p (Value.callText name arguments ++ ";")

def braced (p : Place) (header body : String) : String :=
  let inside := if body == "" then [] else [body]
  Text.joinLines ([line p (header ++ " \x7b")] ++ inside ++ [line p "\x7d"])

/-! ## Calls -/

def pinModes : List String := ["INPUT", "OUTPUT", "INPUT_PULLUP"]

/-- The direction of a pin, an output if the mode is none of the known ones. -/
def pinMode (s : Shape) (p : Place) : Gen String := do
  let pin ← s.pin "13"
  let mode := ((s.field? "MODE").filter pinModes.contains).getD "OUTPUT"
  return callLine p "pinMode" [pin, mode]

/-- The level of a digital pin, by its name in a block. -/
def level (name? : Option String) : String :=
  match name? with
  | some "0" | some "LOW" => "LOW"
  | _ => "HIGH"

def digitalWrite (s : Shape) (p : Place) : Gen String := do
  let pin ← s.pin "13"
  return callLine p "digitalWrite" [pin, level (s.field? "STATE")]

def analogWrite (s : Shape) (p : Place) : Gen String := do
  let pin ← s.pin "9"
  let value ← s.number "VALUE" "128" Shape.analogLimits
  return callLine p "analogWrite" [pin, value]

def numberCall (name input default : String) (s : Shape) (p : Place) : Gen String := do
  return callLine p name [← s.number input default .natural]

/-- A text sent to the serial port, with or without an end of line. -/
def serialPrint (s : Shape) (p : Place) : Gen String := do
  let name := if s.field? "MODE" == some "PRINTLN" then "Serial.println" else "Serial.print"
  return callLine p name [← s.value "TEXT" "\"\""]

def randomSeed (s : Shape) (p : Place) : Gen String := do
  return callLine p "randomSeed" [← s.value "SEED" "0"]

/-! ## Variables -/

def variableTypes : List String := [
    "int", "float", "boolean", "char", "String", "long", "byte", "unsigned int",
    "unsigned long", "unsigned char"]

/-- The type of a variable, an integer if it is none of these. -/
def variableType (s : Shape) : String :=
  let words := (Text.words (s.field "TYPE").toList).map String.ofList
  let type := " ".intercalate words
  if variableTypes.contains type then type else "int"

/-- An assignment.  A variable that nothing declares becomes a global one. -/
def variableSet (s : Shape) (p : Place) : Gen String := do
  let name := Value.variableName s
  modify fun c => c.assign name
  let value ← s.value "VALUE" "0"
  return line p (name ++ " = " ++ value ++ ";")

def variableDeclare (s : Shape) (p : Place) : Gen String := do
  let name := Value.variableName s
  modify fun c => c.declare name
  return line p (variableType s ++ " " ++ name ++ ";")

def variableDefine (s : Shape) (p : Place) : Gen String := do
  let name := Value.variableName s
  modify fun c => c.declare name
  let value ← s.value "VALUE" "0"
  return line p (variableType s ++ " " ++ name ++ " = " ++ value ++ ";")

/-! ## Control -/

/-- One arm of a choice: its header and its statements. -/
abbrev Arm := String × String

/-- The arms of a choice from a number on, up to the first number that has neither a condition
nor statements; there is always an arm of number zero.  Each arm after that one needs an input
of its own, which bounds them. -/
def arms (s : Shape) (p : Place) : (fuel : Nat) → (number : Nat) → Gen (List Arm)
  | 0, _ => pure []
  | fuel + 1, number => do
      let condition := "IF" ++ Number.decimal number
      let statements := "DO" ++ Number.decimal number
      let test ← s.target condition
      if 0 < number && test.isNone && (s.chain statements).isEmpty then
        return []
      else
        let value ← s.value condition "false"
        let body ← s.body p.deeper statements
        let word := if number = 0 then "if" else "else if"
        return (word ++ " (" ++ value ++ ")", body) :: (← arms s p fuel (number + 1))

def otherwise (s : Shape) (p : Place) : Gen (List Arm) :=
  if (s.chain "ELSE").isEmpty then pure []
  else do return [("else", ← s.body p.deeper "ELSE")]

/-- The lines of arms; `opening` stands before the header of the first. -/
def armLines (p : Place) (opening : String) : List Arm → List String
  | [] => [line p "\x7d"]
  | (header, body) :: rest =>
      let inside := if body == "" then [] else [body]
      line p (opening ++ header ++ " \x7b") :: inside ++ armLines p "\x7d " rest

def choice (s : Shape) (p : Place) : Gen String := do
  let conditional ← arms s p (s.slots.length + 1) 0
  let last ← otherwise s p
  return Text.joinLines (armLines p "" (conditional ++ last))

/-- The counter of a loop, by the number of loops around it. -/
def counter : Nat → String
  | 0 => "i"
  | 1 => "j"
  | 2 => "k"
  | depth => "i" ++ Number.decimal depth

/-- A loop that runs a number of times, with a counter of its own. -/
def repetition (s : Shape) (p : Place) : Gen String := do
  let times ← s.number "TIMES" "10" .natural
  let name := counter p.loops
  let body ← s.body p.deeper.inLoop "DO"
  return braced p
    ("for (int " ++ name ++ " = 0; " ++ name ++ " < " ++ times ++ "; " ++ name ++ "++)") body

/-- The condition of a loop, which may run until something holds. -/
def loopCondition (s : Shape) : Gen String := do
  if s.field? "MODE" == some "UNTIL" then
    return "!" ++ (← s.value "BOOL" "false" Binding.leading)
  else
    s.value "BOOL" "false"

def whileLoop (s : Shape) (p : Place) : Gen String := do
  let condition ← loopCondition s
  let body ← s.body p.deeper "DO"
  return braced p ("while (" ++ condition ++ ")") body

def countedLoop (s : Shape) (p : Place) : Gen String := do
  let name := safeNameOf (s.field? "VAR") "i"
  let start ← s.number "FROM" "1" .none
  let stop ← s.number "TO" "10" .none
  let step ← s.number "BY" "1" .none
  let body ← s.body p.deeper "DO"
  return braced p
    ("for (int " ++ name ++ " = " ++ start ++ "; " ++ name ++ " <= " ++ stop ++ "; " ++ name ++
      " += " ++ step ++ ")") body

/-! ## Raw text -/

def isClosed (code : String) : Bool :=
  match code.toList.getLast? with
  | some c => c == ';' || c == '}'
  | none => false

/-- Raw text as a line, with a semicolon if it needs one; nothing if the text is blank. -/
def raw (s : Shape) (p : Place) : Gen String :=
  let code := Text.trimmed (s.field "CODE")
  if code == "" then pure ""
  else pure (line p (if isClosed code then code else code ++ ";"))

def rawBlock (s : Shape) (p : Place) : Gen String := do
  let body ← s.body p.deeper "STATEMENTS"
  return braced p (Text.trimmed (s.field "CODE")) body

/-- The template of a type of block that is a statement. -/
def template? : String → Option (Shape → Place → Gen String)
  | "arduino_pinmode" => some pinMode
  | "arduino_digitalwrite" => some digitalWrite
  | "arduino_analogwrite" => some analogWrite
  | "arduino_delay" => some (numberCall "delay" "TIME" "1000")
  | "arduino_delayMicroseconds" => some (numberCall "delayMicroseconds" "TIME" "100")
  | "arduino_serial_begin" => some (numberCall "Serial.begin" "BAUD" "9600")
  | "arduino_serial_print" => some serialPrint
  | "arduino_random_seed" => some randomSeed
  | "variables_set" => some variableSet
  | "variables_declare" => some variableDeclare
  | "variables_define" => some variableDefine
  | "controls_if" => some choice
  | "controls_repeat_ext" => some repetition
  | "controls_whileUntil" => some whileLoop
  | "controls_for" => some countedLoop
  | "arduino_raw_statement" => some raw
  | "arduino_raw_block" => some rawBlock
  | _ => none

end Statement

/-! ## Blocks of any type -/

namespace Shape

/-- The message about a type of block that has no template. -/
def unsupported (s : Shape) : String :=
  "unsupported block: " ++ s.type

/-- The code of a block as a statement.  A block that has a value is evaluated by itself; one of
an unknown type leaves a comment and a warning. -/
def statement (s : Shape) (p : Place) : Gen String := do
  if s.type == "" then
    malformed "block has no type" none
  else
    match Statement.template? s.type, Value.template? s.type with
    | some template, _ => template s p
    | none, some template => return Statement.line p ((← template s).text ++ ";")
    | none, none =>
        modify fun c => c.warn s.unsupported
        return Statement.line p ("// " ++ s.unsupported)

def operand (s : Shape) : Gen Operand := do
  if s.type == "" then
    malformed "block has no type" none
  else
    match Value.template? s.type with
    | some template => template s
    | none =>
        if (Statement.template? s.type).isSome then
          malformed "statement block given where a value is expected" (some s.type)
        else
          modify fun c => c.warn s.unsupported
          Value.atom ("/* " ++ s.unsupported ++ " */")

def toPart (s : Shape) : Part where
  type := s.type
  field? := s.field?
  statement := s.statement
  value := s.operand

end Shape

mutual

def part : Block → Part
  | .mk type fields inputs => (Shape.mk type fields (slots inputs)).toPart

def slots : List Input → List (String × List Part)
  | [] => []
  | i :: is => slot i :: slots is

def slot : Input → String × List Part
  | .value name block => (name, [part block])
  | .chain name blocks => (name, parts blocks)
  | .vacant name => (name, [])

def parts : List Block → List Part
  | [] => []
  | b :: bs => part b :: parts bs

end

end Code

end InoBlocks
