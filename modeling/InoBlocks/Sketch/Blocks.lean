import InoBlocks.Block
import InoBlocks.Fault
import InoBlocks.Sketch.Source

/-!
# A sketch as blocks

The bodies of `setup` and `loop` become the statements of a workspace, and global variables its
declarations.  A call that has a block of its own becomes that block; whatever has none becomes
a raw block that holds its text, so that no statement is lost.
-/

namespace InoBlocks

/-- Why a sketch has no blocks. -/
inductive ConvertFault where
  /-- A node that is no statement where a statement is expected. -/
  | unconvertible (fault : Fault)
  /-- An expression without a text. -/
  | source (fault : SourceFault)
  deriving DecidableEq, Repr

namespace Blocks

/-! ## Words that have blocks -/

def isState (s : String) : Bool :=
  s == "HIGH" || s == "LOW"

def isMode (s : String) : Bool :=
  s == "INPUT" || s == "OUTPUT" || s == "INPUT_PULLUP"

/-- Calls that have a value: their block, and an input for each argument. -/
def valueCall? : String → Option (String × List String)
  | "digitalRead" => some ("arduino_digitalread", ["PIN"])
  | "analogRead" => some ("arduino_analogread", ["PIN"])
  | "map" => some ("arduino_map", ["VALUE", "FROM_LOW", "FROM_HIGH", "TO_LOW", "TO_HIGH"])
  | "constrain" => some ("arduino_constrain", ["VALUE", "MIN", "MAX"])
  | "min" => some ("arduino_min", ["A", "B"])
  | "max" => some ("arduino_max", ["A", "B"])
  | "abs" => some ("arduino_abs", ["VALUE"])
  | "pow" => some ("arduino_pow", ["BASE", "EXPONENT"])
  | "sqrt" => some ("arduino_sqrt", ["VALUE"])
  | "millis" => some ("arduino_millis", [])
  | "micros" => some ("arduino_micros", [])
  | "random" => some ("arduino_random", ["MIN", "MAX"])
  | _ => none

/-- Calls by themselves that have a block: those made for their effect, and those with a value
except the readings of pins. -/
def statementCall? : String → Option (String × List String)
  | "analogWrite" => some ("arduino_analogwrite", ["PIN", "VALUE"])
  | "randomSeed" => some ("arduino_random_seed", ["SEED"])
  | "digitalRead" | "analogRead" => none
  | name => valueCall? name

/-- The methods of the serial line that have a value. -/
def serialQuery? : String → Option String
  | "available" => some "arduino_serial_available"
  | "read" => some "arduino_serial_read"
  | "readString" => some "arduino_serial_read_string"
  | _ => none

/-! ## Expressions -/

/-- The method of the serial line that an expression names. -/
def serialMethod? : Expr → Option String
  | .member _ (.name _ "Serial") property => some property
  | _ => none

def literal (value : LiteralValue) (raw : String) : Block :=
  match value with
  | .number _ => .number raw
  | .text s =>
      if s == "true" then .truth true
      else if s == "false" then .truth false
      else if isState s || isMode s then .rawExpression raw
      else if raw.toList.head? == some '"' then .ofTexts "text" [("TEXT", s)] []
      else .rawExpression raw

def valueInput (name : String) : Option Block → Input
  | some b => .value name b
  | none => .vacant name

mutual

/-- An expression as a block; the empty expression has none. -/
def expression? : Expr → Option Block
  | .empty => none
  | .literal _ value raw => some (literal value raw)
  | .name _ id => some (.variableGet id)
  | .pin _ id _ => some (.rawExpression id)
  | .call l callee arguments =>
      let raw := .rawExpression (Expr.call l callee arguments).source
      match callee with
      | .name _ id =>
          match valueCall? id with
          | some (type, names) =>
              if arguments.length = names.length then
                some (.ofTexts type [] (inputs names arguments))
              else
                some raw
          | none => some raw
      | _ =>
          match (serialMethod? callee).bind serialQuery?, arguments with
          | some type, [] => some (.ofTexts type [] [])
          | _, _ => some raw
  | .binary l operator left right =>
      match Block.operator? operator with
      | some (type, name) =>
          some (.ofTexts type [("OP", name)]
            [valueInput "A" (expression? left), valueInput "B" (expression? right)])
      | none => some (.rawExpression (Expr.binary l operator left right).source)
  | .unary l operator operand before =>
      if operator == "!" && before then
        some (.ofTexts "logic_negate" [] [valueInput "BOOL" (expression? operand)])
      else
        some (.rawExpression (Expr.unary l operator operand before).source)
  | .member l object property => some (.rawExpression (Expr.member l object property).source)
  | .assign l operator left right =>
      some (.rawExpression (Expr.assign l operator left right).source)
  | .foreign l form head value =>
      some (.rawExpression (Expr.foreign l form head value).source)

def inputs : List String → List Expr → List Input
  | name :: names, e :: es => valueInput name (expression? e) :: inputs names es
  | _, _ => []

end

/-! ## Statements -/

abbrev Convert := Except ConvertFault

def checked (e : Expr) : Convert Unit :=
  match e.sourceFault? with
  | some fault => .error (.source fault)
  | none => .ok ()

def value? (e : Expr) : Convert (Option Block) := do
  checked e
  return expression? e

def valueIn (name : String) (e : Expr) : Convert Input := do
  return valueInput name (← value? e)

def raw (e : Expr) : Convert Block := do
  checked e
  return .rawStatement e.source

def constant? : Expr → Option String
  | .literal _ (.text s) _ => some s
  | _ => none

def valuesIn : List String → List Expr → Convert (List Input)
  | name :: names, e :: es => do
      let i ← valueIn name e
      return i :: (← valuesIn names es)
  | _, _ => return []

def namedCall (whole : Expr) (name : String) (arguments : List Expr) : Convert Block :=
  match name, arguments with
  | "digitalWrite", [pin, state] =>
      match (constant? state).filter isState with
      | some s => do
          return .ofTexts "arduino_digitalwrite" [("STATE", s)] [← valueIn "PIN" pin]
      | none => raw whole
  | "pinMode", [pin, mode] =>
      match (constant? mode).filter isMode with
      | some m => do return .ofTexts "arduino_pinmode" [("MODE", m)] [← valueIn "PIN" pin]
      | none => raw whole
  | "delay", [.literal _ (.number _) text] =>
      .ok (.ofTexts "arduino_delay" [("TIME", text)] [])
  | "delayMicroseconds", [.literal _ (.number _) text] =>
      .ok (.ofTexts "arduino_delayMicroseconds" [("TIME", text)] [])
  | _, _ =>
      match statementCall? name with
      | some (type, names) =>
          if arguments.length = names.length then do
            return .ofTexts type [] (← valuesIn names arguments)
          else
            raw whole
      | none => raw whole

/-- A call by itself of a method of the serial line. -/
def serialCall (whole : Expr) (method : String) (arguments : List Expr) : Convert Block :=
  match method, arguments with
  | "begin", [e] => do return .ofTexts "arduino_serial_begin" [] [← valueIn "BAUD" e]
  | "print", [e] => do
      return .ofTexts "arduino_serial_print" [("MODE", "PRINT")] [← valueIn "TEXT" e]
  | "println", [e] => do
      return .ofTexts "arduino_serial_print" [("MODE", "PRINTLN")] [← valueIn "TEXT" e]
  | _, [] =>
      match serialQuery? method with
      | some type => .ok (.ofTexts type [] [])
      | none => raw whole
  | _, _ => raw whole

def effect (e : Expr) : Convert Block :=
  match e with
  | .call _ (.name _ name) arguments => namedCall e name arguments
  | .call _ callee arguments =>
      match serialMethod? callee with
      | some method => serialCall e method arguments
      | none => raw e
  | .assign _ "=" (.name _ id) right => do
      return .ofTexts "variables_set" [("VAR", id)] [← valueIn "VALUE" right]
  | _ => raw e

def declaration (type name : String) (value : Expr) : Convert Block := do
  let fields := [("TYPE", type), ("VAR", name)]
  if value.isEmpty then
    return .ofTexts "variables_declare" fields []
  else
    return .ofTexts "variables_define" fields [← valueIn "VALUE" value]

/-- How often a loop runs, if it counts one variable from zero in steps of one up to a bound. -/
def repetitions? (init : Node) (test update : Expr) : Option Expr :=
  match init, test, update with
  | .declaration _ _ name (.literal _ (.number start) _), .binary _ "<" (.name _ tested) bound,
      .unary _ "++" (.name _ stepped) _ =>
      if start.isZero && tested == name && stepped == name then some bound else none
  | _, _, _ => none

def loopHeader (init : Node) (test update : Expr) : Convert String := do
  match init.sourceFault? with
  | some fault => throw (.source fault)
  | none =>
      checked test
      checked update
      return "for (" ++ init.source ++ "; " ++ test.source ++ "; " ++ update.source ++ ")"

/-- How often a loop runs, as an input; the empty bound stands for ten times. -/
def timesInput (bound : Expr) : Convert Input := do
  return .value "TIMES" ((← value? bound).getD (.number "10"))

def whileLoop (test : Expr) (body : Convert (List Block)) : Convert Block := do
  let condition ← valueIn "BOOL" test
  return .ofTexts "controls_whileUntil" [("MODE", "WHILE")] [condition, .chain "DO" (← body)]

def forLoop (init : Node) (test update : Expr) (body : Convert (List Block)) : Convert Block :=
  match repetitions? init test update with
  | some bound => do
      let times ← timesInput bound
      return .ofTexts "controls_repeat_ext" [] [times, .chain "DO" (← body)]
  | none => do
      let header ← loopHeader init test update
      return .ofTexts "arduino_raw_block" [("CODE", header)] [.chain "STATEMENTS" (← body)]

def arm (number : Nat) (test : Expr) (body : Convert (List Block)) : Convert (List Input) := do
  let condition ← valueIn ("IF" ++ Number.decimal number) test
  return [condition, .chain ("DO" ++ Number.decimal number) (← body)]

/-- What a node gives in either place it may stand in. -/
structure Part where
  /-- The chain of blocks where a body is expected. -/
  body : Unit → Convert (List Block)
  /-- The inputs of a choice behind an `else`, where the next arm has the given number. -/
  arms : Nat → Convert (List Input)

namespace Part

def ofBody (body : Unit → Convert (List Block)) : Part :=
  ⟨body, fun _ => do return [.chain "ELSE" (← body ())]⟩

def ofBlock (block : Unit → Convert Block) : Part :=
  ofBody fun _ => do return [← block ()]

/-- A choice: behind an `else` its arms go on with those before it. -/
def ofArms (arms : Nat → Convert (List Input)) : Part :=
  ⟨fun _ => do return [.ofTexts "controls_if" [] (← arms 0)], arms⟩

end Part

def unconvertible {α : Type} (n : Node) : Convert α :=
  .error <| .unconvertible
    { cause := .conversion ("cannot convert " ++ n.form ++ " to a block")
      location := n.location? }

mutual

def part : Node → Part
  | .empty | .bare .empty => ⟨fun _ => .ok [], fun _ => .ok []⟩
  | .effect _ value => .ofBlock fun _ => effect value
  | .declaration _ type name value => .ofBlock fun _ => declaration type name value
  | .forLoop _ init test update body =>
      .ofBlock fun _ => forLoop init test update ((part body).body ())
  | .whileLoop _ test body => .ofBlock fun _ => whileLoop test ((part body).body ())
  | .branch _ test consequent alternative =>
      .ofArms fun number => do
        let first ← arm number test ((part consequent).body ())
        return first ++ (← (part alternative).arms (number + 1))
  | .block _ body => .ofBody fun _ => statements body
  | .exit .. => .ofBody fun _ => .ok []
  | n => .ofBody fun _ => unconvertible n

/-- Statements as a chain of blocks; blocks inside blocks have none. -/
def statements : List Node → Convert (List Block)
  | [] => .ok []
  | n :: ns => do
      let first ←
        if n.isEmpty then unconvertible n else if n.isBlock then .ok [] else (part n).body ()
      return first ++ (← statements ns)

end

/-- A statement as a block; blocks inside blocks and the ends of functions have none. -/
def statement? (n : Node) : Convert (Option Block) := do
  return (← statements [n]).head?

def body (n : Node) : Convert (List Block) :=
  (part n).body ()

/-! ## Programs -/

/-- A workspace with what there is to say about the sketch it was made from. -/
structure Converted where
  workspace : Workspace := {}
  findings : Findings := .empty "converter"

/-- Take up one part of a program.  A later `setup` or `loop` replaces an earlier one. -/
def takeUp (done : Converted) : Node → Convert Converted
  | .function l name _ _ fnBody => do
      if name == "setup" then
        return { done with workspace := { done.workspace with setup := ← body fnBody } }
      else if name == "loop" then
        return { done with workspace := { done.workspace with loop := ← body fnBody } }
      else
        return { done with
          findings := done.findings.record .info
            ("function '" ++ name ++ "' is not represented as blocks") (some l) }
  | .declaration _ type name value => do
      let b ← declaration type name value
      return { done with
        workspace := { done.workspace with globals := done.workspace.globals ++ [b] } }
  | _ => .ok done

def ofProgram (p : Program) : Convert Converted :=
  p.body.foldlM takeUp {}

end Blocks

end InoBlocks
