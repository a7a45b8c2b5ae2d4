import InoBlocks.Block
import InoBlocks.Number.Numeral
import InoBlocks.Sketch.SafeName
import InoBlocks.Skim.Body
import InoBlocks.Skim.Pattern

/-!
# Skimming

Blocks from sketch text without a grammar.  The bodies of `setup` and `loop` are cut into
statements and each is matched against known shapes; what fits none stays raw text.  Nesting is
followed down to a limit, below which everything stays raw.
-/

namespace InoBlocks

namespace Skim

open Text

def rawStatement (cs : List Char) : Block :=
  .rawStatement (String.ofList (trim cs))

def rawExpression (cs : List Char) : Block :=
  .rawExpression (String.ofList cs)

def numberIn (cs? : Option (List Char)) (default : String) (limits : Limits) : Block :=
  .number (Numeral.ofField (cs?.map String.ofList) default limits)

def nameIn (cs : List Char) (default : String) : String :=
  safeName (String.ofList cs) default

/-- How the parts of a text are read. -/
structure Reader where
  /-- Statements between braces. -/
  block : List Char → List Block
  /-- Conditions. -/
  condition : List Char → Block
  /-- Values. -/
  value : List Char → Block

/-! ## Values -/

/-- An operator with what stands on both sides of it. -/
def operation (type : String) (names : List (String × String)) (s : Split)
    (read : List Char → Block) : Block :=
  .ofTexts type [("OP", (names.lookup s.operator).getD "")]
    [.value "A" (read s.left), .value "B" (read s.right)]

def pinReading? (read : List Char → Block) (cs : List Char) : Option Block :=
  ((plainCall? "digitalRead" cs).map fun pin =>
      Block.mk "arduino_digitalread" [] [.value "PIN" (read pin)]) <|>
    (plainCall? "analogRead" cs).map fun pin =>
      Block.mk "arduino_analogread" [] [.value "PIN" (read pin)]

def quotedText? (cs : List Char) : Option (List Char) :=
  match cs with
  | '"' :: rest => if rest.getLast? == some '"' then some rest.dropLast else none
  | _ => none

def plainValue? (cs : List Char) : Option Block :=
  if isNumber cs then
    some (.number (String.ofList cs))
  else
    match quotedText? cs with
    | some text => some (.ofTexts "text" [("TEXT", String.ofList text)] [])
    | none =>
        if cs == "true".toList then some (.truth true)
        else if cs == "false".toList then some (.truth false)
        else if ["HIGH", "LOW", "INPUT", "OUTPUT", "INPUT_PULLUP"].contains (String.ofList cs) ||
            isPinName cs then
          some (rawExpression cs)
        else
          none

/-- A value with an operator between its parts, of the first kind that splits it. -/
def operation? (read : List Char → Block) (cs : List Char) : Option Block :=
  Block.operatorTables.findSome? fun table =>
    (split? table.2 cs).map fun s => operation table.1 table.2 s read

/-- The rest of a text behind an exclamation mark that denies it. -/
def denied? (cs : List Char) : Option (List Char) :=
  match cs with
  | '!' :: rest => if rest.head? == some '=' then none else some rest
  | _ => none

/-- What stands between parentheses around all of a text. -/
def enclosed? (cs : List Char) : Option (List Char) :=
  match cs with
  | '(' :: rest => if closing? parentheses cs == some rest.length then some rest.dropLast else none
  | _ => none

def matchValue (read : List Char → Block) (cs : List Char) : Block :=
  match plainValue? cs <|> pinReading? read cs <|> operation? read cs with
  | some b => b
  | none =>
      match denied? cs with
      | some rest => .mk "logic_negate" [] [.value "BOOL" (read rest)]
      | none =>
          if isName cs then
            .variableGet (nameIn cs "var")
          else
            match enclosed? cs with
            | some inside => read inside
            | none => rawExpression cs

def matchCondition (r : Reader) (cs : List Char) : Block :=
  match split? Block.connectiveNames cs with
  | some s => operation "logic_operation" Block.connectiveNames s r.condition
  | none =>
      match split? Block.comparisonNames cs with
      | some s => operation "logic_compare" Block.comparisonNames s r.value
      | none => r.value cs

/-! ## Simple statements -/

def variableFields (type : String) (name : List Char) : List (String × String) :=
  [("TYPE", type), ("VAR", nameIn name unnamed)]

def variableStatement? (r : Reader) (cs : List Char) : Option Block :=
  match define? cs, declare? cs, assigned? cs with
  | some (type, name, value), _, _ =>
      some (.ofTexts "variables_define" (variableFields type name) [.value "VALUE" (r.value value)])
  | none, some (type, name), _ =>
      some (.ofTexts "variables_declare" (variableFields type name) [])
  | none, none, some (name, value) =>
      some (.ofTexts "variables_set" [("VAR", nameIn name unnamed)]
        [.value "VALUE" (r.value value)])
  | none, none, none => none

def level? (word : String) : Option String :=
  match word with
  | "1" | "HIGH" => some "HIGH"
  | "0" | "LOW" => some "LOW"
  | _ => none

def callStatement? (r : Reader) (cs : List Char) : Option Block :=
  (do
    let (pin, word) ← wordCall? "digitalWrite" cs
    return .ofTexts "arduino_digitalwrite" [("STATE", ← level? word)]
      [.value "PIN" (r.value pin)]) <|>
  (do
    let (pin, word) ← wordCall? "pinMode" cs
    if ["INPUT_PULLUP", "INPUT", "OUTPUT"].contains word then
      some (.ofTexts "arduino_pinmode" [("MODE", word)] [.value "PIN" (r.value pin)])
    else
      none) <|>
  (do
    let (pin, value) ← lineCall? "analogWrite" cs
    return .mk "arduino_analogwrite" []
      [.value "PIN" (r.value pin), .value "VALUE" (r.value value)]) <|>
  ["delay", "delayMicroseconds"].findSome? fun name =>
    (integerCall? name cs).map fun digits =>
      .ofTexts ("arduino_" ++ name) [("TIME", String.ofList digits)] []

def bareStatement (cs : List Char) : List Char :=
  let text := trim cs
  if text.getLast? == some ';' then trim text.dropLast else text

def statement? (r : Reader) (cs : List Char) : Option Block :=
  match bareStatement cs with
  | [] => none
  | text =>
      some ((variableStatement? r text <|> callStatement? r text).getD (rawStatement text))

/-! ## Statements with a header -/

/-- What stands between the parentheses of a header, and what stands behind them. -/
def header? (cs : List Char) : Option (List Char × List Char) :=
  let text := cs.dropWhile (· != '(')
  (closing? parentheses text).map fun stop =>
    (trim ((text.take stop).drop 1), trim (text.drop (stop + 1)))

/-- A body at the front of a text, in braces or of one statement, and what stands behind it. -/
def bodyAndRest (cs : List Char) : List Char × List Char :=
  match cs with
  | '{' :: inside =>
      match closing? braces cs with
      | none => (inside, [])
      | some stop => ((cs.take stop).drop 1, trim (cs.drop (stop + 1)))
  | _ =>
      match statements cs with
      | [] => ([], [])
      | first :: rest => (first, joinWith [' '] rest)

/-- The inputs of the arms of a choice from a number on, or nothing if a header is not closed.
Each arm takes characters, which bounds them. -/
def arms? (r : Reader) : (fuel : Nat) → (number : Nat) → List Char → Option (List Input)
  | 0, _, _ => none
  | fuel + 1, number, cs => do
      let (condition, rest) ← header? cs
      let (body, behind) := bodyAndRest rest
      let arm := [
        Input.value ("IF" ++ Number.decimal number) (r.condition condition),
        Input.chain ("DO" ++ Number.decimal number) (r.block body)]
      if !startsWithWord "else" behind then
        return arm
      else
        let alternative := trim (behind.drop 4)
        if startsHeader "if" alternative then
          return arm ++ (← arms? r fuel (number + 1) alternative)
        else
          return arm ++ [.chain "ELSE" (r.block (bodyAndRest alternative).1)]

def choice (r : Reader) (cs : List Char) : Block :=
  match arms? r (cs.length + 1) 0 cs with
  | some inputs => .mk "controls_if" [] inputs
  | none => rawStatement cs

/-- A counted loop from its header and its statements. -/
def countedLoop (header : List Char) (body : List Block) : Block :=
  match repetition? header with
  | some bound =>
      .mk "controls_repeat_ext" []
        [.value "TIMES" (numberIn (some bound) "10" .natural), .chain "DO" body]
  | none =>
      let raw : Block :=
        .ofTexts "arduino_raw_block" [("CODE", "for (" ++ String.ofList header ++ ")")]
          [.chain "STATEMENTS" body]
      match (cut (· == ';') header).map trim with
      | [start, bound, step] =>
          match loopStart? start with
          | none => raw
          | some (name, value) =>
              .ofTexts "controls_for" [("VAR", nameIn name "i")] [
                .value "FROM" (numberIn (some value) "1" .none),
                .value "TO" (numberIn (loopBound? bound) "10" .none),
                .value "BY" (numberIn (loopStep? step) "1" .none),
                .chain "DO" body]
      | _ => raw

/-- A statement of any kind; an empty one has no block. -/
def chunk? (r : Reader) (cs : List Char) : Option Block :=
  if startsHeader "if" cs then
    some (choice r cs)
  else if startsHeader "for" cs then
    match header? cs with
    | some (header, rest) => some (countedLoop header (r.block (bodyAndRest rest).1))
    | none => some (rawStatement cs)
  else if startsHeader "while" cs then
    match header? cs with
    | some (condition, rest) =>
        some (.ofTexts "controls_whileUntil" [("MODE", "WHILE")]
          [.value "BOOL" (r.condition condition), .chain "DO" (r.block (bodyAndRest rest).1)])
    | none => some (rawStatement cs)
  else
    statement? r cs

/-! ## Nesting -/

def rawReader : Reader where
  block := fun cs =>
    match clean cs with
    | [] => []
    | text => [rawStatement text]
  condition := fun cs => rawExpression (trim cs)
  value := fun cs => rawExpression (trim cs)

/-- Read one level, and what is inside by another reader. -/
def Reader.around (inner : Reader) : Reader where
  block := fun cs => (statements (clean cs)).filterMap (chunk? inner)
  condition := fun cs => matchCondition inner (trim cs)
  value := fun cs => matchValue inner.value (trim cs)

def reader : (levels : Nat) → Reader
  | 0 => rawReader
  | levels + 1 => (reader levels).around

def maxLevels : Nat := 64

def sketchReader : Reader :=
  reader maxLevels

/-- The statements of a function of a sketch; none if the function is not there. -/
def functionBlocks (name : String) (cs : List Char) : List Block :=
  match functionBody? name.toList cs with
  | some body => sketchReader.block body
  | none => []

/-- A sketch as a workspace; declarations are not read. -/
def workspace (code : String) : Workspace where
  setup := functionBlocks "setup" code.toList
  loop := functionBlocks "loop" code.toList

end Skim

end InoBlocks
