import InoBlocks.Diagnostic
import InoBlocks.Number.Reading
import InoBlocks.Sketch.Mask
import InoBlocks.Text.Spot

/-!
# Checks of a sketch

Advice on the text of a sketch, given without reading its grammar: brackets that do not match,
missing entry points, calls with odd arguments, lines without a semicolon, names declared twice.
Only errors make a sketch invalid.  A call whose number has too many digits ends the checks.
-/

namespace InoBlocks

/-- The outcome of the checks. -/
structure Validation where
  diagnostics : List Diagnostic
  deriving DecidableEq, Repr

namespace Validation

def errors (v : Validation) : List String :=
  (v.diagnostics.filter Diagnostic.isError).map (·.message)

def warnings (v : Validation) : List String :=
  (v.diagnostics.filter Diagnostic.isWarning).map (·.message)

def isValid (v : Validation) : Bool :=
  v.errors.isEmpty

end Validation

namespace Check

open Text

def maxPin : Nat := 53

def maxAnalog : Nat := 255

/-- A sketch under check: its name, its text, and the masked form of it. -/
structure Subject where
  file : String
  code : List Char
  masked : List Char

namespace Subject

def ofString (file code : String) : Subject :=
  ⟨file, code.toList, mask code.toList⟩

def locate (s : Subject) (offset : Nat) : Location :=
  (Cursor.start.advanceAll (s.code.take offset)).toLocation s.file

end Subject

def stage : String := "validator"

def finding (severity : Severity) (message : String) : Diagnostic :=
  ⟨severity, message, none, stage⟩

def findingAt (s : Subject) (severity : Severity) (offset : Nat) (message : String) :
    Diagnostic :=
  ⟨severity, message, some (s.locate offset), stage⟩

/-! ## Brackets -/

/-- A pair of brackets and the word for several of them. -/
structure Brackets where
  opener : Char
  closer : Char
  plural : String

def brackets : List Brackets :=
  [⟨'{', '}', "braces"⟩, ⟨'(', ')', "parentheses"⟩]

/-- The offsets of closing brackets without an open one, and how many stay open. -/
def imbalance (b : Brackets) (offset depth : Nat) : List Char → List Nat × Nat
  | [] => ([], depth)
  | c :: cs =>
      if c == b.opener then
        imbalance b (offset + 1) (depth + 1) cs
      else if c == b.closer then
        match depth with
        | 0 =>
            let tail := imbalance b (offset + 1) 0 cs
            (offset :: tail.1, tail.2)
        | depth + 1 => imbalance b (offset + 1) depth cs
      else
        imbalance b (offset + 1) depth cs

def bracketFindings (s : Subject) (b : Brackets) : List Diagnostic :=
  let (unmatched, depth) := imbalance b 0 0 s.masked
  let open? :=
    if depth = 0 then []
    else
      [finding .error ("unbalanced " ++ b.plural ++ ": " ++ Number.decimal depth ++ " '" ++
        b.opener.toString ++ "' not closed")]
  unmatched.map (fun offset =>
    findingAt s .error offset ("unmatched '" ++ b.closer.toString ++ "'")) ++ open?

/-! ## Entry points -/

def entryPoints : List String := ["setup", "loop"]

/-- Behind the opening parenthesis: whether the parameters are empty or `void`. -/
def closesEmpty (cs : List Char) : Bool :=
  let inside := trimStart cs
  let inside := ((after? "void".toList inside).map trimStart).getD inside
  inside.head? == some ')'

/-- Whether the header of an entry point begins at a spot. -/
def isEntryPoint (name : String) (s : Spot) : Bool :=
  s.isWordStart && Option.isSome do
    let rest ← afterBlanks? (← after? "void".toList s.rest)
    let rest ← after? name.toList rest
    match trimStart rest with
    | '(' :: inside => if closesEmpty inside then some () else none
    | _ => none

def entryFindings (s : Subject) : List Diagnostic :=
  (entryPoints.filter fun name => !(spots s.masked).any (isEntryPoint name)).map fun name =>
    finding .error ("missing void " ++ name ++ "() function")

/-! ## Calls -/

def checkedCalls : List String := ["digitalWrite", "pinMode", "digitalRead", "analogWrite"]

/-- A call at a spot: the function, and the text behind the opening parenthesis. -/
def callAt? (s : Spot) : Option ((String × List Char) × List Char) := do
  if s.afterWord then none
  let (name, rest) ← afterAny? checkedCalls s.rest
  match trimStart rest with
  | '(' :: inside => some ((name, inside), inside)
  | _ => none

/-- The arguments of a call up to the parenthesis that closes it, if one does.  `pending` is the
argument that is read, back to front. -/
def arguments? (depth : Nat) (done : List (List Char)) (pending : List Char) :
    List Char → Option (List (List Char))
  | [] => none
  | c :: cs =>
      if c == '(' then
        arguments? (depth + 1) done (c :: pending) cs
      else if c == ')' then
        match depth with
        | 0 =>
            let last := trim pending.reverse
            some (if last.isEmpty && done.isEmpty then [] else done ++ [last])
        | depth + 1 => arguments? depth done (c :: pending) cs
      else if c == ',' && depth == 0 then
        arguments? depth (done ++ [trim pending.reverse]) [] cs
      else
        arguments? depth done (c :: pending) cs

def exceeds (bound : Nat) (cs : List Char) : Except Number.Overlong Bool :=
  if !cs.isEmpty && cs.all Char.isDigit then
    (Number.ofFewDigits (Number.digitValues cs)).map fun n => decide (bound < n)
  else
    .ok false

/-- Whether a text looks like the name of a constant. -/
def isConstantName : List Char → Bool
  | [] => false
  | c :: cs =>
      (c.isUpper || c == '_') && cs.all fun d => d.isUpper || d.isDigit || d == '_'

def digitalStates : List String := ["HIGH", "LOW", "0", "1", "true", "false"]

def pinModes : List String := ["INPUT", "OUTPUT", "INPUT_PULLUP"]

def boundAdvice (bound : Nat) (cs : List Char) (what : String) :
    Except Number.Overlong (List String) :=
  (exceeds bound cs).map fun beyond =>
    if beyond then
      [what ++ " " ++ String.ofList cs ++ " is outside 0-" ++ Number.decimal bound]
    else
      []

def pinAdvice (name : String) (arguments : List (List Char)) :
    Except Number.Overlong (List String) :=
  match arguments with
  | pin :: _ => boundAdvice maxPin pin (name ++ ": pin")
  | [] => .ok []

def valueAdvice (name : String) (arguments : List (List Char)) :
    Except Number.Overlong (List String) :=
  match name, arguments with
  | "digitalWrite", [_, state] =>
      if !digitalStates.contains (String.ofList state) && isConstantName state then
        .ok ["digitalWrite: unknown state '" ++ String.ofList state ++ "'"]
      else
        .ok []
  | "pinMode", [_, mode] =>
      if pinModes.contains (String.ofList mode) then .ok []
      else .ok ["pinMode: unknown mode '" ++ String.ofList mode ++ "'"]
  | "analogWrite", [_, value] => boundAdvice maxAnalog value "analogWrite: value"
  | _, _ => .ok []

def takesTwo (name : String) : Bool :=
  name == "digitalWrite" || name == "pinMode"

def callFindingsAt (s : Subject) (hit : Hit (String × List Char)) :
    Except Number.Overlong (List Diagnostic) :=
  let name := hit.value.1
  match arguments? 0 [] [] hit.value.2 with
  | none => .ok []
  | some arguments =>
      if takesTwo name && arguments.length != 2 then
        .ok [findingAt s .error hit.start
          (name ++ " expects 2 arguments, got " ++ Number.decimal arguments.length)]
      else do
        let advice := (← pinAdvice name arguments) ++ (← valueAdvice name arguments)
        return advice.map (findingAt s .warning hit.start)

def callFindings (s : Subject) : Except Number.Overlong (List Diagnostic) :=
  ((hits callAt? s.masked).mapM (callFindingsAt s)).map List.flatten

/-! ## Semicolons -/

def lineEnds : List String :=
  [";", "\x7b", "\x7d", ",", "(", "&&", "||", "+", "-", "*", "/", "=", ":"]

/-- The words that begin a line without a semicolon. -/
def headerWords : List String := ["if", "else", "for", "while", "do"]

def endsWith (ending : List Char) (cs : List Char) : Bool :=
  ending.isSuffixOf cs

def isHeader (line : List Char) : Bool :=
  headerWords.any fun word => ((after? word.toList line).map endsWord).getD false

/-- Whether a semicolon seems to be missing from a line without blanks at its ends. -/
def lacksSemicolon (line : List Char) : Bool :=
  !line.isEmpty && line.head? != some '#' && !line.contains '{' && !line.contains '}' &&
    !lineEnds.any (fun ending => endsWith ending.toList line) && !isHeader line

def semicolonFindings (s : Subject) : List Diagnostic :=
  let lines := (cut (· == '\n') s.masked).zipIdx 1
  (lines.filter fun line => lacksSemicolon (trim line.1)).map fun line =>
    ⟨.warning, "line " ++ Number.decimal line.2 ++ " may be missing a semicolon",
      some ⟨s.file, line.2, 1⟩, stage⟩

/-! ## Declarations -/

def declaringTypes : List String :=
  ["int", "float", "double", "boolean", "bool", "char", "String", "long", "byte"]

def afterType? (cs : List Char) : Option (List Char) :=
  declaringTypes.findSome? fun type => (after? type.toList cs).bind afterBlanks?

/-- Whether a declared name may stand in front of a text. -/
def endsDeclaration (cs : List Char) : Bool :=
  match cs with
  | c :: _ => c == '=' || c == ';' || c == ',' || c == ')'
  | [] => false

/-- The name that is declared at the front of a text, and the text behind it. -/
def declaredName? (cs : List Char) : Option (List Char × List Char) := do
  let (name, rest) ← spanName? (← afterType? cs)
  let rest := trimStart rest
  if endsDeclaration rest then some (name, rest) else none

/-- The name that is declared at a spot, and the text behind it. -/
def declarationAt? (s : Spot) : Option (List Char × List Char) := do
  if s.afterWord then none
  ((after? "unsigned".toList s.rest).bind afterBlanks? |>.bind declaredName?) <|>
    declaredName? s.rest

/-- Where a character stands: the number of its outermost braces, zero for none, and how many
parentheses are open around it. -/
structure Scope where
  block : Nat
  parentheses : Nat
  deriving DecidableEq, Repr

/-- The scopes of the characters of a text; `blocks` counts the outermost braces so far. -/
def scopesFrom (blocks braces parentheses : Nat) : List Char → List Scope
  | [] => []
  | c :: cs =>
      let blocks := if c == '{' && braces == 0 then blocks + 1 else blocks
      let braces := if c == '{' then braces + 1 else braces
      let parentheses :=
        if c == '(' then parentheses + 1 else if c == ')' then parentheses - 1 else parentheses
      ⟨if braces = 0 then 0 else blocks, parentheses⟩ ::
        scopesFrom blocks (if c == '}' then braces - 1 else braces) parentheses cs

/-- The declarations outside of parentheses: offset, scope and name. -/
def declarations (s : Subject) : List (Nat × Nat × List Char) :=
  let scopes : Array Scope := (scopesFrom 0 0 0 s.masked).toArray
  (hits declarationAt? s.masked).filterMap fun hit =>
    (scopes[hit.start]?.filter fun scope => scope.parentheses == 0).map fun scope =>
      (hit.start, scope.block, hit.value)

/-- The declarations whose name is in a list of those seen before. -/
def repeated (seen : List (Nat × List Char)) :
    List (Nat × Nat × List Char) → List (Nat × List Char)
  | [] => []
  | (offset, key) :: rest =>
      if seen.contains key then (offset, key.2) :: repeated seen rest
      else repeated (key :: seen) rest

def duplicateFindings (s : Subject) : List Diagnostic :=
  (repeated [] (declarations s)).map fun (offset, name) =>
    findingAt s .warning offset
      ("'" ++ String.ofList name ++ "' is declared more than once in the same scope")

end Check

/-- Check a sketch.  There is no outcome if a number in a call is too long to be read. -/
def validate (code : String) (file : String) : Except Number.Overlong Validation := do
  let s := Check.Subject.ofString file code
  let calls ← Check.callFindings s
  return ⟨Check.brackets.flatMap (Check.bracketFindings s) ++ Check.entryFindings s ++ calls ++
    Check.semicolonFindings s ++ Check.duplicateFindings s⟩

/-! ## Counts -/

/-- How large a sketch is. -/
structure Statistics where
  lines : Nat
  functions : Nat
  blocks : Nat
  deriving DecidableEq, Repr

namespace Check

open Text

/-- The header of a function without a result at a spot. -/
def functionAt? (s : Spot) : Option (Unit × List Char) := do
  let rest ← afterBlanks? (← after? "void".toList s.rest)
  let name := rest.takeWhile isWord
  if name.isEmpty then none
  match trimStart (rest.dropWhile isWord) with
  | '(' :: inside => some ((), inside)
  | _ => none

end Check

/-- Count the lines, functions and braces of a sketch. -/
def statistics (code : String) : Statistics where
  lines := (Text.cut (· == '\n') code.toList).length
  functions := (Text.hits Check.functionAt? code.toList).length
  blocks := code.toList.count '{'

end InoBlocks
