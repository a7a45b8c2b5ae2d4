import InoBlocks.Code.Statement
import InoBlocks.Sketch.Check

/-!
# Blocks as code

A sketch from the top blocks of a program.  Declarations come first, then functions, then
`setup` and `loop`; variables that are assigned and never declared become integers.
-/

namespace InoBlocks

namespace Code

/-- How a sketch is laid out. -/
structure Style where
  /-- One level of indentation. -/
  indent : String := "  "
  /-- Whether a comment at the top says where the sketch comes from. -/
  header : Bool := true
  /-- The time that is given in that comment. -/
  time : Option String := none
  /-- Whether the sketch is checked. -/
  check : Bool := false

/-- A sketch, and what generating it left behind. -/
structure Generated where
  code : String
  includes : List String
  globals : List String
  functions : List String
  diagnostics : List Diagnostic
  validation : Option Validation

/-- One of the two functions of a sketch: the type of its top block, the input that holds its
statements, and its name. -/
structure Section where
  type : String
  input : String
  name : String

namespace Section

def setup : Section := ⟨Workspace.setupType, Workspace.setupInput, "setup"⟩

def loop : Section := ⟨Workspace.loopType, Workspace.loopInput, "loop"⟩

end Section

def Style.top (style : Style) : Place := ⟨style.indent, 0, 0⟩

def addTop (style : Style) (b : Block) : Gen Unit := do
  if b.type == Section.setup.type || b.type == Section.loop.type then
    return
  else if b.type == "variables_declare" || b.type == "variables_define" then
    let text ← (part b).statement style.top
    modify fun c => c.addVariable text
  else if b.type == "arduino_raw_statement" || b.type == "arduino_raw_block" then
    let text ← (part b).statement style.top
    modify fun c => c.addFunction text
  else
    modify fun c =>
      c.warn ("top-level block '" ++ b.type ++ "' outside setup/loop ignored")

/-- The statements of one of the two functions, or a comment in their place. -/
def sectionBody (style : Style) (roots : List Block) (s : Section) : Gen String := do
  let inside := style.top.deeper
  match roots.find? fun b => b.type == s.type with
  | none => return Statement.line inside ("// add an " ++ s.type ++ " block")
  | some root =>
      let body ← Shape.statements inside (parts (root.chain s.input))
      return if body == "" then Statement.line inside ("// " ++ s.name ++ " code") else body

/-! ## Putting a sketch together -/

def headerLines (style : Style) : List String :=
  ["// Arduino sketch", "// Generated by sketchblocks"] ++
    style.time.toList.map ("// Generated at: " ++ ·)

/-- A run of blanks with more than one empty line in it, cut down to one; what stands before the
first line feed and behind the last one stays. -/
def squeezeRun (run : List Char) : List Char :=
  if 3 ≤ run.count '\n' then
    run.takeWhile (· != '\n') ++ ['\n', '\n'] ++
      (run.reverse.takeWhile (· != '\n')).reverse
  else
    run

def squeeze (cs : List Char) : List Char :=
  (cs.splitBy fun a b => Text.isBlank a == Text.isBlank b).flatMap squeezeRun

def functionText (s : Section) (body : String) : String :=
  "void " ++ s.name ++ "() \x7b\n" ++ body ++ "\n\x7d"

/-- Items joined, as the one element of a list; no element without items. -/
def joined (separator : String) (items : List String) : List String :=
  if items.isEmpty then [] else [separator.intercalate items]

/-- A sketch from what was collected and the bodies of its two functions. -/
def assemble (style : Style) (c : Context) (setup loop : String) : String :=
  let sections :=
    (if style.header then [Text.joinLines (headerLines style)] else []) ++
      joined "\n" (c.includes.map ("#include " ++ ·)) ++
      joined "\n" c.globals ++
      joined "\n\n" c.functions ++
      [functionText .setup setup, functionText .loop loop]
  String.ofList (squeeze ("\n\n".intercalate sections).toList) ++ "\n"

def bodies (style : Style) (roots : List Block) : Gen (String × String) := do
  roots.forM (addTop style)
  let setup ← sectionBody style roots .setup
  let loop ← sectionBody style roots .loop
  return (setup, loop)

/-- Why no sketch is generated. -/
inductive GenerateFault where
  /-- A block of an impossible shape. -/
  | shape (fault : Fault)
  /-- The sketch cannot be checked, for it holds a number with too many digits. -/
  | overlong (o : Number.Overlong)
  deriving DecidableEq, Repr

/-- The outcome of the checks of a sketch, if they are asked for. -/
def Style.validation (style : Style) (code : String) :
    Except Number.Overlong (Option Validation) :=
  if style.check then (validate code "<sketch>").map some else .ok none

def generate (style : Style) (roots : List Block) : Except GenerateFault Generated := do
  let ((setup, loop), collected) ← ((bodies style roots).run {}).mapError .shape
  let c := collected.declareAssigned
  let code := assemble style c setup loop
  let validation ← (style.validation code).mapError .overlong
  return {
    code := code
    includes := c.includes
    globals := c.globals
    functions := c.functions
    diagnostics := c.findings.diagnostics
    validation := validation }

end Code

def Workspace.generate (w : Workspace) (style : Code.Style) :
    Except Code.GenerateFault Code.Generated :=
  Code.generate style w.roots

def exampleSketch : String := Text.joinLines [
    "// Arduino example sketch",
    "// Generated by sketchblocks",
    "",
    "void setup() \x7b",
    "  // LED pin as output",
    "  pinMode(13, OUTPUT);",
    "\x7d",
    "",
    "void loop() \x7b",
    "  // LED on",
    "  digitalWrite(13, HIGH);",
    "  delay(1000);",
    "",
    "  // LED off",
    "  digitalWrite(13, LOW);",
    "  delay(1000);",
    "\x7d",
    ""]

end InoBlocks
