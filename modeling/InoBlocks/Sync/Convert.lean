import InoBlocks.Code.Descent
import InoBlocks.Exchange.Workspace
import InoBlocks.Sketch.Calls
import InoBlocks.Skim.Reader
import InoBlocks.Sync.Options
import InoBlocks.Sync.Similarity

/-!
# Between sketches and blocks

The two directions of conversion, the way there and back, and two comparisons: of two sketches
by their trees, and of the two readers of sketches with each other.  Each is given once as it is and
once for the room there is for calls.
-/

namespace InoBlocks

namespace Sync

def readSketch (o : Options) (code : String) : Parsed :=
  Grammar.parse code o.file o.recoveryLimit.toNat

/-! ## From sketch to blocks -/

/-- The blocks of a sketch, with what there is to say about it. -/
structure ToBlocks where
  /-- Why there are no blocks. -/
  error : Option String := none
  workspace : Workspace := {}
  exchange : String := ""
  /-- The errors that reading recovered from. -/
  parseErrors : List String := []
  warnings : List String := []
  diagnostics : List Diagnostic := []

def ToBlocks.success (r : ToBlocks) : Bool :=
  r.error.isNone

def emptySketch : ToBlocks where
  exchange := Exchange.encode {}
  warnings := ["created empty Arduino structure"]

/-- The blocks of a sketch that is skimmed, if skimming is asked for and finds any. -/
def skimmed? (o : Options) (code : String) (w : Workspace) : Option Workspace :=
  if o.fallback && w.setup.isEmpty && w.loop.isEmpty then
    let found := Skim.workspace code
    if found.setup.isEmpty && found.loop.isEmpty then none else some found
  else
    none

/-- The warnings about functions that a sketch lacks. -/
def missingFunctions (p : Program) : List String :=
  (["setup", "loop"].filter fun name => (p.function? name).isNone).map fun name =>
    "no " ++ name ++ "() function found"

def toBlocks (o : Options) (code : String) : Blocks.Convert ToBlocks :=
  if Text.isAllBlank code.toList then
    .ok emptySketch
  else do
    let parsed := readSketch o code
    let converted ← Blocks.ofProgram parsed.program
    let diagnostics := parsed.diagnostics ++ converted.findings.diagnostics
    let skimmed? := skimmed? o code converted.workspace
    let workspace := skimmed?.getD converted.workspace
    let warnings := (diagnostics.filter Diagnostic.isWarning).map (·.message) ++
      skimmed?.toList.map fun _ => "used heuristic parser: grammar parser produced no blocks"
    let parseErrors := (parsed.diagnostics.filter Diagnostic.isError).map Diagnostic.text
    if parsed.program.body.isEmpty && workspace.isEmpty then
      return {
        error := some "unable to parse code"
        parseErrors := parseErrors
        warnings := warnings
        diagnostics := diagnostics }
    else
      return {
        workspace := workspace
        exchange := Exchange.encode workspace
        parseErrors := parseErrors
        warnings := warnings ++ missingFunctions parsed.program
        diagnostics := diagnostics }

/-- The calls for taking the parts of a sketch to blocks. -/
def partCalls (o : Options) (code : String) : Nat :=
  if Text.isAllBlank code.toList then 0 else (readSketch o code).program.calls

/-- The blocks of a sketch, where there is room for so many calls: for its parts, and then for the
exchange text if there is one. -/
def toBlocksWithin (room : Nat) (o : Options) (code : String) :
    Except (Halt ConvertFault) ToBlocks := do
  let r ← Room.within room (partCalls o code) fun _ => toBlocks o code
  Room.within room (if r.success then Exchange.calls r.workspace else 0) fun _ => .ok r

/-! ## From blocks to sketch -/

/-- The sketch of a workspace. -/
structure ToCode where
  /-- Why there is no sketch. -/
  error : Option String := none
  code : String := ""
  validation : Option Validation := none
  diagnostics : List Diagnostic := []

def ToCode.success (r : ToCode) : Bool :=
  r.error.isNone

/-- What the generation of code gives: a block of an impossible shape is told as a text, and a
sketch that cannot be checked gives nothing. -/
def ToCode.ofGenerated : Except Code.GenerateFault Code.Generated → Except Number.Overlong ToCode
  | .error (.shape fault) => .ok { error := some fault.text }
  | .error (.overlong o) => .error o
  | .ok g => .ok { code := g.code, validation := g.validation, diagnostics := g.diagnostics }

def toCode (o : Options) (now : String) (w : Workspace) : Except Number.Overlong ToCode :=
  ToCode.ofGenerated (w.generate (o.style now))

def exchangeToCode (o : Options) (now : String) (exchange : String) :
    Except Number.Overlong ToCode :=
  match Exchange.decode exchange with
  | .error fault => .ok { error := some fault.toFault.text }
  | .ok w => toCode o now w

def toCodeWithin (room : Nat) (o : Options) (now : String) (w : Workspace) :
    Except (Halt Number.Overlong) ToCode :=
  Room.within room (Code.descent w.roots).calls fun _ => toCode o now w

def exchangeToCodeWithin (room : Nat) (o : Options) (now : String) (exchange : String) :
    Except (Halt Number.Overlong) ToCode :=
  match Exchange.decodeWithin room exchange with
  | .error .bottomless => .error .bottomless
  | .error (.fault fault) => .ok { error := some fault.toFault.text }
  | .ok w => toCodeWithin room o now w

/-! ## There and back -/

/-- Why a sketch does not come back. -/
inductive RoundTripFault where
  | convert (fault : ConvertFault)
  | generate (fault : Code.GenerateFault)
  deriving DecidableEq, Repr

def roundTrip (o : Options) (now : String) (code : String) : Except RoundTripFault String := do
  let converted ← (Blocks.ofProgram (readSketch o code).program).mapError .convert
  let generated ← (converted.workspace.generate (o.style now)).mapError .generate
  return generated.code

def roundTripWithin (room : Nat) (o : Options) (now : String) (code : String) :
    Except (Halt RoundTripFault) String := do
  let converted ←
    (Blocks.ofProgramWithin room (readSketch o code).program).mapError (.map .convert)
  let generated ←
    (converted.workspace.generateWithin room (o.style now)).mapError (.map .generate)
  return generated.code

/-! ## Comparing sketches -/

/-- How two sketches differ. -/
structure Comparison where
  similarity : Binary64
  issues : List String
  recommendations : List String

/-- Whether nothing speaks against taking two sketches for the same. -/
def Comparison.isEquivalent (c : Comparison) : Bool :=
  c.issues.isEmpty

def outlineLines (p : Program) : List (List Char) :=
  Text.lines (p.outline Program.outlineIndent).toList

def threshold : Nat := 80

/-- An issue that is there or not, with what it recommends. -/
def issueWhen (present : Bool) (issue recommendation : String) : List (String × String) :=
  if present then [(issue, recommendation)] else []

/-- Compare two sketches by their outlines and by the number of their functions. -/
def compare (o : Options) (first second : String) : Comparison :=
  let p := (readSketch o first).program
  let q := (readSketch o second).program
  let similarity := Similarity.percent (outlineLines p) (outlineLines q)
  let found :=
    issueWhen (similarity.ltDyadic threshold 0)
      ("structural similarity " ++ similarity.toOnePlace ++ "% is below " ++
        Number.decimal threshold ++ "%")
      "check statements that were kept as raw code blocks" ++
    issueWhen (p.functions.length != q.functions.length)
      ("function count differs: " ++ Number.decimal p.functions.length ++ " vs " ++
        Number.decimal q.functions.length)
      "functions other than setup() and loop() are not represented as blocks"
  ⟨similarity, found.map Prod.fst, found.map Prod.snd⟩

def compareWithin {ε : Type} (room : Nat) (o : Options) (first second : String) :
    Except (Halt ε) Comparison :=
  let p := (readSketch o first).program
  let q := (readSketch o second).program
  Room.within room (max p.outlineCalls q.outlineCalls) fun _ => .ok (compare o first second)

/-! ## Comparing readers -/

/-- The messages about one place in a region where two readers may differ. -/
def divergence (region : String) (index : Nat) (left right : String) : List String :=
  if left == right then []
  else
    [region ++ "[" ++ Number.decimal index ++ "]: grammar parser gives '" ++ left ++
      "', heuristic parser gives '" ++ right ++ "'"]

/-- The messages about a region from an index on; what is missing on one side counts as
`none`. -/
def divergencesFrom (region : String) (index : Nat) : List String → List String → List String
  | [], [] => []
  | l :: ls, [] => divergence region index l "none" ++ divergencesFrom region (index + 1) ls []
  | [], r :: rs => divergence region index "none" r ++ divergencesFrom region (index + 1) [] rs
  | l :: ls, r :: rs => divergence region index l r ++ divergencesFrom region (index + 1) ls rs

def divergences (region : String) (first second : List Block) : List String :=
  divergencesFrom region 0 (first.map Block.type) (second.map Block.type)

/-- Where the two readers find different blocks in a sketch. -/
def differences (o : Options) (code : String) : Blocks.Convert (List Diagnostic) := do
  let grammar := (← Blocks.ofProgram (readSketch o code).program).workspace
  let skimmed := Skim.workspace code
  let messages := divergences "setup" grammar.setup skimmed.setup ++
    divergences "loop" grammar.loop skimmed.loop
  return messages.map fun message => ⟨.info, message, none, "differential"⟩

def differencesWithin (room : Nat) (o : Options) (code : String) :
    Except (Halt ConvertFault) (List Diagnostic) :=
  Room.within room (readSketch o code).program.calls fun _ => differences o code

end Sync

end InoBlocks
