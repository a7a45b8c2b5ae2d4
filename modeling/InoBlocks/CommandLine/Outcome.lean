import InoBlocks.CommandLine.Arguments
import InoBlocks.CommandLine.Failure
import InoBlocks.CommandLine.Folder
import InoBlocks.CommandLine.Shown
import InoBlocks.Sync.Convert

/-!
# Outcomes

What a run of the tool leaves: what it prints and says, what it writes, and how it ends.  An
outcome depends on the invocation and on the surroundings alone.
-/

namespace InoBlocks

def Token.listed (t : Token) : String :=
  "Token(" ++ t.kind.name ++ ", " ++ Text.quoted t.text ++ ", " ++
    Number.signedDecimal t.location.line ++ ":" ++ Number.signedDecimal t.location.column ++ ")"

namespace CommandLine

/-- What a run finds around it. -/
structure Surroundings where
  /-- What stands at a path. -/
  look : String → Entry
  /-- The settings in the environment. -/
  setting? : String → Option String
  /-- The time. -/
  now : String
  /-- How many calls there is room for where a task begins. -/
  room : Nat

/-- The room that a limit of a thousand calls leaves once the tool is under way. -/
def usualRoom : Nat := 980

/-- What a run leaves. -/
structure Outcome where
  exit : Exit := .success
  /-- The text on the standard output. -/
  printed : String := ""
  /-- The text on the standard error output. -/
  said : String := ""
  /-- The path and the text of what is written. -/
  written : Option (String × String) := none
  deriving DecidableEq, Repr

namespace Outcome

def asLines (lines : List String) : String :=
  String.join (lines.map (· ++ "\n"))

def print (lines : List String) : Outcome where
  printed := asLines lines

def say (lines : List String) : Outcome where
  said := asLines lines

def stop (exit : Exit) (complaint : String) : Outcome where
  exit := exit
  said := asLines [complaint]

def fail (activity : Option String) (f : Failure) : Outcome :=
  stop f.exit (f.message activity)

/-- An outcome as it is shown; what is written stays as it is. -/
def onScreen (o : Outcome) : Outcome :=
  { o with printed := shown o.printed, said := shown o.said }

/-- One outcome behind another, which decides how the run ends. -/
def andThen (first second : Outcome) : Outcome where
  exit := second.exit
  printed := first.printed ++ second.printed
  said := first.said ++ second.said
  written := second.written <|> first.written

end Outcome

/-! ## Files -/

def readText (bytes : List UInt8) : Except Failure String :=
  (Text.decodeUtf8 bytes).map (fun s => String.ofList (Text.unifyLineEnds s.toList))
    |>.mapError Failure.notText

def endingLine (text : String) : String :=
  if text.toList.getLast? == some '\n' then text else text ++ "\n"

/-- Write a text to a path, or print it where there is none. -/
def deliver (s : Surroundings) (output : Option String) (text : String) :
    Except Failure Outcome :=
  match output with
  | none => .ok { printed := endingLine text }
  | some path =>
      let path := Path.plain path
      match (s.look path).refusal? with
      | some refusal => .error (.refused (refusal ++ ": " ++ Text.quoted path))
      | none => .ok { said := Outcome.asLines ["Wrote " ++ path], written := some (path, text) }

/-! ## Failures of the stages -/

def Failure.ofConvert : ConvertFault → Failure
  | .unconvertible fault => .stage fault
  | .source (.unknownAssignment operator) => .unexpected (Text.quoted operator)
  | .source .blankOperator => .unexpected "string index out of range"

/-- A sketch with a number that has too many digits. -/
def Failure.ofOverlong (o : Number.Overlong) : Failure :=
  .refused o.message

def Failure.ofRoundTrip : Sync.RoundTripFault → Failure
  | .convert fault => .ofConvert fault
  | .generate (.shape fault) => .stage fault
  | .generate (.overlong o) => .ofOverlong o

def Failure.ofHalt {ε : Type} (ofFault : ε → Failure) : Halt ε → Failure
  | .fault e => ofFault e
  | .bottomless => .bottomless

def Outcome.orFail (activity : Option String) : Except Failure Outcome → Outcome
  | .ok o => o
  | .error f => .fail activity f

/-! ## Tasks -/

def optionsFor (s : Surroundings) (file : String) : Options :=
  { Options.ofEnvironment fun name => nonempty? (s.setting? name) with file := file }

def convertOutcome (s : Surroundings) (verbose : Bool) (o : Options) (source : String)
    (output : Option String) : Outcome :=
  match Sync.toBlocksWithin s.room o source with
  | .error halt => .fail (some "Conversion") (.ofHalt .ofConvert halt)
  | .ok r =>
      let remarks := Outcome.say (r.parseErrors ++ r.warnings.map ("warning: " ++ ·))
      remarks.andThen <|
        match r.error with
        | some reason => .stop .unconvertible ("Error: " ++ reason)
        | none =>
            let count := "Converted " ++ o.file ++ ": " ++
              Number.decimal r.workspace.blockCount ++ " blocks"
            .orFail (some "Conversion") <| (deliver s output r.exchange).map fun delivered =>
              if verbose then delivered.andThen (.say [count]) else delivered

def blocksOutcome (s : Surroundings) (verbose : Bool) (o : Options) (source : String)
    (view : BlocksView) (output : Option String) : Outcome :=
  match view with
  | .tokens => .print ((Token.significant source o.file).map Token.listed)
  | .outline =>
      let p := (Sync.readSketch o source).program
      if p.outlineCalls ≤ s.room then .print [p.outline Program.outlineIndent]
      else .fail (some "Conversion") .bottomless
  | .skimmed =>
      .orFail (some "Conversion") do
        let exchange ←
          (Exchange.encodeWithin s.room (Skim.workspace source)).mapError (.ofHalt Failure.stage)
        deliver s output exchange
  | .exchange => convertOutcome s verbose o source output

/-- The outcome of generating a sketch from exchange text. -/
def codeOutcome (s : Surroundings) (o : Options) (exchange : String) (output : Option String) :
    Outcome :=
  match Sync.exchangeToCodeWithin s.room o s.now exchange with
  | .error halt => .fail (some "Generation") (.ofHalt .ofOverlong halt)
  | .ok r =>
      match r.error with
      | some reason => .stop .unconvertible reason
      | none =>
          let remarks := r.diagnostics ++ (r.validation.map Validation.diagnostics).getD []
          (Outcome.say (remarks.map Diagnostic.text)).andThen
            (.orFail (some "Generation") (deliver s output r.code))

def checkOutcome (file source : String) : Outcome :=
  match validate source file with
  | .error overlong => .fail none (.ofOverlong overlong)
  | .ok v =>
      { Outcome.print [Diagnostic.report v.diagnostics] with
        exit := if v.isValid then .success else .unconvertible }

/-- The outcome of comparing the two readers on a sketch. -/
def differencesOutcome (s : Surroundings) (o : Options) (source : String) : Outcome :=
  match Sync.differencesWithin s.room o source with
  | .error halt => .fail none (.ofHalt .ofConvert halt)
  | .ok [] => .print ["No differences between parsers"]
  | .ok found =>
      .print (found.map Diagnostic.text ++ [Number.decimal found.length ++ " differences"])

/-- The outcome of taking a sketch to blocks and back. -/
def roundTripOutcome (s : Surroundings) (o : Options) (source : String) : Outcome :=
  let o := { o with header := false, check := false }
  match Sync.roundTripWithin s.room o s.now source with
  | .error halt => .fail none (.ofHalt .ofRoundTrip halt)
  | .ok code =>
      Outcome.andThen { printed := code } <|
        if Skim.sameWords source.toList code.toList then
          .say ["Round trip: equal"]
        else
          match Sync.compareWithin s.room o source code with
          | .error halt => .fail none (.ofHalt Failure.stage halt)
          | .ok c =>
              .say (("Round trip: differs (similarity " ++ c.similarity.toOnePlace ++ "%)") ::
                c.issues.map ("  " ++ ·))

def Task.activity : Task → Option String
  | .blocks .. => some "Conversion"
  | .code .. => some "Generation"
  | .check | .differences | .roundTrip => none

namespace Invocation

def outcomeOn (i : Invocation) (s : Surroundings) (text : String) : Outcome :=
  let o := optionsFor s (Path.plain i.input)
  match i.task with
  | .blocks view output => blocksOutcome s i.verbose o text view output
  | .code timestamp output =>
      codeOutcome s { o with timestamp := o.timestamp && timestamp } text output
  | .check => checkOutcome o.file text
  | .differences => differencesOutcome s o text
  | .roundTrip => roundTripOutcome s o text

/-- The outcome of an invocation, or none if the call is refused: the input must be a file, and
the output must not be a folder. -/
def outcome? (i : Invocation) (s : Surroundings) : Option Outcome :=
  match s.look i.input, i.task.output?.map s.look with
  | .file _, some .folder => none
  | .file bytes, _ => some (.orFail i.task.activity ((readText bytes).map (i.outcomeOn s)))
  | _, _ => none

def paths (i : Invocation) : List String :=
  i.input :: i.task.output?.toList.flatMap fun path => [path, Path.plain path]

end Invocation

def Request.paths : Request → List String
  | version | help => []
  | run i => i.paths

/-- The outcome of a request, or none if the call is refused. -/
def Request.outcome? (s : Surroundings) : Request → Option Outcome
  | version => some { printed := versionText }
  | help => some { printed := usageText }
  | run i => (i.outcome? s).map Outcome.onScreen

/-- The outcome of a call that is refused: what is said of the refusal, or else how the tool is
used. -/
def Refusal.outcome (r : Refusal) : Outcome where
  exit := .badInput
  said :=
    match r.message? with
    | some message => "Error: " ++ message ++ "\n"
    | none => usageText

end CommandLine

end InoBlocks
