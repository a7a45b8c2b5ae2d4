/-!
# Arguments

What the words of a command line ask for.  Options stand in front of the command or, the ones of
a command, anywhere behind it; a lone `--` ends them.
-/

namespace InoBlocks

namespace CommandLine

/-! ## Options -/

/-- An option of the tool or of a command. -/
structure Switch where
  short : Option Char
  long : String
  takesValue : Bool
  deriving DecidableEq, Repr

/-- An option that is given, by its long name, with its value; the value of one that takes none
is empty. -/
abbrev Given := String × String

/-- Why a command line makes no sense. -/
inductive Refusal where
  /-- It asks for something that there is not, or lacks something. -/
  | misuse
  /-- An option that takes no value has one. -/
  | unexpectedValue (option : String)
  /-- An option that takes a value ends the command line. -/
  | missingValue (option : String)
  deriving DecidableEq, Repr

/-- What is said of a refusal; of misuse, how the tool is used. -/
def Refusal.message? : Refusal → Option String
  | misuse => none
  | unexpectedValue option => some ("Option '" ++ option ++ "' does not take a value.")
  | missingValue option => some ("Option '" ++ option ++ "' requires an argument.")

/-- An option whose value is still to come, and how it is written. -/
structure Awaited where
  long : String
  written : String
  deriving DecidableEq, Repr

/-- What one word gives, and the option whose value is the word behind it. -/
structure WordReading where
  given : List Given
  awaits : Option Awaited
  deriving DecidableEq, Repr

/-- The options and the other words of a command line. -/
structure Sorted where
  given : List Given
  words : List String
  deriving DecidableEq, Repr

/-- Whether a word has the look of an option.  A lone dash does not. -/
def isOptionWord (word : String) : Bool :=
  match word.toList with
  | '-' :: _ :: _ => true
  | _ => false

/-- A word as far as its first equals sign, and what is behind that. -/
def atEquals : List Char → List Char × Option (List Char)
  | [] => ([], none)
  | '=' :: value => ([], some value)
  | c :: cs => ((c :: (atEquals cs).1), (atEquals cs).2)

/-- The options in the letters behind a dash.  The first one that takes a value takes the letters
behind it, if there are any. -/
def readLetters (table : List Switch) : List Char → Except Refusal WordReading
  | [] => .ok ⟨[], none⟩
  | c :: cs =>
      match table.find? fun s => s.short == some c with
      | none => .error .misuse
      | some s =>
          if s.takesValue then
            .ok (if cs.isEmpty then ⟨[], some ⟨s.long, String.ofList ['-', c]⟩⟩
              else ⟨[(s.long, String.ofList cs)], none⟩)
          else
            (readLetters table cs).map fun r => { r with given := (s.long, "") :: r.given }

/-- The options in a word, if they are there and take the value that the word holds. -/
def readWord (table : List Switch) (word : String) : Except Refusal WordReading :=
  let (name, value?) := atEquals word.toList
  match table.find? fun s => s.long == String.ofList name with
  | some s =>
      match s.takesValue, value? with
      | true, some value => .ok ⟨[(s.long, String.ofList value)], none⟩
      | true, none => .ok ⟨[], some ⟨s.long, s.long⟩⟩
      | false, some _ => .error (.unexpectedValue s.long)
      | false, none => .ok ⟨[(s.long, "")], none⟩
  | none =>
      match word.toList with
      | '-' :: '-' :: _ => .error .misuse
      | _ => readLetters table (word.toList.drop 1)

/-- Sort words into options and others.  Unless options may stand among the words, the first
other word ends them. -/
def sort (table : List Switch) (among : Bool) : List String → Except Refusal Sorted
  | [] => .ok ⟨[], []⟩
  | word :: rest =>
      if word == "--" then
        .ok ⟨[], rest⟩
      else if isOptionWord word then
        (readWord table word).bind fun reading =>
          match reading.awaits, rest with
          | none, rest =>
              (sort table among rest).map fun s => { s with given := reading.given ++ s.given }
          | some option, value :: rest =>
              (sort table among rest).map fun s =>
                { s with given := reading.given ++ (option.long, value) :: s.given }
          | some option, [] => .error (.missingValue option.written)
      else if among then
        (sort table among rest).map fun s => { s with words := word :: s.words }
      else
        .ok ⟨[], word :: rest⟩

namespace Sorted

def has (s : Sorted) (long : String) : Bool :=
  s.given.any fun g => g.1 == long

/-- The value of an option, the last one if there are several. -/
def value? (s : Sorted) (long : String) : Option String :=
  (s.given.reverse.find? fun g => g.1 == long).map Prod.snd

end Sorted

/-! ## Commands -/

/-- What the blocks of a sketch are shown as. -/
inductive BlocksView where
  | tokens
  | outline
  | skimmed
  | exchange
  deriving DecidableEq, Repr

/-- What the tool is to do with its input. -/
inductive Task where
  | blocks (view : BlocksView) (output : Option String)
  | code (timestamp : Bool) (output : Option String)
  | check
  | differences
  | roundTrip
  deriving DecidableEq, Repr

/-- Where a task writes, if not to the standard output. -/
def Task.output? : Task → Option String
  | blocks _ output => output
  | code _ output => output
  | check | differences | roundTrip => none

/-- A task with its input. -/
structure Invocation where
  verbose : Bool
  input : String
  task : Task
  deriving DecidableEq, Repr

/-- What a command line asks for. -/
inductive Request where
  | version
  | help
  | run (invocation : Invocation)
  deriving DecidableEq, Repr

/-- A command: its name, its options, and the task that given options make of it. -/
structure Command where
  name : String
  switches : List Switch
  task : Sorted → Task

def helpSwitch : Switch := ⟨none, "--help", false⟩

def toolSwitches : List Switch :=
  [⟨some 'v', "--verbose", false⟩, ⟨none, "--version", false⟩, helpSwitch]

def outputSwitch : Switch := ⟨some 'o', "--output", true⟩

def blocksView (s : Sorted) : BlocksView :=
  if s.has "--tokens" then .tokens
  else if s.has "--ast" then .outline
  else if s.has "--heuristic" then .skimmed
  else .exchange

def commands : List Command := [
  { name := "blocks"
    switches := [outputSwitch, ⟨none, "--heuristic", false⟩, ⟨none, "--ast", false⟩,
      ⟨none, "--tokens", false⟩, helpSwitch]
    task := fun s => .blocks (blocksView s) (s.value? "--output") },
  { name := "code"
    switches := [outputSwitch, ⟨none, "--no-timestamp", false⟩, helpSwitch]
    task := fun s => .code (!s.has "--no-timestamp") (s.value? "--output") },
  { name := "check", switches := [helpSwitch], task := fun _ => .check },
  { name := "diff", switches := [helpSwitch], task := fun _ => .differences },
  { name := "roundtrip", switches := [helpSwitch], task := fun _ => .roundTrip }]

/-- A request that comes before all others: the first one of those that are given. -/
def Sorted.urgent? (s : Sorted) : Option Request :=
  s.given.findSome? fun g =>
    if g.1 == "--version" then some .version
    else if g.1 == "--help" then some .help
    else none

def Command.request (c : Command) (verbose : Bool) (words : List String) :
    Except Refusal Request := do
  let s ← sort c.switches true words
  match s.urgent?, s.words with
  | some request, _ => return request
  | none, [input] => return .run ⟨verbose, input, c.task s⟩
  | none, _ => throw .misuse

namespace Request

/-- What the first word that is no option of the tool asks for, with the words behind it.  Behind
`--` it may name no command and still be an option that comes before all else. -/
def ofWords (verbose : Bool) : List String → Except Refusal Request
  | [] => .error .misuse
  | word :: rest =>
      match commands.find? fun c => c.name == word with
      | some c => c.request verbose rest
      | none => do
          match (← sort toolSwitches false (word :: rest)).urgent? with
          | some request => return request
          | none => throw .misuse

/-- What the words of a command line ask for, if they make sense. -/
def ofArguments (arguments : List String) : Except Refusal Request := do
  let s ← sort toolSwitches false arguments
  match s.urgent? with
  | some request => return request
  | none => ofWords (s.has "--verbose") s.words

end Request

/-! ## Texts -/

def versionText : String :=
  "sbconv, version 1.0.0\n"

def usageText : String :=
  "Usage: sbconv [-v] [--version] [--help] COMMAND INPUT_FILE\n" ++
  "\n" ++
  "Convert Arduino sketches to visual blocks and back.\n" ++
  "\n" ++
  "Commands:\n" ++
  "  blocks     Convert a sketch to block XML\n" ++
  "             [-o FILE] [--heuristic] [--ast] [--tokens]\n" ++
  "  code       Generate a sketch from block XML\n" ++
  "             [-o FILE] [--no-timestamp]\n" ++
  "  check      Validate a sketch\n" ++
  "  diff       Compare the grammar parser with the heuristic parser\n" ++
  "  roundtrip  Regenerate a sketch through blocks\n"

end CommandLine

end InoBlocks
