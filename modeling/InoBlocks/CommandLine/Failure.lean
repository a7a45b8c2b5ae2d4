import InoBlocks.Fault
import InoBlocks.Text.Display
import InoBlocks.Text.Utf8

/-!
# Failures of a run

Why a run of the tool ends without a result, what it says then, and the code it exits with.
-/

namespace InoBlocks

namespace CommandLine

/-- How a run ends. -/
inductive Exit where
  /-- There is a result. -/
  | success
  /-- The input cannot be converted, or it has errors. -/
  | unconvertible
  /-- The arguments are wrong, or a file cannot be read or written. -/
  | badInput
  /-- Something went wrong that nothing accounts for. -/
  | internal
  deriving DecidableEq, Repr

def Exit.code : Exit → Nat
  | success => 0
  | unconvertible => 1
  | badInput => 2
  | internal => 3

/-- Why a run ends without a result. -/
inductive Failure where
  /-- A stage gave up. -/
  | stage (fault : Fault)
  /-- The tool chain gave up, and no stage says more. -/
  | toolChain (message : String)
  /-- The input nests deeper than it can be followed. -/
  | bottomless
  /-- The input is not text. -/
  | notText (fault : Text.Utf8Fault)
  /-- A value or a file is refused. -/
  | refused (message : String)
  /-- Anything else. -/
  | unexpected (message : String)
  deriving DecidableEq, Repr

namespace Failure

/-- How a message begins, given the activity that failed. -/
def opening (activity : Option String) : String :=
  match nonempty? activity with
  | some name => name ++ " error: "
  | none => "Error: "

def placeOfBlock (blockType : Option String) : String :=
  match nonempty? blockType with
  | some name => " in block '" ++ name ++ "'"
  | none => ""

def byteText (b : UInt8) : String :=
  "0x" ++ String.ofList (Text.hexDigits 2 b.toNat)

def message (activity : Option String) : Failure → String
  | stage fault =>
      match fault.cause with
      | .exchange m => opening activity ++ m
      | .blockStructure m blockType =>
          opening activity ++ "malformed block program" ++ placeOfBlock blockType ++ ": " ++ m
      | _ => fault.text
  | toolChain m => opening activity ++ m
  | bottomless => opening activity ++ "input is nested too deeply to convert"
  | notText fault =>
      "Error: input is not UTF-8 text (byte " ++ byteText fault.byte ++ " at offset " ++
        Number.decimal fault.offset ++ ")"
  | refused m => "Error: " ++ m
  | unexpected m => "Internal error: " ++ m

def exit : Failure → Exit
  | stage _ | toolChain _ | bottomless => .unconvertible
  | notText _ | refused _ => .badInput
  | unexpected _ => .internal

/-- The text of a failure that the tool chain itself accounts for. -/
def text? : Failure → Option String
  | stage fault => some fault.text
  | toolChain m => some m
  | _ => none

def cause? : Failure → Option Cause
  | stage fault => some fault.cause
  | _ => none

end Failure

end CommandLine

end InoBlocks
