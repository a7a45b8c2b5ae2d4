import InoBlocks.Location
import InoBlocks.Text.Display

/-!
# Diagnostics

What the stages report about a sketch without giving up: findings with a severity, a place if
there is one, and the stage that made them.
-/

namespace InoBlocks

/-- How much a finding matters. -/
inductive Severity where
  | error
  | warning
  | info
  deriving DecidableEq, Repr

def Severity.word : Severity → String
  | .error => "error"
  | .warning => "warning"
  | .info => "info"

/-- One finding. -/
structure Diagnostic where
  severity : Severity
  message : String
  location : Option Location
  stage : String
  deriving DecidableEq, Repr

namespace Diagnostic

def isError (d : Diagnostic) : Bool :=
  d.severity == .error

def isWarning (d : Diagnostic) : Bool :=
  d.severity == .warning

def text (d : Diagnostic) : String :=
  match d.location with
  | some place => place.text ++ ": " ++ d.severity.word ++ ": " ++ d.message
  | none => d.severity.word ++ ": " ++ d.message

def counted (n : Nat) (one many : String) : String :=
  Number.decimal n ++ " " ++ (if n = 1 then one else many)

/-- Findings one a line, and a last line that counts errors and warnings. -/
def report (ds : List Diagnostic) : String :=
  let total :=
    counted (ds.countP isError) "error" "errors" ++ ", " ++
      counted (ds.countP isWarning) "warning" "warnings"
  Text.joinLines (ds.map text ++ [total])

end Diagnostic

/-- The findings of one stage, in the order in which they were made. -/
structure Findings where
  stage : String
  diagnostics : List Diagnostic
  deriving DecidableEq, Repr

namespace Findings

def empty (stage : String) : Findings := ⟨stage, []⟩

def record (f : Findings) (severity : Severity) (message : String)
    (location : Option Location) : Findings :=
  { f with diagnostics := f.diagnostics ++ [⟨severity, message, location, f.stage⟩] }

def clear (f : Findings) : Findings :=
  { f with diagnostics := [] }

def hasErrors (f : Findings) : Bool :=
  f.diagnostics.any Diagnostic.isError

end Findings

end InoBlocks
