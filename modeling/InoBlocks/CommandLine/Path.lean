import InoBlocks.Text.Trim

/-!
# Paths

A path as it is shown to the user: the names in it, without the steps that lead nowhere.  What
stands at a path is looked up by its steps as they are written, because a step that leads nowhere
still asks for a folder.
-/

namespace InoBlocks

namespace CommandLine

/-- A path, from a root or from the folder in which the tool runs. -/
structure Path where
  /-- The slashes in front, none for a path from here. -/
  root : String
  names : List String
  deriving DecidableEq, Repr

namespace Path

def steps (written : String) : List String :=
  (Text.cut (· == '/') written.toList).map String.ofList

def isIdle (step : String) : Bool :=
  step == "" || step == "."

/-- The root of a path as it is written.  Exactly two slashes are a root of their own. -/
def rootOf : List Char → String
  | '/' :: '/' :: '/' :: _ => "/"
  | '/' :: '/' :: _ => "//"
  | '/' :: _ => "/"
  | _ => ""

def ofText (written : String) : Path :=
  ⟨rootOf written.toList, (steps written).filter fun step => !isIdle step⟩

/-- A path as text; the folder in which the tool runs is a dot. -/
def text (p : Path) : String :=
  if p.root == "" && p.names.isEmpty then "." else p.root ++ "/".intercalate p.names

def plain (written : String) : String :=
  (ofText written).text

end Path

end CommandLine

end InoBlocks
