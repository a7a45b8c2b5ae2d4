import InoBlocks.Diagnostic

/-!
# Faults

Reasons why a stage stops.  A fault is a cause together with the place where it arose; its
wording, and the hint that goes with it, follow from the cause.
-/

namespace InoBlocks

/-- What went wrong. -/
inductive Cause where
  /-- A fault of the tool chain with no closer description. -/
  | general (message : String)
  /-- Tokens that fit no rule of the grammar. -/
  | grammar (message : String)
  /-- A token that cannot start or continue the construct that is read. -/
  | unexpectedToken (found : String) (expected : Option String)
  /-- A token that must stand here and does not. -/
  | missingToken (expected : String) (found : Option String)
  /-- Nesting beyond a limit. -/
  | nestedTooDeep (limit : Int)
  /-- A node that has no block. -/
  | conversion (message : String)
  /-- Code that cannot be generated. -/
  | generation (message : String)
  /-- A block of an impossible shape. -/
  | blockStructure (message : String) (blockType : Option String)
  /-- Exchange text that does not hold blocks. -/
  | exchange (message : String)
  deriving DecidableEq, Repr

/-- A cause and where it arose. -/
structure Fault where
  cause : Cause
  location : Option Location := none
  sourceLine : Option String := none
  advice : Option String := none
  deriving DecidableEq, Repr

def nonempty? (s : Option String) : Option String :=
  s.filter fun text => text != ""

namespace Cause

def message : Cause → String
  | general m => m
  | grammar m => m
  | unexpectedToken found _ => "unexpected token '" ++ found ++ "'"
  | missingToken expected _ => "expected " ++ expected
  | nestedTooDeep limit => "nesting deeper than " ++ Number.signedDecimal limit ++ " levels"
  | conversion m => m
  | generation m => m
  | blockStructure m _ => m
  | exchange m => m

def hint? : Cause → Option String
  | unexpectedToken _ expected => (nonempty? expected).map ("expected " ++ ·)
  | missingToken _ found => (nonempty? found).map ("found " ++ ·)
  | nestedTooDeep _ => some "split the expression or statement into smaller parts"
  | blockStructure _ blockType =>
      (nonempty? blockType).map fun name => "while generating '" ++ name ++ "'"
  | _ => none

def isGrammatical : Cause → Bool
  | grammar _ | unexpectedToken .. | missingToken .. | nestedTooDeep _ => true
  | _ => false

def isGenerative : Cause → Bool
  | generation _ | blockStructure .. => true
  | _ => false

end Cause

namespace Fault

def message (f : Fault) : String :=
  f.cause.message

def hint? (f : Fault) : Option String :=
  nonempty? (f.advice <|> f.cause.hint?)

/-- The line of the sketch at which a fault arose, with a caret under its column. -/
def excerpt (f : Fault) : List String :=
  match f.sourceLine, f.location with
  | some line, some place =>
      ("    " ++ line) ::
        (if 0 < place.column then
          [String.ofList (List.replicate (4 + place.column - 1).toNat ' ' ++ ['^'])]
        else
          [])
  | _, _ => []

/-- A fault in full: place and message, the excerpt, and the hint. -/
def text (f : Fault) : String :=
  let head :=
    match f.location with
    | some place => place.text ++ ": error: " ++ f.message
    | none => "error: " ++ f.message
  let hint := f.hint?.toList.map ("hint: " ++ ·)
  Text.joinLines (head :: f.excerpt ++ hint)

end Fault

namespace Findings

def recordFault (f : Findings) (fault : Fault) : Findings :=
  f.record .error fault.message fault.location

end Findings

end InoBlocks
