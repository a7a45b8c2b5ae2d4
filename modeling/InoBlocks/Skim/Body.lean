import InoBlocks.Pattern.Match
import InoBlocks.Pattern.Reader
import InoBlocks.Skim.Text

/-!
# Bodies of functions

The body of a function without result and parameters is what stands between its braces.  A name that
holds signs of a pattern is read as one, in the midst of the pattern for the head of a function; any
other name stands for itself.
-/

namespace InoBlocks

namespace Skim

open Text

/-! ## Functions at a place -/

/-- Whether a start lies in a text or behind it.  A negative one counts from the end. -/
def reaches (start : Int) (cs : List Char) : Bool :=
  decide (-(cs.length : Int) ≤ start)

/-- The index of the bracket that closes the first open one from a start on.  From a negative
start the end of the text is read first and then all of it. -/
def closingIndex? (b : Brackets) (start : Int) (cs : List Char) : Option Int :=
  let ahead := if start < 0 then cs.drop (cs.length - start.natAbs) ++ cs else cs.drop start.toNat
  (closing? b ahead).map fun offset => start + offset

/-- Behind the name of a function without parameters: the text from its opening brace on. -/
def openingBrace? (cs : List Char) : Option (List Char) :=
  match trimStart cs with
  | '(' :: inside =>
      match trimStart inside with
      | ')' :: behind =>
          match trimStart behind with
          | '{' :: body => some ('{' :: body)
          | _ => none
      | _ => none
  | _ => none

/-- The body of a function without result and parameters, from its opening brace on, if the
function begins here. -/
def functionAt? (name : List Char) (cs : List Char) : Option (List Char) := do
  openingBrace? (← after? name (← afterBlanks? (← after? "void".toList cs)))

/-- What stands between the braces of a function without result and parameters. -/
def functionBody? (name : List Char) (cs : List Char) : Option (List Char) := do
  let body ← (spots cs).findSome? fun s => functionAt? name s.rest
  let stop ← closing? braces body
  return (body.take stop).drop 1

/-! ## Functions by a pattern -/

/-- Why there is no answer to the search for a body. -/
inductive BodyFault where
  /-- The name is no pattern. -/
  | name (fault : Pattern.ReadFault)
  /-- There is no text to look for a closing brace in. -/
  | noText
  deriving DecidableEq, Repr

def isPlainName (name : List Char) : Bool :=
  name.all Text.isWord

/-- The pattern for the head of a function with a name, up to its opening brace. -/
def headPattern (name : List Char) : List Char :=
  "void\\s+".toList ++ name ++ "\\s*\\(\\s*\\)\\s*\\\x7b".toList

/-- What stands behind a head that ends at a place, up to the brace that closes the one at the
end of the head. -/
def bodyBehind (stop : Nat) (code : List Char) : Except BodyFault (Option (List Char)) :=
  let start : Int := stop - 1
  if reaches start code then
    .ok ((closingIndex? braces start code).map fun close => (code.take close.toNat).drop stop)
  else
    .error .noText

def body (name code : List Char) : Except BodyFault (Option (List Char)) :=
  if isPlainName name then
    .ok (functionBody? name code)
  else
    match Pattern.read (headPattern name) with
    | .error fault => .error (.name fault)
    | .ok head =>
        match head.find? code with
        | none => .ok none
        | some r => bodyBehind r.offset code

end Skim

end InoBlocks
