import InoBlocks.Text.Class
import InoBlocks.Token

/-!
# Safe names

Names typed into a block as names a sketch can use: letters, digits and underscores, not
starting with a digit, and none that the language or the board has taken, in whatever case.
-/

namespace InoBlocks

/-- Names that are taken beside the words of the grammar. -/
def takenNames : List String := [
    "setup", "loop", "double", "short", "bool", "word", "size_t", "do", "break", "continue",
    "switch", "case", "default", "goto", "const", "static", "volatile", "struct", "sizeof",
    "led_builtin", "pi"]

def lowerCase (cs : List Char) : List Char :=
  cs.map Char.toLower

def reservedNames : List (List Char) :=
  TokenKind.keywords.map (fun word => lowerCase word.1.toList) ++ takenNames.map String.toList

/-- Whether a name is not free, in whatever case it is written. -/
def isReserved (cs : List Char) : Bool :=
  reservedNames.contains (lowerCase cs)

/-- An underscore in front of a name that starts with a digit. -/
def guardDigit : List Char → List Char
  | [] => []
  | c :: cs => if c.isDigit then '_' :: c :: cs else c :: cs

/-- An underscore in front of a name that is not free. -/
def guardReserved (cs : List Char) : List Char :=
  if isReserved cs then '_' :: cs else cs

/-- A typed name as a name of a sketch; a default if no character of it can stay. -/
def safeName (name default : String) : String :=
  match name.toList.filter Text.isNameChar with
  | [] => default
  | cs => String.ofList (guardReserved (guardDigit cs))

def unnamed : String := "variable"

def safeNameOf (field? : Option String) (default : String) : String :=
  match field? with
  | some name => safeName name default
  | none => default

end InoBlocks
