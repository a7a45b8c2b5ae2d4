import InoBlocks.Skim.Text

/-!
# Patterns of statements

The shapes of statements that are known without a grammar: declarations, assignments, calls with
plain arguments, and the headers of counted loops.
-/

namespace InoBlocks

namespace Skim

open Text

def typeWords : List String := ["int", "float", "char", "boolean", "String", "long", "byte"]

/-- A type of one word with blanks after it, and the text behind them. -/
def afterTypeWord? (cs : List Char) : Option (String × List Char) := do
  let (word, rest) ← afterAny? typeWords cs
  return (word, ← afterBlanks? rest)

/-- A type with blanks after it, and the text behind them. -/
def afterType? (cs : List Char) : Option (String × List Char) :=
  (((after? "unsigned".toList cs).bind afterBlanks?).bind afterTypeWord?).map
      (fun (word, rest) => ("unsigned " ++ word, rest)) <|>
    afterTypeWord? cs

/-- The text behind a character with blanks before and after it. -/
def afterMark? (mark : Char) (cs : List Char) : Option (List Char) :=
  (after? [mark] (trimStart cs)).map trimStart

/-- A name that is assigned, and the text behind the sign. -/
def assigned? (cs : List Char) : Option (List Char × List Char) := do
  let (name, rest) ← spanName? cs
  match trimStart rest with
  | '=' :: value =>
      if value.isEmpty || value.head? == some '=' then none else some (name, value)
  | _ => none

/-- The declaration of a variable with a value: type, name and value. -/
def define? (cs : List Char) : Option (String × List Char × List Char) := do
  let (type, rest) ← afterType? cs
  let (name, value) ← assigned? rest
  return (type, name, value)

def declare? (cs : List Char) : Option (String × List Char) := do
  let (type, rest) ← afterType? cs
  match spanName? rest with
  | some (name, []) => some (type, name)
  | _ => none

/-- What stands between the parentheses of a call that is all of a text. -/
def callInside? (name : String) (cs : List Char) : Option (List Char) := do
  match trimStart (← after? name.toList cs) with
  | '(' :: inside => if inside.getLast? == some ')' then some inside.dropLast else none
  | _ => none

/-- The first argument of a call and what stands behind the comma. -/
def firstArgument? (inside : List Char) : Option (List Char × List Char) :=
  match inside.takeWhile (· != ','), inside.dropWhile (· != ',') with
  | c :: first, ',' :: rest => some (c :: first, rest)
  | _, _ => none

/-- A call with two arguments of which the second is a word: both of them. -/
def wordCall? (name : String) (cs : List Char) : Option (List Char × String) := do
  let (first, rest) ← firstArgument? (← callInside? name cs)
  let word := trim rest
  if word.isEmpty || !word.all isWord then none else some (first, String.ofList word)

/-- A text that stands on one line, blanks at its ends left aside. -/
def oneLine? (cs : List Char) : Option (List Char) :=
  let text := trim cs
  if text.contains '\n' || cs.all (· == '\n') then none else some text

/-- A call with two arguments of which the second stands on one line: both of them. -/
def lineCall? (name : String) (cs : List Char) : Option (List Char × List Char) := do
  let (first, rest) ← firstArgument? (← callInside? name cs)
  return (first, ← oneLine? rest)

/-- A call whose argument has no parentheses: the argument. -/
def plainCall? (name : String) (cs : List Char) : Option (List Char) := do
  let inside ← callInside? name cs
  if inside.isEmpty || inside.contains '(' || inside.contains ')' then none else some inside

def isInteger (cs : List Char) : Bool :=
  !cs.isEmpty && cs.all Char.isDigit

/-- ASCII digits, and perhaps a point and more of them. -/
def isNumber (cs : List Char) : Bool :=
  match cs.dropWhile Char.isDigit with
  | [] => !cs.isEmpty
  | '.' :: fraction => isInteger (cs.takeWhile Char.isDigit) && isInteger fraction
  | _ => false

def integerCall? (name : String) (cs : List Char) : Option (List Char) := do
  let digits := trim (← callInside? name cs)
  if isInteger digits then some digits else none

def isPinName : List Char → Bool
  | 'A' :: digits => isInteger digits
  | _ => false

def isName (cs : List Char) : Bool :=
  match spanName? cs with
  | some (_, rest) => rest.isEmpty
  | none => false

/-! ## Headers of counted loops -/

/-- What stands behind a type, if there is one that lets a pattern fit, or else in its place. -/
def behindType? {α : Type} (pattern? : List Char → Option α) (cs : List Char) : Option α :=
  (afterType? cs).bind (fun typed => pattern? typed.2) <|> pattern? cs

/-- Behind the type: a variable counted up from zero in steps of one, and the word it is counted
up to. -/
def countedTo? (cs : List Char) : Option (List Char) := do
  let (name, rest) ← spanName? cs
  let rest ← afterMark? ';' (← afterMark? '0' (← afterMark? '=' rest))
  let rest ← afterMark? '<' (← after? name rest)
  let bound := rest.takeWhile isWord
  if bound.isEmpty then none
  let rest ← afterMark? ';' (rest.dropWhile isWord)
  if trimStart (← after? name rest) == ['+', '+'] then some bound else none

def repetition? (header : List Char) : Option (List Char) :=
  behindType? countedTo? header

/-- Behind the type: a variable and the value it starts with, on one line. -/
def startValue? (cs : List Char) : Option (List Char × List Char) := do
  let (name, rest) ← spanName? cs
  let value ← afterMark? '=' rest
  if value.isEmpty || value.contains '\n' then none else some (name, value)

/-- The variable of a loop and the value it starts with. -/
def loopStart? (cs : List Char) : Option (List Char × List Char) :=
  behindType? startValue? cs

def behindSign? (sign? : List Char → Option (List Char)) (cs : List Char) :
    Option (List Char) := do
  if (cs.takeWhile isWord).isEmpty then none
  let value := trimStart (← sign? (trimStart (cs.dropWhile isWord)))
  if value.isEmpty || value.contains '\n' then none else some value

def loopBound? (cs : List Char) : Option (List Char) :=
  behindSign? (fun rest => after? ['<', '='] rest <|> after? ['<'] rest) cs

def loopStep? (cs : List Char) : Option (List Char) :=
  behindSign? (after? ['+', '=']) cs

end Skim

end InoBlocks
