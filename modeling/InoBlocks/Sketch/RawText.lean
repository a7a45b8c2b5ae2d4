import InoBlocks.Sketch.Source
import InoBlocks.Text.Trim

/-!
# Raw sketch text

Two rules for text that goes into a sketch as it is.  `quoteText` makes any text one closed
literal.  `rawBinding` estimates how tightly raw expression text binds, and when in doubt says
that it does not bind at all, so that it is put in parentheses.
-/

namespace InoBlocks

/-! ## Quoting -/

def isEscapeLetter (c : Char) : Bool :=
  ['\\', '"', '\'', 'n', 'r', 't', '0', 'a', 'b', 'f', 'v', '?'].contains c

def escapeChar (c : Char) : List Char :=
  if c == '\\' || c == '"' then ['\\', c]
  else if c == '\n' then ['\\', 'n']
  else if c == '\r' then ['\\', 'r']
  else [c]

/-- A text inside a literal.  Escapes that are there already stay; quotes, backslashes and line
ends are escaped. -/
def escapeText : List Char → List Char
  | [] => []
  | '\\' :: c :: cs =>
      if isEscapeLetter c then '\\' :: c :: escapeText cs
      else escapeChar '\\' ++ escapeText (c :: cs)
  | c :: cs => escapeChar c ++ escapeText cs

def quoteText (s : String) : String :=
  String.ofList ('"' :: escapeText s.toList ++ ['"'])

/-! ## Binding of raw text -/

/-- Whether a property holds of a text, one line feed at its end left aside or not. -/
def upToLineFeed (holds : List Char → Bool) (cs : List Char) : Bool :=
  holds cs || (cs.getLast? == some '\n' && holds cs.dropLast)

/-- A name: an ASCII letter or underscore, then letters and digits of any script. -/
def isNameText : List Char → Bool
  | [] => false
  | c :: cs => Text.isNameStart c && cs.all Text.isWord

def isNumberText (cs : List Char) : Bool :=
  let whole := cs.takeWhile Text.isDecimal
  match cs.dropWhile Text.isDecimal with
  | [] => !whole.isEmpty
  | '.' :: fraction => fraction.all Text.isDecimal && !(whole.isEmpty && fraction.isEmpty)
  | _ => false

/-- Whether the first quote that no backslash escapes is the last character. -/
def closesAtEnd (quote : Char) : List Char → Bool
  | [] => false
  | '\\' :: c :: cs => c != '\n' && closesAtEnd quote cs
  | c :: cs => if c == quote then cs.isEmpty else c != '\\' && closesAtEnd quote cs

def isQuotedText : List Char → Bool
  | [] => false
  | c :: cs => (c == '"' || c == '\'') && closesAtEnd c cs

def isAtomText (cs : List Char) : Bool :=
  isNameText cs || isNumberText cs || isQuotedText cs

def isStepText (cs : List Char) : Bool :=
  match cs.reverse with
  | a :: b :: rest => a == b && (a == '+' || a == '-') && isNameText rest.reverse
  | _ => false

/-- Whether the first parenthesis that is open closes with the last character.  Parentheses
between quotes do not count. -/
def closesLast (previous : Char) (quote : Option Char) (depth : Nat) : List Char → Bool
  | [] => false
  | c :: cs =>
      match quote with
      | some q => closesLast c (if c == q && previous != '\\' then none else quote) depth cs
      | none =>
          if c == '"' || c == '\'' then closesLast c (some c) depth cs
          else if c == '(' then closesLast c none (depth + 1) cs
          else if c == ')' then
            if depth ≤ 1 then cs.isEmpty else closesLast c none (depth - 1) cs
          else closesLast c none depth cs

def isMemberChar (c : Char) : Bool :=
  Text.isWord c || c == '.'

/-- One call of a function or a method, with nothing after it. -/
def isCallText : List Char → Bool
  | [] => false
  | c :: cs =>
      match cs.dropWhile isMemberChar with
      | '(' :: rest =>
          Text.isNameStart c && (c :: cs).getLast? == some ')' && closesLast '(' none 1 rest
      | _ => false

/-- Whether an operator in front of an operand may be read by itself. -/
def isLeading (c : Char) : List Char → Bool
  | [] => false
  | next :: _ =>
      (c == '!' || c == '-' || c == '+') && !(next == '+' || next == '-' || next == '=')

/-- How tightly the outermost operator of a raw text binds, at least. -/
def rawBinding : List Char → Nat
  | [] => Binding.unknown
  | c :: cs =>
      if upToLineFeed isAtomText (c :: cs) then Binding.primary
      else if upToLineFeed isStepText (c :: cs) || isCallText (c :: cs) then Binding.trailing
      else if isLeading c cs && decide (Binding.trailing ≤ rawBinding cs) then Binding.leading
      else Binding.unknown

/-- How often a raw text is looked at, each time behind one more operator. -/
def rawCalls : List Char → Nat
  | [] => 1
  | c :: cs =>
      if upToLineFeed isAtomText (c :: cs) || upToLineFeed isStepText (c :: cs) ||
          isCallText (c :: cs) || !isLeading c cs then 1
      else rawCalls cs + 1

/-- How tightly a raw text binds, if there is any text. -/
def rawBinding? (s : String) : Option Nat :=
  if s == "" then none else some (rawBinding s.toList)

end InoBlocks
