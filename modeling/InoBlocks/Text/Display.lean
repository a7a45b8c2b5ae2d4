import InoBlocks.Text.Class

/-!
# Lines and quotes

Two notions of a line.  A sketch's lines, the ones that locations count, end at a line feed
alone.  Running text is cut at every line end of Unicode, and a carriage return together with a
line feed is one end (`lines`).

Inside a message a text is shown between quotes, with everything that does not print written as an
escape.  Single quotes are used unless the text holds some and no double ones.
-/

namespace InoBlocks

namespace Text

/-! ## Lines -/

/-- The lines of running text, their ends left out.  An end at the close of the text opens no
further line. -/
def lines : List Char → List (List Char)
  | [] => []
  | '\r' :: '\n' :: cs => [] :: lines cs
  | c :: cs =>
      if isLineEnd c then
        [] :: lines cs
      else
        match lines cs with
        | [] => [[c]]
        | line :: rest => (c :: line) :: rest

/-- Write every line end as a line feed: the form in which files are read. -/
def unifyLineEnds : List Char → List Char
  | [] => []
  | '\r' :: '\n' :: cs => '\n' :: unifyLineEnds cs
  | '\r' :: cs => '\n' :: unifyLineEnds cs
  | c :: cs => c :: unifyLineEnds cs

/-- Lines put together with a line feed between neighbours. -/
def joinLines (parts : List String) : String :=
  "\n".intercalate parts

/-! ## Quotes -/

def hexDigit (n : Nat) : Char :=
  if n < 10 then Char.ofNat ('0'.toNat + n) else Char.ofNat ('a'.toNat + (n - 10))

/-- A number in base sixteen, of exactly `width` digits. -/
def hexDigits : (width : Nat) → Nat → List Char
  | 0, _ => []
  | width + 1, n => hexDigits width (n / 16) ++ [hexDigit (n % 16)]

/-- One character as it is shown between two `quote`s. -/
def showChar (quote c : Char) : List Char :=
  if c == quote || c == '\\' then ['\\', c]
  else if c == '\n' then ['\\', 'n']
  else if c == '\r' then ['\\', 'r']
  else if c == '\t' then ['\\', 't']
  else if isPrintable c then [c]
  else if c.toNat < 0x100 then '\\' :: 'x' :: hexDigits 2 c.toNat
  else if c.toNat < 0x10000 then '\\' :: 'u' :: hexDigits 4 c.toNat
  else '\\' :: 'U' :: hexDigits 8 c.toNat

def displayQuote (cs : List Char) : Char :=
  if cs.contains '\'' && !cs.contains '"' then '"' else '\''

def quoted (s : String) : String :=
  let quote := displayQuote s.toList
  String.ofList (quote :: s.toList.flatMap (showChar quote) ++ [quote])

end Text

end InoBlocks
