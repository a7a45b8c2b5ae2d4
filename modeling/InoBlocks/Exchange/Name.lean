import InoBlocks.Exchange.NameSpan
import InoBlocks.Text.Spot

/-!
# Characters and names of markup

The characters that may stand in XML text, the names that things have in it, and texts in quotes.
-/

namespace InoBlocks

namespace Exchange

/-! ## Characters -/

def isXmlChar (c : Char) : Bool :=
  let n := c.toNat
  n == 9 || n == 10 || n == 13 || (32 ≤ n && n != 0xFFFE && n != 0xFFFF)

def isSpace (c : Char) : Bool :=
  c == ' ' || c == '\t' || c == '\n' || c == '\r'

def isNameStart (c : Char) : Bool :=
  c.isAlpha || c == '_' || (decide (128 ≤ c.toNat) && Text.inSpans letterSpans c.toNat)

def isNameChar (c : Char) : Bool :=
  isNameStart c || c.isDigit || c == '-' || c == '.' ||
    (decide (128 ≤ c.toNat) && Text.inSpans extenderSpans c.toNat)

/-! ## Names -/

/-- A name and the prefix in front of it. -/
structure QualifiedName where
  space : Option (List Char)
  base : List Char
  deriving DecidableEq, Repr

/-- A name at the front of a text, and the text after it. -/
def name? (cs : List Char) : Option (List Char × List Char) :=
  match cs with
  | c :: rest =>
      if isNameStart c then some (c :: rest.takeWhile isNameChar, rest.dropWhile isNameChar)
      else none
  | [] => none

/-- A name with or without a prefix at the front of a text, and the text after it. -/
def qualifiedName? (cs : List Char) : Option (QualifiedName × List Char) := do
  let (first, rest) ← name? cs
  match rest with
  | ':' :: rest =>
      let (second, rest) ← name? rest
      return (⟨some first, second⟩, rest)
  | rest => return (⟨none, first⟩, rest)

def skipSpace (cs : List Char) : List Char :=
  cs.dropWhile isSpace

def afterSpace? (cs : List Char) : Option (List Char) :=
  match cs with
  | c :: rest => if isSpace c then some (skipSpace rest) else none
  | [] => none

/-- A text in quotes at the front of a text, as it is, and the text after it. -/
def quoted? (cs : List Char) : Option (List Char × List Char) :=
  match cs with
  | quote :: rest =>
      if quote == '"' || quote == '\'' then
        match rest.dropWhile (· != quote) with
        | _ :: behind => some (rest.takeWhile (· != quote), behind)
        | [] => none
      else
        none
  | [] => none

end Exchange

end InoBlocks
