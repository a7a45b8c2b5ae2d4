import InoBlocks.Text.PrintableSpan
import InoBlocks.Text.WordSpan

/-!
# Character classes

Two families of classes.  Sketch text is scanned with ASCII classes (`isLetter`, `isNameChar`,
`Char.isDigit`), because a sketch's names and numbers are ASCII.  Text typed into a block, and
text that is matched against a pattern, uses the classes of Unicode: `isBlank`, `isDecimal` and
`isWord`.
-/

namespace InoBlocks

namespace Text

/-- What holds of each character of a text is found out along the text, not among all characters
there are. -/
instance decidableForallMem (p : Char → Prop) [DecidablePred p] (cs : List Char) :
    Decidable (∀ c ∈ cs, p c) :=
  List.decidableBAll p cs

/-! ## ASCII -/

/-- An ASCII letter or the underscore: the first character of a sketch name. -/
def isNameStart (c : Char) : Bool :=
  c.isAlpha || c == '_'

def isNameChar (c : Char) : Bool :=
  c.isAlphanum || c == '_'

theorem isNameChar_of_isNameStart {c : Char} (h : isNameStart c = true) :
    isNameChar c = true := by
  simp only [isNameStart, isNameChar, Char.isAlphanum, Bool.or_eq_true] at *
  rcases h with h | h
  · exact Or.inl (Or.inl h)
  · exact Or.inr h

/-! ## Unicode -/

/-- White space of any script: the separators and the controls that lay text out. -/
def isBlank (c : Char) : Bool :=
  let n := c.toNat
  (9 ≤ n && n ≤ 13) || (28 ≤ n && n ≤ 32) || n == 0x85 || n == 0xA0 || n == 0x1680 ||
    (0x2000 ≤ n && n ≤ 0x200A) || n == 0x2028 || n == 0x2029 || n == 0x202F || n == 0x205F ||
    n == 0x3000

/-- The digit zero of each script other than ASCII.  Every script with decimal digits has them as ten
consecutive code points, zero first, so the zeros alone describe the general category Nd. -/
def digitZeros : List Nat := [
    0x660, 0x6F0, 0x7C0, 0x966, 0x9E6, 0xA66, 0xAE6, 0xB66, 0xBE6, 0xC66,
    0xCE6, 0xD66, 0xDE6, 0xE50, 0xED0, 0xF20, 0x1040, 0x1090, 0x17E0, 0x1810,
    0x1946, 0x19D0, 0x1A80, 0x1A90, 0x1B50, 0x1BB0, 0x1C40, 0x1C50, 0xA620, 0xA8D0,
    0xA900, 0xA9D0, 0xA9F0, 0xAA50, 0xABF0, 0xFF10, 0x104A0, 0x10D30, 0x11066, 0x110F0,
    0x11136, 0x111D0, 0x112F0, 0x11450, 0x114D0, 0x11650, 0x116C0, 0x11730, 0x118E0, 0x11950,
    0x11C50, 0x11D50, 0x11DA0, 0x16A60, 0x16AC0, 0x16B50, 0x1D7CE, 0x1D7D8, 0x1D7E2, 0x1D7EC,
    0x1D7F6, 0x1E140, 0x1E2F0, 0x1E950, 0x1FBF0]

def digitValue? (c : Char) : Option Nat :=
  if c.isDigit then
    some (c.toNat - '0'.toNat)
  else
    let n := c.toNat
    (digitZeros.find? fun first => decide (first ≤ n) && decide (n < first + 10)).map (n - ·)

def isDecimal (c : Char) : Bool :=
  (digitValue? c).isSome

/-- A letter, a number or the underscore, of any script. -/
def isWord (c : Char) : Bool :=
  isNameChar c || (decide (128 ≤ c.toNat) && inSpans wordSpans c.toNat)

def isPrintable (c : Char) : Bool :=
  let n := c.toNat
  (32 ≤ n && n ≤ 126) || (decide (128 ≤ n) && inSpans printableSpans n)

theorem isDecimal_of_isDigit {c : Char} (h : c.isDigit = true) : isDecimal c = true := by
  simp [isDecimal, digitValue?, h]

theorem isWord_of_isNameChar {c : Char} (h : isNameChar c = true) : isWord c = true := by
  simp [isWord, h]

/-- A line's end: the characters and the pair that part one line from the next in running text. -/
def isLineEnd (c : Char) : Bool :=
  let n := c.toNat
  (10 ≤ n && n ≤ 13) || (28 ≤ n && n ≤ 30) || n == 0x85 || n == 0x2028 || n == 0x2029

end Text

end InoBlocks
