import InoBlocks.Block
import InoBlocks.Number.Reading

/-!
# Numerals in fields

The number that a field of a block stands for, as it is written into a sketch.  Of typed text
the longest number at its front counts, so that `12ms` is twelve.  A number keeps the spelling
it was typed with unless that would be read as octal, and is moved to the nearest limit when it
lies outside of them.
-/

namespace InoBlocks

/-! ## Spellings -/

namespace Number

/-- Digits at the front of a text, and the text after them. -/
def spanDigits (cs : List Char) : List Char × List Char :=
  (cs.takeWhile Text.isDecimal, cs.dropWhile Text.isDecimal)

/-- A sign at the front of a text, and the text after it. -/
def spanSign : List Char → List Char × List Char
  | '-' :: cs => (['-'], cs)
  | '+' :: cs => (['+'], cs)
  | cs => ([], cs)

/-- The spelling of an exponent at the front of a text; empty if there is none. -/
def exponentFront : List Char → List Char
  | [] => []
  | c :: cs =>
      let (sign, rest) := spanSign cs
      let (digits, _) := spanDigits rest
      if (c == 'e' || c == 'E') && !digits.isEmpty then c :: sign ++ digits else []

/-- The spelling of a number without sign or exponent at the front of a text, and the text after
it: digits with at most one point among them, before them or behind them. -/
def mantissaFront? (cs : List Char) : Option (List Char × List Char) :=
  let (whole, rest) := spanDigits cs
  match rest with
  | '.' :: rest =>
      let (fraction, rest) := spanDigits rest
      if whole.isEmpty && fraction.isEmpty then none else some (whole ++ '.' :: fraction, rest)
  | rest => if whole.isEmpty then none else some (whole, rest)

/-- The spelling of the longest number at the front of a text, blanks before it left out. -/
def front? (cs : List Char) : Option (List Char) :=
  let (sign, rest) := spanSign (Text.trimStart cs)
  (mantissaFront? rest).map fun (mantissa, rest) => sign ++ mantissa ++ exponentFront rest

/-- Whether a spelling starts with a zero that another digit follows. -/
def hasLeadingZero (cs : List Char) : Bool :=
  match (spanSign cs).2 with
  | '0' :: c :: _ => Text.isDecimal c
  | _ => false

end Number

/-! ## Limits -/

/-- An end of the range that a number may lie in. -/
inductive Limit where
  | integer (value : Int)
  | real (value : Binary64)
  deriving DecidableEq, Repr

namespace Limit

def isAbove : Limit → Binary64 → Bool
  | integer n, x => x.ltDyadic n 0
  | real y, x => x.lt y

def isBelow : Limit → Binary64 → Bool
  | integer n, x => x.gtDyadic n 0
  | real y, x => y.lt x

def text : Limit → String
  | integer n => Number.signedDecimal n
  | real x => x.toNumeral

/-- Whether a limit is near a double; an integer beyond all doubles is not. -/
def isInRange : Limit → Bool
  | integer n => (Binary64.ofInt? n).isSome
  | real _ => true

end Limit

/-- The range that a number may lie in; an end that is missing is open. -/
structure Limits where
  least : Option Limit := none
  greatest : Option Limit := none
  deriving DecidableEq, Repr

namespace Limits

def none : Limits := {}

def natural : Limits := { least := some (.integer 0) }

def upTo (n : Nat) : Limits :=
  { least := some (.integer 0), greatest := some (.integer n) }

/-- The limit that stands in for a number outside of the range. -/
def crossed? (r : Limits) (x : Binary64) : Option Limit :=
  r.least.filter (·.isAbove x) <|> r.greatest.filter (·.isBelow x)

end Limits

/-! ## Numerals -/

/-- A number with the spelling it was typed with, if it was typed. -/
structure Numeral where
  value : Binary64
  spelling : Option (List Char)
  deriving DecidableEq, Repr

namespace Numeral

/-- The number at the front of a text, if it is finite. -/
def ofText? (s : String) : Option Numeral :=
  (Number.front? s.toList).bind fun spelling =>
    let value := (Number.double? (String.ofList spelling)).getD .notANumber
    if value.isFinite then some ⟨value, some spelling⟩ else none

def text (n : Numeral) : String :=
  match n.spelling with
  | some cs => if Number.hasLeadingZero cs then n.value.toNumeral else String.ofList cs
  | none => n.value.toNumeral

def textWithin (n : Numeral) (limits : Limits) : String :=
  match limits.crossed? n.value with
  | some limit => limit.text
  | none => n.text

/-- The number in a typed field as text, inside limits; a default if there is none. -/
def ofField (field? : Option String) (default : String) (limits : Limits) : String :=
  match field?.bind ofText? with
  | some n => n.textWithin limits
  | none => default

end Numeral

/-! ## Numbers in fields of any kind -/

/-- Why a field cannot be written as a number. -/
inductive NumeralFault where
  /-- An integer beyond all doubles. -/
  | outOfRange
  /-- A text that is no double. -/
  | notReal (text : String)
  /-- A text that is an integral double, but not written as an integer. -/
  | notInteger (text : String)
  /-- A text that is an integral double with too many digits. -/
  | overlong (o : Number.Overlong)
  /-- A field that holds nothing. -/
  | missing
  /-- A limit that is a text, which no number compares with. -/
  | textLimit
  deriving DecidableEq, Repr

namespace Scalar

/-- The number in a field, if it holds a finite one. -/
def numeral? : Scalar → Except NumeralFault (Option Numeral)
  | text s => .ok (Numeral.ofText? s)
  | integer n =>
      match Binary64.ofInt? n with
      | some x => .ok (some ⟨x, none⟩)
      | none => .error .outOfRange
  | real x => .ok (if x.isFinite then some ⟨x, none⟩ else none)
  | flag _ | null => .ok none

/-- The limit that a value stands for; nothing sets none. -/
def limit? : Scalar → Except NumeralFault (Option Limit)
  | integer n => .ok (some (.integer n))
  | real x => .ok (some (.real x))
  | flag b => .ok (some (.integer (if b then 1 else 0)))
  | text _ => .error .textLimit
  | null => .ok none

/-- A limit as a numeral, unless it is an integer beyond all doubles. -/
def limitText (limit : Limit) : Except NumeralFault String :=
  if limit.isInRange then .ok limit.text else .error .outOfRange

/-- The number in a field as text, inside limits; a default if there is none.  The greatest value
is looked at only by a number that is not below the least one. -/
def sanitizeNumber (s : Scalar) (default : String) (least greatest : Scalar) :
    Except NumeralFault String := do
  match ← s.numeral? with
  | none => return default
  | some n =>
      match (← least.limit?).filter (·.isAbove n.value) with
      | some limit => limitText limit
      | none =>
          match (← greatest.limit?).filter (·.isBelow n.value) with
          | some limit => limitText limit
          | none => return n.text

def toNumeral : Scalar → Except NumeralFault String
  | integer n =>
      match Binary64.ofInt? n with
      | some _ => .ok (Number.signedDecimal n)
      | none => .error .outOfRange
  | real x => .ok x.toNumeral
  | flag b => .ok (if b then "1" else "0")
  | text s =>
      match Number.double? s with
      | none => .error (.notReal s)
      | some x =>
          if x.isInteger then
            match Number.readInteger s with
            | .ok n => .ok (Number.signedDecimal n)
            | .error (.overlong o) => .error (.overlong o)
            | .error .malformed => .error (.notInteger s)
          else
            .ok x.toText
  | null => .error .missing

end Scalar

end InoBlocks
