import InoBlocks.Number.Binary64
import InoBlocks.Number.Digits
import InoBlocks.Text.Trim

/-!
# Reading numbers

A number as people type it: blanks around it, a sign, digits of any script, single underscores
between digits.
-/

namespace InoBlocks

namespace Number

def maxIntegerDigits : Nat := 4300

/-- An integer that is typed with too many digits to be read. -/
structure Overlong where
  digits : Nat
  deriving DecidableEq, Repr

/-- The wording of what is wrong with an overlong integer. -/
def Overlong.message (o : Overlong) : String :=
  "Exceeds the limit (" ++ decimal maxIntegerDigits ++
    " digits) for integer string conversion: value has " ++ decimal o.digits ++
    " digits; use sys.set_int_max_str_digits() to increase the limit"

/-- A sign at the front of a text, and the text after it. -/
def readSign : List Char → Bool × List Char
  | '-' :: cs => (true, cs)
  | '+' :: cs => (false, cs)
  | cs => (false, cs)

def startsWithDigit : List Char → Bool
  | [] => false
  | c :: _ => Text.isDecimal c

/-- Digit values at the front of a text and the text after them.  An underscore counts as part
of the number only between two digits; `inside` says that a digit has just been read. -/
def readDigits (inside : Bool) : List Char → List Nat × List Char
  | [] => ([], [])
  | c :: cs =>
      match Text.digitValue? c with
      | some d =>
          let tail := readDigits true cs
          (d :: tail.1, tail.2)
      | none =>
          if inside && c == '_' && startsWithDigit cs then readDigits false cs
          else ([], c :: cs)

/-- Why a text is no integer. -/
inductive IntegerFault where
  /-- Its digits are too many. -/
  | overlong (o : Overlong)
  /-- It is not spelled as an integer. -/
  | malformed
  deriving DecidableEq, Repr

def ofFewDigits (values : List Nat) : Except Overlong Nat :=
  if values.length ≤ maxIntegerDigits then .ok (ofDigits values) else .error ⟨values.length⟩

/-- Read an integer.  Too many digits are found out before what stands behind them, unless that
is an underscore. -/
def readInteger (s : String) : Except IntegerFault Int :=
  let (negative, cs) := readSign (Text.trim s.toList)
  match readDigits false cs with
  | ([], _) | (_, '_' :: _) => .error .malformed
  | (values, rest) => do
      let n ← (ofFewDigits values).mapError .overlong
      if rest.isEmpty then return if negative then -(n : Int) else n
      throw .malformed

/-- Read an integer, if there is one that can be read. -/
def integer? (s : String) : Option Int :=
  (readInteger s).toOption

/-- The exponent at the front of a text, and the text after it: `e` or `E`, a sign and digits.
A text with no exponent there has exponent zero. -/
def readExponent (cs : List Char) : Option (Int × List Char) :=
  match cs with
  | c :: rest =>
      if c == 'e' || c == 'E' then
        let (negative, rest) := readSign rest
        match readDigits false rest with
        | ([], _) => none
        | (ds, rest) =>
            let n : Int := ofDigits ds
            some (if negative then -n else n, rest)
      else
        some (0, cs)
  | [] => some (0, [])

/-- The names under which infinity and what is not a number are typed. -/
def named? (negative : Bool) (cs : List Char) : Option Binary64 :=
  let lower := String.ofList (cs.map Char.toLower)
  if lower == "inf" || lower == "infinity" then some (.infinite negative)
  else if lower == "nan" then some .notANumber
  else none

/-- Digits with at most one point, and the text after them: the digit values, and how many of
them stand after the point. -/
def readMantissa (cs : List Char) : List Nat × Nat × List Char :=
  let whole := readDigits false cs
  match whole.2 with
  | '.' :: rest =>
      let fraction := readDigits false rest
      (whole.1 ++ fraction.1, fraction.1.length, fraction.2)
  | rest => (whole.1, 0, rest)

def double? (s : String) : Option Binary64 :=
  let (negative, cs) := readSign (Text.trim s.toList)
  match readMantissa cs with
  | ([], _, _) => named? negative cs
  | (ds, places, rest) =>
      match readExponent rest with
      | some (exponent, []) =>
          some (Binary64.ofDecimal negative (ofDigits ds) (exponent - (places : Int)))
      | _ => none

end Number

end InoBlocks
