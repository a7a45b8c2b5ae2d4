import InoBlocks.Number.Shortest

/-!
# Writing doubles

The layout of a double's shortest decimal, and fixed places for percentages.
-/

namespace InoBlocks

namespace Binary64

/-- The choices in writing a double: between which exponents of the leading digit it is written
out in full, how wide an exponent is, and the names of what is not finite. -/
structure Layout where
  leastPositional : Int
  leastExponential : Int
  exponentWidth : Nat
  infinity : String
  notANumber : String

/-- Doubles are written out from `0.0001` to below `10 ^ 16`, exponents have a sign and at least
two digits. -/
def standardLayout : Layout where
  leastPositional := -4
  leastExponential := 16
  exponentWidth := 2
  infinity := "inf"
  notANumber := "nan"

def padZeros (width : Nat) (cs : List Char) : List Char :=
  List.replicate (width - cs.length) '0' ++ cs

/-- Digits with the point after the first `position` of them; an integer keeps one zero after
its point. -/
def positional (digits : List Char) (position : Int) : List Char :=
  if position ≤ 0 then
    '0' :: '.' :: List.replicate (-position).toNat '0' ++ digits
  else
    let whole := position.toNat
    if digits.length ≤ whole then
      digits ++ List.replicate (whole - digits.length) '0' ++ ['.', '0']
    else
      digits.take whole ++ '.' :: digits.drop whole

/-- Digits with the point after the first, and an exponent. -/
def exponential (layout : Layout) (digits : List Char) (exponent : Int) : List Char :=
  let mantissa :=
    match digits with
    | d :: e :: rest => d :: '.' :: e :: rest
    | _ => digits
  let sign := if exponent < 0 then '-' else '+'
  mantissa ++ 'e' :: sign :: padZeros layout.exponentWidth (Number.digits exponent.natAbs)

def layoutPositive (layout : Layout) (significand : Nat) (exponent : Int) : List Char :=
  let found := shortest significand exponent
  let digits := Number.digits found.1
  let leading : Int := found.2 + (digits.length : Int) - 1
  if layout.leastPositional ≤ leading && leading < layout.leastExponential then
    positional digits (leading + 1)
  else
    exponential layout digits leading

def layOut (layout : Layout) : Binary64 → String
  | finite negative m e =>
      let body := if m = 0 then ['0', '.', '0'] else layoutPositive layout m e
      String.ofList (if negative then '-' :: body else body)
  | infinite negative => if negative then "-" ++ layout.infinity else layout.infinity
  | Binary64.notANumber => layout.notANumber

def toText (x : Binary64) : String :=
  x.layOut standardLayout

/-- A double with one decimal place, for percentages: nearest, a tie to the even digit. -/
def toOnePlace : Binary64 → String
  | finite negative m e =>
      let r := Ratio.dyadic (m * 10) e
      let tenths := roundDiv r.num r.den
      let body := Number.decimal (tenths / 10) ++ "." ++ Number.decimal (tenths % 10)
      if negative then "-" ++ body else body
  | x => x.toText

/-- An integral double without its point, any other in full. -/
def toNumeral (x : Binary64) : String :=
  if x.isInteger then Number.signedDecimal x.truncate else x.toText

end Binary64

end InoBlocks
