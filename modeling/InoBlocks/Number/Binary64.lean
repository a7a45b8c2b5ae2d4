/-!
# Binary floating point of 64 bits

A double as an exact value: a sign, a significand and a power of two.  Reading, comparing and
the little arithmetic the library needs are done on integers and rounded once, to the nearest
double and to the even one of two equally near.  No machine floating point is involved.
-/

namespace InoBlocks

/-- A double.  A finite one is `± significand * 2 ^ exponent`. -/
inductive Binary64 where
  | finite (negative : Bool) (significand : Nat) (exponent : Int)
  | infinite (negative : Bool)
  | notANumber
  deriving DecidableEq, Repr

namespace Binary64

def twoPow (exponent : Nat) : Nat :=
  Nat.pow 2 exponent

def tenPow (exponent : Nat) : Nat :=
  Nat.pow 10 exponent

def precision : Nat := 53

def minExponent : Int := -1074

def maxExponent : Int := 971

/-- The one form each finite double is kept in: a full significand, or the smallest exponent. -/
def Canonical : Binary64 → Prop
  | finite _ m e =>
      m < twoPow precision ∧ minExponent ≤ e ∧ e ≤ maxExponent ∧
        (e = minExponent ∨ twoPow (precision - 1) ≤ m)
  | infinite _ => True
  | notANumber => True

def zero (negative : Bool) : Binary64 :=
  finite negative 0 minExponent

instance : Inhabited Binary64 := ⟨zero false⟩

/-- Whether a double is neither infinite nor not a number. -/
def isFinite : Binary64 → Bool
  | finite .. => true
  | _ => false

def isZero : Binary64 → Bool
  | finite _ m _ => m == 0
  | _ => false

/-! ## Rounding -/

/-- The integer nearest to `num / den`, the even one of two equally near. -/
def roundDiv (num den : Nat) : Nat :=
  let quotient := num / den
  let twice := 2 * (num % den)
  if den < twice || (twice == den && quotient % 2 == 1) then quotient + 1 else quotient

/-- `num / den` over `2 ^ exponent`, as a numerator and a denominator. -/
def scale (num den : Nat) (exponent : Int) : Nat × Nat :=
  if 0 ≤ exponent then (num, den * twoPow exponent.toNat)
  else (num * twoPow (-exponent).toNat, den)

/-- The exponent at which `num / den` has a full significand, but at least the smallest. -/
def exponentFor (num den : Nat) : Int :=
  let guess : Int := (num.log2 : Int) - (den.log2 : Int) - 52
  let scaled := scale num den guess
  let exact := if scaled.1 < twoPow (precision - 1) * scaled.2 then guess - 1 else guess
  max minExponent exact

/-- Put a significand of at most `2 ^ precision` into a double. -/
def pack (negative : Bool) (significand : Nat) (exponent : Int) : Binary64 :=
  let carried := significand == twoPow precision
  let m := if carried then twoPow (precision - 1) else significand
  let e := if carried then exponent + 1 else exponent
  if maxExponent < e then infinite negative else finite negative m e

def ofRatio (negative : Bool) (num den : Nat) : Binary64 :=
  if num = 0 then
    zero negative
  else
    let exponent := exponentFor num den
    let scaled := scale num den exponent
    pack negative (roundDiv scaled.1 scaled.2) exponent

def ofNat (n : Nat) : Binary64 :=
  ofRatio false n 1

/-- The double nearest to an integer, if there is one: the largest integers have none. -/
def ofInt? (n : Int) : Option Binary64 :=
  let rounded := ofRatio (n < 0) n.natAbs 1
  if rounded.isFinite then some rounded else none

/-- The double nearest to `± digits * 10 ^ exponent`.  Exponents far outside the range of a
double are settled by the number of digits, so that no large power is formed. -/
def ofDecimal (negative : Bool) (digits : Nat) (exponent : Int) : Binary64 :=
  if digits = 0 then
    zero negative
  else
    let magnitude : Int := exponent + (digits.log2 : Int) * 30103 / 100000
    if magnitude < -400 then zero negative
    else if 400 < magnitude then infinite negative
    else if 0 ≤ exponent then ofRatio negative (digits * tenPow exponent.toNat) 1
    else ofRatio negative digits (tenPow (-exponent).toNat)

/-! ## Exact values -/

/-- A finite double as an integer over a power of two: the integer and the exponent of the
denominator. -/
def numerator : Binary64 → Int
  | finite negative m e =>
      let magnitude : Nat := if 0 ≤ e then m * twoPow e.toNat else m
      if negative then -(magnitude : Int) else (magnitude : Int)
  | _ => 0

/-- The exponent of two under which `numerator` stands. -/
def denominatorLog : Binary64 → Nat
  | finite _ _ e => (-e).toNat
  | _ => 0

/-- The integer part of a finite double, cut toward zero. -/
def truncate (x : Binary64) : Int :=
  Int.tdiv x.numerator (twoPow x.denominatorLog)

def isInteger (x : Binary64) : Bool :=
  x.isFinite && Int.emod x.numerator (twoPow x.denominatorLog) == 0

/-- The double nearest to an integer over a power of two. -/
def ofDyadic (num : Int) (log : Nat) : Binary64 :=
  ofRatio (num < 0) num.natAbs (twoPow log)

def oneMinus (x : Binary64) : Binary64 :=
  ofDyadic (twoPow x.denominatorLog - x.numerator) x.denominatorLog

def scaleBy (factor : Nat) (x : Binary64) : Binary64 :=
  ofDyadic (factor * x.numerator) x.denominatorLog

/-- Whether a double is less than an integer over a power of two. -/
def ltDyadic (x : Binary64) (num : Int) (log : Nat) : Bool :=
  match x with
  | finite .. => decide (x.numerator * twoPow log < num * twoPow x.denominatorLog)
  | infinite negative => negative
  | notANumber => false

/-- Whether a double is greater than an integer over a power of two. -/
def gtDyadic (x : Binary64) (num : Int) (log : Nat) : Bool :=
  match x with
  | finite .. => decide (num * twoPow x.denominatorLog < x.numerator * twoPow log)
  | infinite negative => !negative
  | notANumber => false

/-- Order of doubles.  Nothing is below or above what is not a number. -/
def lt (x y : Binary64) : Bool :=
  match y with
  | finite .. => x.ltDyadic y.numerator y.denominatorLog
  | infinite false =>
      match x with
      | finite .. => true
      | infinite negative => negative
      | notANumber => false
  | _ => false

/-! ## Words -/

def toBits : Binary64 → Nat
  | finite negative m e =>
      let sign := if negative then twoPow 63 else 0
      if m < twoPow (precision - 1) then sign + m
      else sign + (e + 1075).toNat * twoPow 52 + (m - twoPow (precision - 1))
  | infinite negative => (if negative then twoPow 63 else 0) + 0x7FF * twoPow 52
  | notANumber => 0x7FF * twoPow 52 + twoPow 51

end Binary64

end InoBlocks
