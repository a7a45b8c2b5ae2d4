import InoBlocks.Number.Binary64
import InoBlocks.Number.Digits

/-!
# The shortest decimal of a double

The digits that name a double are the fewest that read back as that double, and of those the
ones nearest to it.  Everything is exact: the reals that round to a double form an interval with
rational ends, and each candidate is a point of a decimal grid next to the double itself.
-/

namespace InoBlocks

namespace Binary64

/-- A positive rational number. -/
structure Ratio where
  num : Nat
  den : Nat
  deriving DecidableEq, Repr

namespace Ratio

def dyadic (significand : Nat) (exponent : Int) : Ratio :=
  if 0 ≤ exponent then ⟨significand * twoPow exponent.toNat, 1⟩
  else ⟨significand, twoPow (-exponent).toNat⟩

def overTen (r : Ratio) (exponent : Int) : Ratio :=
  if 0 ≤ exponent then ⟨r.num, r.den * tenPow exponent.toNat⟩
  else ⟨r.num * tenPow (-exponent).toNat, r.den⟩

def lt (r s : Ratio) : Bool :=
  decide (r.num * s.den < s.num * r.den)

/-- Whether one rational number is not above another. -/
def le (r s : Ratio) : Bool :=
  decide (r.num * s.den ≤ s.num * r.den)

end Ratio

/-- The reals that round to a double: the two ends, and whether the ends belong to them. -/
structure Interval where
  low : Ratio
  high : Ratio
  closed : Bool

/-- The interval of a positive double.  The neighbour below a power of two is half as far. -/
def interval (significand : Nat) (exponent : Int) : Interval where
  low :=
    if significand == twoPow (precision - 1) && exponent != minExponent then
      Ratio.dyadic (4 * significand - 1) (exponent - 2)
    else
      Ratio.dyadic (2 * significand - 1) (exponent - 1)
  high := Ratio.dyadic (2 * significand + 1) (exponent - 1)
  closed := significand % 2 == 0

/-- Whether `n * 10 ^ exponent` lies in an interval. -/
def Interval.contains (i : Interval) (n : Nat) (exponent : Int) : Bool :=
  let low := i.low.overTen exponent
  let high := i.high.overTen exponent
  let point : Ratio := ⟨n, 1⟩
  if i.closed then low.le point && point.le high else low.lt point && point.lt high

/-- The exponent of ten of the leading digit of a positive rational number no smaller than the
least double. -/
def leadingExponent (r : Ratio) : Int :=
  ((Number.digits (r.num * tenPow 350 / r.den)).length : Int) - 351

/-- The point of a decimal grid that names a double, if one of the double's two neighbours on
that grid reads back: the nearer of them, the even one of two equally near. -/
def onGrid? (value : Ratio) (i : Interval) (exponent : Int) : Option Nat :=
  let scaled := value.overTen exponent
  let below := scaled.num / scaled.den
  let twice := 2 * (scaled.num % scaled.den)
  let belowFits := i.contains below exponent
  let aboveFits := i.contains (below + 1) exponent
  if belowFits && aboveFits then
    if twice < scaled.den || (twice == scaled.den && below % 2 == 0) then some below
    else some (below + 1)
  else if belowFits then some below
  else if aboveFits then some (below + 1)
  else none

/-- Try grids from the given one downward, a digit finer each time. -/
def searchGrids (value : Ratio) (i : Interval) : (fuel : Nat) → (exponent : Int) → Nat × Int
  | 0, exponent => (0, exponent)
  | fuel + 1, exponent =>
      match onGrid? value i exponent with
      | some n => (n, exponent)
      | none => searchGrids value i fuel (exponent - 1)

def dropZeros : (fuel : Nat) → Nat → Int → Nat × Int
  | 0, n, exponent => (n, exponent)
  | fuel + 1, n, exponent =>
      if n % 10 == 0 && n != 0 then dropZeros fuel (n / 10) (exponent + 1) else (n, exponent)

/-- The shortest decimal of a positive double: an integer and the power of ten it is taken
times.  Seventeen digits always suffice. -/
def shortest (significand : Nat) (exponent : Int) : Nat × Int :=
  let value := Ratio.dyadic significand exponent
  let found := searchGrids value (interval significand exponent) 18 (leadingExponent value)
  dropZeros 20 found.1 found.2

end Binary64

end InoBlocks
