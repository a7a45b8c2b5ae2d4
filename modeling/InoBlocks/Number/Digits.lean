/-!
# Decimal digits

Natural numbers as digits and back, for ASCII digits, most significant first.
-/

namespace InoBlocks

namespace Number

def digits (n : Nat) : List Char :=
  Nat.toDigits 10 n

def decimal (n : Nat) : String :=
  String.ofList (digits n)

def signedDecimal : Int → String
  | .ofNat n => decimal n
  | .negSucc n => "-" ++ decimal (n + 1)

def ofDigits (values : List Nat) : Nat :=
  values.foldl (fun n d => n * 10 + d) 0

def hexValue? (c : Char) : Option Nat :=
  if c.isDigit then some (c.toNat - '0'.toNat)
  else if 'a' ≤ c && c ≤ 'f' then some (c.toNat - 'a'.toNat + 10)
  else if 'A' ≤ c && c ≤ 'F' then some (c.toNat - 'A'.toNat + 10)
  else none

/-- The value of a sequence of digit values of base sixteen. -/
def ofHexDigits (values : List Nat) : Nat :=
  values.foldl (fun n d => n * 16 + d) 0

def digitValues (cs : List Char) : List Nat :=
  cs.map fun c => c.toNat - '0'.toNat

def value (cs : List Char) : Nat :=
  ofDigits (digitValues cs)

end Number

end InoBlocks
