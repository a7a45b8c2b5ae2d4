import InoBlocks.Exchange.Name
import InoBlocks.Number.Digits

/-!
# References

What stands between an ampersand and a semicolon: the code of a character, or a name that stands
for a text.  Five names are known everywhere; the others have to be declared.
-/

namespace InoBlocks

namespace Exchange

/-- The character of a code, if it may stand in XML text. -/
def charOf? (n : Nat) : Option Char :=
  if h : n.isValidChar then
    let c : Char := Char.ofNatAux n h
    if isXmlChar c then some c else none
  else
    none

/-- The code that a number names: decimal digits, or an `x` and digits of base sixteen. -/
def code? (cs : List Char) : Option Nat :=
  match cs with
  | [] => none
  | ['x'] => none
  | 'x' :: digits => (digits.mapM Number.hexValue?).map Number.ofHexDigits
  | digits => if digits.all Char.isDigit then some (Number.value digits) else none

/-- The character of a name that is known everywhere. -/
def predefined? (name : List Char) : Option Char :=
  match String.ofList name with
  | "amp" => some '&'
  | "lt" => some '<'
  | "gt" => some '>'
  | "quot" => some '"'
  | "apos" => some '\''
  | _ => none

/-- A part of a text with references: a character, or a name that stands for something. -/
inductive Part where
  | char (c : Char)
  | named (name : List Char)
  deriving DecidableEq, Repr

namespace Part

/-- What a reference stands for, by what stands between `&` and `;`. -/
def ofReference? (cs : List Char) : Option Part :=
  match cs with
  | '#' :: number => ((code? number).bind charOf?).map char
  | cs => if (name? cs).any (·.2.isEmpty) then some (named cs) else none

/-- A part with the name written out as a reference. -/
def verbatim : Part → List Char
  | char c => [c]
  | named name => '&' :: name ++ [';']

end Part

/-- The parts of a text.  `pending` is the reference that is read, back to front. -/
def partsFrom? (pending : Option (List Char)) : List Char → Option (List Part)
  | [] => if pending.isNone then some [] else none
  | c :: cs =>
      match pending with
      | none =>
          if c == '&' then partsFrom? (some []) cs
          else (partsFrom? none cs).map (.char c :: ·)
      | some reference =>
          if c == ';' then do
            let part ← Part.ofReference? reference.reverse
            return part :: (← partsFrom? none cs)
          else
            partsFrom? (some (c :: reference)) cs

/-- The parts of a text, if all its references are well formed. -/
def parts? (cs : List Char) : Option (List Part) :=
  partsFrom? none cs

/-- The names that a text refers to, wherever the reference stands. -/
def namesIn : List Char → List (List Char)
  | [] => []
  | '&' :: cs =>
      match name? cs with
      | some (name, ';' :: _) => name :: namesIn cs
      | _ => namesIn cs
  | _ :: cs => namesIn cs

end Exchange

end InoBlocks
