/-!
# Text for a screen

What is left of a text when it is shown: the sequences that would control the screen are left out.
-/

namespace InoBlocks

namespace CommandLine

def escapeSign : Char := '\x1b'

/-- Whether a character can stand between the front of a sequence and its last letter. -/
def isParameter (c : Char) : Bool :=
  c.isDigit || c == ';' || c == '?'

/-- The number of characters up to the letter that ends a sequence, that letter included. -/
def parametersLength? : List Char → Option Nat
  | [] => none
  | c :: cs =>
      if c.isAlpha then some 1
      else if isParameter c then (parametersLength? cs).map (· + 1)
      else none

/-- The number of characters of the sequence at the front of a text behind its first one. -/
def sequenceLength? : List Char → Option Nat
  | c :: '[' :: cs => if c == escapeSign then (parametersLength? cs).map (· + 1) else none
  | _ => none

/-- A text without its sequences, from behind some characters of one that is being left out. -/
def stripFrom (skipped : Nat) : List Char → List Char
  | [] => []
  | c :: cs =>
      match skipped with
      | skipped + 1 => stripFrom skipped cs
      | 0 =>
          match sequenceLength? (c :: cs) with
          | some length => stripFrom length cs
          | none => c :: stripFrom 0 cs

def shown (s : String) : String :=
  String.ofList (stripFrom 0 s.toList)

end CommandLine

end InoBlocks
