/-!
# UTF-8

Reading bytes as text.  A refusal names the first byte of the first sequence that is not
well-formed, whatever follows it.
-/

namespace InoBlocks

namespace Text

/-- The byte at which a byte sequence stops being UTF-8, and its offset. -/
structure Utf8Fault where
  byte : UInt8
  offset : Nat
  deriving DecidableEq, Repr

def isContinuation (b : UInt8) : Bool :=
  0x80 ≤ b && b ≤ 0xBF

def continuationBits (b : UInt8) : Nat :=
  b.toNat % 64

/-- What a leading byte demands: how many bytes follow, the bits it carries, and the bounds of
the byte right after it, which rule out overlong forms, surrogates and code points past the
last. -/
def leadingByte (b : UInt8) : Option (Nat × Nat × UInt8 × UInt8) :=
  if b ≤ 0x7F then some (0, b.toNat, 0x80, 0xBF)
  else if 0xC2 ≤ b && b ≤ 0xDF then some (1, b.toNat % 32, 0x80, 0xBF)
  else if b = 0xE0 then some (2, 0, 0xA0, 0xBF)
  else if b = 0xED then some (2, 13, 0x80, 0x9F)
  else if 0xE1 ≤ b && b ≤ 0xEF then some (2, b.toNat % 16, 0x80, 0xBF)
  else if b = 0xF0 then some (3, 0, 0x90, 0xBF)
  else if 0xF1 ≤ b && b ≤ 0xF3 then some (3, b.toNat % 8, 0x80, 0xBF)
  else if b = 0xF4 then some (3, 4, 0x80, 0x8F)
  else none

/-- Read one character after its leading byte has been looked up. -/
def sequence? (more bits : Nat) (low high : UInt8) (rest : List UInt8) : Option Nat :=
  match more with
  | 0 => some bits
  | more + 1 =>
      match rest with
      | [] => none
      | b :: rest =>
          if low ≤ b && b ≤ high then
            sequence? more (bits * 64 + continuationBits b) 0x80 0xBF rest
          else
            none

/-- Read bytes as text; `skip` bytes belong to a character that is already read. -/
def decodeFrom (offset skip : Nat) : List UInt8 → Except Utf8Fault (List Char)
  | [] => .ok []
  | b :: rest =>
      match skip with
      | skip + 1 => decodeFrom (offset + 1) skip rest
      | 0 =>
          match leadingByte b with
          | none => .error ⟨b, offset⟩
          | some (more, bits, low, high) =>
              match sequence? more bits low high rest with
              | none => .error ⟨b, offset⟩
              | some n => (decodeFrom (offset + 1) more rest).map (Char.ofNat n :: ·)

def decodeUtf8 (bytes : List UInt8) : Except Utf8Fault String :=
  (decodeFrom 0 0 bytes).map String.ofList

end Text

end InoBlocks
