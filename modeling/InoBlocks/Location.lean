import InoBlocks.Number.Digits

/-!
# Places in a sketch

A place is a file name with a line and a column, both counted from one.  A place that comes from
elsewhere may have any numbers.  `Cursor` is a place inside one text together with its offset; it
moves a character at a time.
-/

namespace InoBlocks

/-- A place in a named sketch. -/
structure Location where
  file : String
  line : Int
  column : Int
  deriving DecidableEq, Repr

instance : Inhabited Location := ⟨⟨"<sketch>", 1, 1⟩⟩

def Location.text (l : Location) : String :=
  l.file ++ ":" ++ Number.signedDecimal l.line ++ ":" ++ Number.signedDecimal l.column

/-- A place in one text: the characters before it, and its line and column. -/
structure Cursor where
  offset : Nat
  line : Nat
  column : Nat
  deriving DecidableEq, Repr

namespace Cursor

def start : Cursor := ⟨0, 1, 1⟩

/-- The place after one more character: a line feed opens the next line. -/
def advance (p : Cursor) (c : Char) : Cursor :=
  if c = '\n' then ⟨p.offset + 1, p.line + 1, 1⟩ else ⟨p.offset + 1, p.line, p.column + 1⟩

def advanceAll (p : Cursor) (cs : List Char) : Cursor :=
  cs.foldl advance p

def toLocation (p : Cursor) (file : String) : Location :=
  ⟨file, p.line, p.column⟩

theorem advance_offset (p : Cursor) (c : Char) : (p.advance c).offset = p.offset + 1 := by
  unfold advance
  split <;> rfl

theorem advanceAll_nil (p : Cursor) : p.advanceAll [] = p := rfl

theorem advanceAll_cons (p : Cursor) (c : Char) (cs : List Char) :
    p.advanceAll (c :: cs) = (p.advance c).advanceAll cs := rfl

theorem advanceAll_append (p : Cursor) (cs ds : List Char) :
    p.advanceAll (cs ++ ds) = (p.advanceAll cs).advanceAll ds := by
  simp [advanceAll, List.foldl_append]

theorem advanceAll_offset (p : Cursor) (cs : List Char) :
    (p.advanceAll cs).offset = p.offset + cs.length := by
  induction cs generalizing p with
  | nil => simp [advanceAll_nil]
  | cons c cs ih =>
      rw [advanceAll_cons, ih, advance_offset, List.length_cons]
      omega

end Cursor

end InoBlocks
