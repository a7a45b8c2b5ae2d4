import InoBlocks.Text.Trim

/-!
# Spots in a text

Patterns are looked for at the spots of a text: its characters, each with the text from there on
and whether a word is running into it.
-/

namespace InoBlocks

namespace Text

/-- A character of a text, by its offset, and what lies around it. -/
structure Spot where
  offset : Nat
  /-- Whether the character before is part of a word. -/
  afterWord : Bool
  /-- The text from here on. -/
  rest : List Char
  deriving DecidableEq, Repr

/-- The spots of a text whose first character has a given offset. -/
def spotsFrom (offset : Nat) (afterWord : Bool) : List Char → List Spot
  | [] => []
  | c :: cs => ⟨offset, afterWord, c :: cs⟩ :: spotsFrom (offset + 1) (isWord c) cs

def spots (cs : List Char) : List Spot :=
  spotsFrom 0 false cs

def Spot.isWordStart (s : Spot) : Bool :=
  !s.afterWord

/-- What was found at a spot. -/
structure Hit (α : Type) where
  start : Nat
  stop : Nat
  value : α

/-- The hits of a pattern from left to right, none of which begins inside another.  A pattern
gives what it found and the text behind it. -/
def hits {α : Type} (found? : Spot → Option (α × List Char)) (cs : List Char) : List (Hit α) :=
  let step (state : Nat × List (Hit α)) (s : Spot) : Nat × List (Hit α) :=
    if s.offset < state.1 then
      state
    else
      match found? s with
      | none => state
      | some (a, rest) =>
          let stop := s.offset + (s.rest.length - rest.length)
          (stop, ⟨s.offset, stop, a⟩ :: state.2)
  ((spots cs).foldl step (0, [])).2.reverse

/-! ## Parts of patterns -/

def after? (front : List Char) (cs : List Char) : Option (List Char) :=
  if startsWith front cs then some (cs.drop front.length) else none

/-- The text behind one of several fronts, the first that fits, with that front. -/
def afterAny? (fronts : List String) (cs : List Char) : Option (String × List Char) :=
  fronts.findSome? fun front => (after? front.toList cs).map fun rest => (front, rest)

def afterBlanks? (cs : List Char) : Option (List Char) :=
  match cs with
  | c :: rest => if isBlank c then some (trimStart rest) else none
  | [] => none

def endsWord : List Char → Bool
  | [] => true
  | c :: _ => !isWord c

/-- A name at the front of a text, and the text behind it. -/
def spanName? (cs : List Char) : Option (List Char × List Char) :=
  match cs with
  | c :: rest =>
      if isNameStart c then some (c :: rest.takeWhile isWord, rest.dropWhile isWord) else none
  | [] => none

end Text

end InoBlocks
