import InoBlocks.Number.Binary64

/-!
# Similarity

How far two sequences are apart, and the share in which they agree.  The distance is the least
number of items to insert, delete or replace; it is found row by row, a row for each prefix of
the first sequence and an entry for each prefix of the second.
-/

namespace InoBlocks

namespace Similarity

variable {α : Type} [BEq α]

/-- The rest of a row.  `corner` is the entry above and to the left, `left` the one to the left,
and the row above goes on with `above`. -/
def extendRow (item : α) (corner left : Nat) : List Nat → List α → List Nat
  | up :: above, other :: others =>
      let entry := min (min (up + 1) (left + 1)) (corner + if item == other then 0 else 1)
      entry :: extendRow item up entry above others
  | _, _ => []

def nextRow (second : List α) (row : List Nat) (item : α) : List Nat :=
  match row with
  | [] => []
  | first :: above => (first + 1) :: extendRow item first (first + 1) above second

def firstRow (second : List α) : List Nat :=
  List.range (second.length + 1)

def lastEntry (first second : List α) : Nat :=
  ((first.foldl (nextRow second) (firstRow second)).getLast?).getD 0

/-- The number of items to insert, delete or replace.  The rows are as long as the shorter
sequence. -/
def distance (first second : List α) : Nat :=
  if first.length < second.length then lastEntry second first else lastEntry first second

/-- The share in which two sequences agree, as a percentage. -/
def percent (first second : List α) : Binary64 :=
  let longest := max first.length second.length
  if longest = 0 then Binary64.ofNat 100
  else ((Binary64.ofRatio false (distance first second) longest).oneMinus).scaleBy 100

end Similarity

end InoBlocks
