import InoBlocks.Text.Class

/-!
# Trimming and cutting

Blank space at the ends of a text, and the pieces of a text between separators.  All of it works
on lists of characters; `trimmed` is the form for strings.
-/

namespace InoBlocks

namespace Text

/-! ## Ends -/

def trimStart (cs : List Char) : List Char :=
  cs.dropWhile isBlank

def trimEnd : List Char → List Char
  | [] => []
  | c :: cs =>
      match trimEnd cs with
      | [] => if isBlank c then [] else [c]
      | d :: ds => c :: d :: ds

def trim (cs : List Char) : List Char :=
  trimEnd (trimStart cs)

def trimmed (s : String) : String :=
  String.ofList (trim s.toList)

def isAllBlank (cs : List Char) : Bool :=
  cs.all isBlank

theorem trimEnd_eq_nil_iff (cs : List Char) : trimEnd cs = [] ↔ isAllBlank cs = true := by
  induction cs with
  | nil => simp [trimEnd, isAllBlank]
  | cons c cs ih =>
      simp only [trimEnd, isAllBlank, List.all_cons] at *
      cases h : trimEnd cs with
      | nil =>
          have hall : cs.all isBlank = true := ih.1 h
          by_cases hc : isBlank c <;> simp [hc, hall]
      | cons d ds =>
          have hall : ¬ cs.all isBlank = true := fun hall => by
            have := ih.2 hall
            rw [h] at this
            cases this
          simp [hall]

/-! ## Separators -/

/-- The pieces of a text between the characters of a class, separators left out.  A text with
`n` separators has `n + 1` pieces. -/
def cut (separates : Char → Bool) : List Char → List (List Char)
  | [] => [[]]
  | c :: cs =>
      if separates c then
        [] :: cut separates cs
      else
        match cut separates cs with
        | [] => [[c]]
        | piece :: pieces => (c :: piece) :: pieces

theorem cut_ne_nil (separates : Char → Bool) (cs : List Char) : cut separates cs ≠ [] := by
  cases cs with
  | nil => simp [cut]
  | cons c cs =>
      simp only [cut]
      split
      · simp
      · split <;> simp

/-- The words of a text: what stands between runs of blanks. -/
def words (cs : List Char) : List (List Char) :=
  (cut isBlank cs).filter fun word => !word.isEmpty

/-- Pieces put together with a separator between neighbours. -/
def joinWith (separator : List Char) : List (List Char) → List Char
  | [] => []
  | [piece] => piece
  | piece :: pieces => piece ++ separator ++ joinWith separator pieces

/-! ## Search -/

/-- Whether one text stands at the front of another. -/
def startsWith (pattern cs : List Char) : Bool :=
  pattern.isPrefixOf cs

def occursIn (pattern : List Char) : List Char → Bool
  | [] => pattern.isEmpty
  | c :: cs => startsWith pattern (c :: cs) || occursIn pattern cs

end Text

end InoBlocks
