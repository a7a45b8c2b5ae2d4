import InoBlocks.Text.Spot

/-!
# Sketch text without its grammar

Taking sketch text apart by brackets, quotes and line ends alone: comments dropped, blanks
squeezed, statements cut from one another, and expressions split at an operator.
-/

namespace InoBlocks

namespace Skim

open Text

/-! ## Comments and blanks -/

/-- Drop line comments; `inside` says that the text begins in one. -/
def dropLineComments (inside : Bool) : List Char → List Char
  | [] => []
  | '/' :: '/' :: cs => dropLineComments true cs
  | c :: cs =>
      if inside && c != '\n' then dropLineComments true cs
      else c :: dropLineComments false cs

/-- Drop block comments that are closed; `inside` says that the text begins in one. -/
def dropBlockComments : (inside : Bool) → List Char → List Char
  | _, [] => []
  | true, '*' :: '/' :: cs => dropBlockComments false cs
  | true, _ :: cs => dropBlockComments true cs
  | false, '/' :: '*' :: cs =>
      if occursIn ['*', '/'] cs then dropBlockComments true cs else '/' :: '*' :: cs
  | false, c :: cs => c :: dropBlockComments false cs

/-- Drop line comments, and then block comments.  Quotes are not looked at. -/
def stripComments (cs : List Char) : List Char :=
  dropBlockComments false (dropLineComments false cs)

/-- The words of a sketch, comments left out, with single blanks between them. -/
def normalize (cs : List Char) : List Char :=
  joinWith [' '] (words (stripComments cs))

def sameWords (first second : List Char) : Bool :=
  normalize first == normalize second

def isTab (c : Char) : Bool :=
  c == ' ' || c == '\t'

/-- Whether nothing but blanks inside a line stands before the next line feed. -/
def reachesLineEnd (cs : List Char) : Bool :=
  (cs.dropWhile isTab).head? == some '\n'

/-- Drop blanks before a line feed and all blanks behind it; `behind` says that the text begins
behind one. -/
def squeezeLines (behind : Bool) : List Char → List Char
  | [] => []
  | c :: cs =>
      if behind && isBlank c then squeezeLines true cs
      else if c == '\n' then '\n' :: squeezeLines true cs
      else if isTab c && reachesLineEnd cs then squeezeLines false cs
      else c :: squeezeLines false cs

def squeezeTabs (cs : List Char) : List Char :=
  (cs.splitBy fun a b => isTab a == isTab b).flatMap fun run =>
    if 2 ≤ run.length && run.all isTab then [' '] else run

/-- A sketch without comments, with single blanks and without empty lines. -/
def clean (cs : List Char) : List Char :=
  trim (squeezeTabs (squeezeLines false (stripComments cs)))

/-- Whether a text names both functions that a sketch must have. -/
def namesEntryPoints (cs : List Char) : Bool :=
  occursIn "void setup()".toList cs && occursIn "void loop()".toList cs

/-! ## Brackets -/

/-- A pair of brackets; one that is missing is never met. -/
structure Brackets where
  opener : Option Char
  closer : Option Char
  deriving DecidableEq, Repr

def braces : Brackets := ⟨some '{', some '}'⟩

def parentheses : Brackets := ⟨some '(', some ')'⟩

/-- The offset of the bracket that closes the first open one.  `depth` counts brackets that are
open, `quote` is the quote that the text begins in.  What stands between quotes does not count. -/
def closingFrom? (b : Brackets) (offset : Nat) (depth : Int) (quote : Option Char) :
    List Char → Option Nat
  | [] => none
  | c :: cs =>
      match quote with
      | some q =>
          if c == '\\' then
            match cs with
            | [] => none
            | _ :: cs => closingFrom? b (offset + 2) depth quote cs
          else
            closingFrom? b (offset + 1) depth (if c == q then none else quote) cs
      | none =>
          if c == '"' || c == '\'' then
            closingFrom? b (offset + 1) depth (some c) cs
          else if b.opener == some c then
            closingFrom? b (offset + 1) (depth + 1) none cs
          else if b.closer == some c then
            if depth = 1 then some offset
            else closingFrom? b (offset + 1) (depth - 1) none cs
          else
            closingFrom? b (offset + 1) depth none cs

/-- The offset of the bracket that closes the first open one. -/
def closing? (b : Brackets) (cs : List Char) : Option Nat :=
  closingFrom? b 0 0 none cs

/-! ## Statements -/

/-- A piece of text in front of others, unless it is blank.  The piece is given back to front. -/
def emit (piece : List Char) (rest : List (List Char)) : List (List Char) :=
  match trim piece.reverse with
  | [] => rest
  | text => text :: rest

/-- The pieces of a text.  A piece ends at a semicolon or a line feed outside of brackets, and at
the brace that closes the outermost one.  `pending` is the piece that is read, back to front. -/
def chunksFrom (pending : List Char) (braces parens : Nat) (quote : Option Char) :
    List Char → List (List Char)
  | [] => emit pending []
  | c :: cs =>
      match quote with
      | some q =>
          if c == '\\' then
            match cs with
            | [] => emit (c :: pending) []
            | d :: cs => chunksFrom (d :: c :: pending) braces parens quote cs
          else
            chunksFrom (c :: pending) braces parens (if c == q then none else quote) cs
      | none =>
          if c == '"' || c == '\'' then chunksFrom (c :: pending) braces parens (some c) cs
          else if c == '(' then chunksFrom (c :: pending) braces (parens + 1) none cs
          else if c == ')' then chunksFrom (c :: pending) braces (parens - 1) none cs
          else if c == '{' then chunksFrom (c :: pending) (braces + 1) parens none cs
          else if c == '}' then
            if braces ≤ 1 then emit (c :: pending) (chunksFrom [] 0 parens none cs)
            else chunksFrom (c :: pending) (braces - 1) parens none cs
          else if (c == ';' || c == '\n') && braces == 0 && parens == 0 then
            emit (c :: pending) (chunksFrom [] 0 0 none cs)
          else
            chunksFrom (c :: pending) braces parens none cs

def chunks (cs : List Char) : List (List Char) :=
  chunksFrom [] 0 0 none cs

/-- Whether a word stands alone at the front of a text. -/
def startsWithWord (word : String) (cs : List Char) : Bool :=
  ((after? word.toList cs).map endsWord).getD false

/-- Whether a word with an open parenthesis stands at the front of a text. -/
def startsHeader (word : String) (cs : List Char) : Bool :=
  ((after? word.toList cs).map fun rest => (trimStart rest).head? == some '(').getD false

def isFinished (cs : List Char) : Bool :=
  match cs.getLast? with
  | some c => c == ';' || c == '}'
  | none => false

/-- Whether a piece goes on with the one behind it: an alternative belongs to the choice before
it, and the header of a statement to what follows. -/
def continues (previous next : List Char) : Bool :=
  (startsWithWord "else" next &&
      (startsWithWord "if" previous || startsWithWord "else" previous)) ||
    (["if", "for", "while"].any (fun word => startsHeader word previous) &&
      !isFinished previous) ||
    (startsWith "else".toList previous && !isFinished previous)

/-- Take up a piece: put it to the last one, the first of the list, or behind it. -/
def mergeStep (done : List (List Char)) (next : List Char) : List (List Char) :=
  match done with
  | [] => [next]
  | previous :: rest =>
      if continues previous next then (previous ++ ' ' :: next) :: rest
      else next :: previous :: rest

def statements (cs : List Char) : List (List Char) :=
  ((chunks cs).foldl mergeStep []).reverse

/-! ## Operators -/

/-- A text split at an operator. -/
structure Split where
  left : List Char
  operator : String
  right : List Char
  deriving DecidableEq, Repr

/-- Whether an operator of one character is part of a longer one. -/
def isDoubled (symbol : String) (before after : Option Char) : Bool :=
  match symbol.toList with
  | [c] => after == some c || after == some '=' || before == some c
  | _ => false

/-- A character that leaves the text before an operator unfinished. -/
def isUnfinished (cs : List Char) : Bool :=
  match cs.getLast? with
  | some c => "+-*/%<>=!&|".toList.contains c
  | none => false

/-- Split at the front of a text, where the text before it is given back to front. -/
def splitHere? (symbols : List String) (before rest : List Char) : Option Split := do
  let (symbol, behind) ← afterAny? symbols rest
  if isDoubled symbol before.head? behind.head? then none
  let left := trim before.reverse
  let right := trim behind
  if left.isEmpty || right.isEmpty || isUnfinished left then none
  else some ⟨left, symbol, right⟩

/-- Split at the first place outside of parentheses and quotes where it is possible. -/
def splitFrom? (symbols : List String) (before : List Char) (depth : Int)
    (quote : Option Char) : List Char → Option Split
  | [] => none
  | c :: cs =>
      match quote with
      | some q =>
          if c == '\\' then
            match cs with
            | [] => none
            | d :: cs => splitFrom? symbols (d :: c :: before) depth quote cs
          else
            splitFrom? symbols (c :: before) depth (if c == q then none else quote) cs
      | none =>
          if c == '"' || c == '\'' then splitFrom? symbols (c :: before) depth (some c) cs
          else if c == '(' then splitFrom? symbols (c :: before) (depth + 1) none cs
          else if c == ')' then splitFrom? symbols (c :: before) (depth - 1) none cs
          else if depth = 0 then
            splitHere? symbols before (c :: cs) <|> splitFrom? symbols (c :: before) depth none cs
          else
            splitFrom? symbols (c :: before) depth none cs

def split? (operators : List (String × String)) (cs : List Char) : Option Split :=
  splitFrom? (operators.map Prod.fst) [] 0 none cs

end Skim

end InoBlocks
