import InoBlocks.Pattern.Basic

/-!
# Matching

Whether a text, from some place on, is one that a pattern stands for.  Of several ways to match
the first one counts for which the rest can match too, so that a match goes on with what is to
follow it.
-/

namespace InoBlocks

namespace Pattern

/-- How far a match has come: the text before, back to front, the text that is left, the number
of characters before, and the texts of the groups, the latest first. -/
structure Reach where
  before : List Char
  rest : List Char
  offset : Nat
  groups : List (Nat × List Char)
  deriving DecidableEq, Repr

namespace Reach

def start (cs : List Char) : Reach := ⟨[], cs, 0, []⟩

def forward? (r : Reach) : Option (Char × Reach) :=
  match r.rest with
  | [] => none
  | c :: cs => some (c, { r with before := c :: r.before, rest := cs, offset := r.offset + 1 })

def back? : Nat → Reach → Option Reach
  | 0, r => some r
  | n + 1, r =>
      match r.before with
      | [] => none
      | c :: cs => back? n { r with before := cs, rest := c :: r.rest, offset := r.offset - 1 }

def upTo (first last : Reach) : List Char :=
  (last.before.take (last.offset - first.offset)).reverse

def group? (r : Reach) (number : Nat) : Option (List Char) :=
  r.groups.lookup number

/-- Whether one side of a place is part of a word and the other is none.  In an empty text no
place is. -/
def isWordEdge (ascii : Bool) (r : Reach) : Bool :=
  let inWord (c : Option Char) : Bool := c.any (Kind.word.holds ascii ·)
  inWord r.before.head? != inWord r.rest.head?

def isAt (r : Reach) : Edge → Bool
  | .start => r.before.isEmpty
  | .lineStart => r.before.isEmpty || r.before.head? == some '\n'
  | .finish => r.rest.isEmpty
  | .lastLine => r.rest.isEmpty || r.rest == ['\n']
  | .lineFinish => r.rest.isEmpty || r.rest.head? == some '\n'
  | .word ascii negated =>
      !(r.before.isEmpty && r.rest.isEmpty) && r.isWordEdge ascii != negated

def past? (fold : Bool) : List Char → Reach → Option Reach
  | [], r => some r
  | c :: cs, r =>
      r.forward?.bind fun (d, r) =>
        if c == d || (fold && (caseVariants c).contains d) then past? fold cs r else none

end Reach

abbrev Then := Reach → Option Reach

/-! ## Repetition -/

/-- Bounds on how often something is repeated. -/
structure Times where
  least : Nat
  most : Option Nat

def Times.allowMore (t : Times) (count : Nat) : Bool :=
  t.most.all fun n => decide (count < n)

/-- Repeat a step as often as possible, then as it must be.  Beyond the times that it is needed, a
step is not repeated from the place from which it was repeated last. -/
def greedily (step : Then → Then) (t : Times) (next : Then) :
    (fuel count : Nat) → Option Nat → Then
  | 0, _, _, _ => none
  | fuel + 1, count, last, r =>
      if count < t.least then
        step (greedily step t next fuel (count + 1) last) r
      else
        (if t.allowMore count && last != some r.offset then
          step (greedily step t next fuel (count + 1) (some r.offset)) r
        else
          none) <|> next r

/-- Repeat a step as it is needed, and then as often as it must be. -/
def lazily (step : Then → Then) (t : Times) (next : Then) :
    (fuel count : Nat) → Option Nat → Then
  | 0, _, _, _ => none
  | fuel + 1, count, last, r =>
      if count < t.least then
        step (lazily step t next fuel (count + 1) last) r
      else
        next r <|>
          (if t.allowMore count && last != some r.offset then
            step (lazily step t next fuel (count + 1) (some r.offset)) r
          else
            none)

/-- Repeat a step in one manner.  Each time that is not needed takes characters, which bounds
them. -/
def repeating (step : Then → Then) (t : Times) (manner : Manner) (next : Then) : Then := fun r =>
  let fuel := t.least + r.rest.length + 2
  match manner with
  | .greedy => greedily step t next fuel 0 none r
  | .lazy => lazily step t next fuel 0 none r
  | .possessive =>
      (greedily (fun next r => (step some r).bind next) t some fuel 0 none r).bind next

/-! ## Matching -/

/-- Match a pattern from a place on, and go on with what is to follow. -/
def run : Pattern → Then → Then
  | .nothing, next, r => next r
  | .one k, next, r => r.forward?.bind fun (c, further) => if k.holds c then next further else none
  | .edge e, next, r => if r.isAt e then next r else none
  | .seq p q, next, r => p.run (q.run next) r
  | .either p q, next, r => p.run next r <|> q.run next r
  | .repeated least most manner p, next, r => repeating p.run ⟨least, most⟩ manner next r
  | .group number p, next, r =>
      p.run (fun last => next { last with groups := (number, r.upTo last) :: last.groups }) r
  | .firstWay p, next, r => (p.run some r).bind next
  | .ahead negated p, next, r =>
      match p.run some r, negated with
      | some there, false => next { r with groups := there.groups }
      | none, true => next r
      | _, _ => none
  | .behind negated p, next, r =>
      match (Reach.back? p.width.least r).bind (p.run some), negated with
      | some there, false => next { r with groups := there.groups }
      | none, true => next r
      | _, _ => none
  | .again number fold _, next, r =>
      (r.group? number).bind fun text => (Reach.past? fold text r).bind next
  | .whether number yes no, next, r =>
      if (r.group? number).isSome then yes.run next r else no.run next r

/-- The end of the first match that begins behind a text, given back to front. -/
def findFrom? (p : Pattern) (before : List Char) (offset : Nat) : List Char → Option Reach
  | [] => p.run some ⟨before, [], offset, []⟩
  | c :: cs =>
      p.run some ⟨before, c :: cs, offset, []⟩ <|> findFrom? p (c :: before) (offset + 1) cs

/-- The end of the first match of a pattern in a text. -/
def find? (p : Pattern) (cs : List Char) : Option Reach :=
  findFrom? p [] 0 cs

end Pattern

end InoBlocks
