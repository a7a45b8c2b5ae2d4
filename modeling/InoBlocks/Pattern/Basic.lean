import InoBlocks.Text.Class

/-!
# Patterns

A pattern stands for several texts: it is put together from classes of characters by sequence,
choice and repetition.  A group remembers the text that it stood for, and conditions look at what
lies around.  `Width` bounds the lengths of the texts that a pattern stands for.
-/

namespace InoBlocks

/-! ## Classes of characters -/

namespace Pattern

/-- A kind of characters. -/
inductive Kind where
  | digit
  | blank
  | word
  deriving DecidableEq, Repr

/-- Whether a character is of a kind, in ASCII alone or in any script. -/
def Kind.holds (ascii : Bool) (c : Char) : Kind → Bool
  | digit => if ascii then c.isDigit else Text.isDecimal c
  | blank => if ascii then c.toNat == 32 || (9 ≤ c.toNat && c.toNat ≤ 13) else Text.isBlank c
  | word => if ascii then Text.isNameChar c else Text.isWord c

/-- A part of a class: the characters of a range, or those that are of a kind or are not. -/
inductive Part where
  | range (low high : Nat)
  | kind (k : Kind) (ascii negated : Bool)
  deriving DecidableEq, Repr

def Part.holds (c : Char) : Part → Bool
  | range low high => decide (low ≤ c.toNat) && decide (c.toNat ≤ high)
  | kind k ascii negated => k.holds ascii c != negated

/-- The letters that differ in case alone and have more than two forms. -/
def caseFamilies : List (List Char) :=
  [['i', 'I', '\u0130', '\u0131'], ['s', 'S', '\u017F'], ['k', 'K', '\u212A']]

/-- A letter in its other cases; a character without any by itself. -/
def caseVariants (c : Char) : List Char :=
  match caseFamilies.find? fun family => family.contains c with
  | some family => family
  | none => [c, c.toLower, c.toUpper]

/-- A class of characters: those in one of its parts, or those in none; if it folds case, a
character counts in all its cases. -/
structure CharClass where
  parts : List Part
  negated : Bool := false
  fold : Bool := false
  deriving DecidableEq, Repr

namespace CharClass

def holds (k : CharClass) (c : Char) : Bool :=
  let variants := if k.fold then caseVariants c else [c]
  (variants.any fun v => k.parts.any (·.holds v)) != k.negated

def ofCode (fold : Bool) (code : Nat) : CharClass :=
  { parts := [.range code code], fold := fold }

/-- The class of all characters, or of all but the line feed. -/
def any (lineFeed : Bool) : CharClass :=
  { parts := if lineFeed then [] else [.range 10 10], negated := true }

end CharClass

/-! ## Conditions and repetition -/

/-- A condition on the place that a match has reached. -/
inductive Edge where
  /-- The start of the text. -/
  | start
  /-- The start of a line. -/
  | lineStart
  /-- The end of the text. -/
  | finish
  /-- The end of the text, or a line feed at that end. -/
  | lastLine
  /-- The end of a line. -/
  | lineFinish
  /-- A place between a word and what is none, or not. -/
  | word (ascii negated : Bool)
  deriving DecidableEq, Repr

/-- How a repetition goes about it. -/
inductive Manner where
  /-- As often as possible first. -/
  | greedy
  /-- As rarely as possible first. -/
  | lazy
  /-- As often as possible, and no other way. -/
  | possessive
  deriving DecidableEq, Repr

/-- Bounds on the length of a text; the greatest may be missing. -/
structure Width where
  least : Nat
  most : Option Nat
  deriving DecidableEq, Repr

namespace Width

def exactly (n : Nat) : Width := ⟨n, some n⟩

def add (a b : Width) : Width :=
  ⟨a.least + b.least, do return (← a.most) + (← b.most)⟩

def either (a b : Width) : Width :=
  ⟨min a.least b.least, do return max (← a.most) (← b.most)⟩

def times (a : Width) (least : Nat) (most : Option Nat) : Width :=
  ⟨a.least * least,
    match a.most, most with
    | some 0, _ => some 0
    | some n, some m => some (n * m)
    | _, _ => none⟩

def isFixed (a : Width) : Bool :=
  a.most == some a.least

end Width

end Pattern

/-! ## Patterns -/

/-- A pattern. -/
inductive Pattern where
  /-- The empty text. -/
  | nothing
  /-- A character of a class. -/
  | one (k : Pattern.CharClass)
  /-- The empty text, at an edge. -/
  | edge (e : Pattern.Edge)
  /-- One pattern behind another. -/
  | seq (first second : Pattern)
  /-- One of two patterns. -/
  | either (first second : Pattern)
  /-- A pattern several times. -/
  | repeated (least : Nat) (most : Option Nat) (manner : Pattern.Manner) (p : Pattern)
  /-- A pattern whose text is remembered under a number. -/
  | group (number : Nat) (p : Pattern)
  /-- A pattern in the first way in which it matches, and no other. -/
  | firstWay (p : Pattern)
  /-- The empty text, in front of a pattern or not. -/
  | ahead (negated : Bool) (p : Pattern)
  /-- The empty text, behind a pattern or not. -/
  | behind (negated : Bool) (p : Pattern)
  /-- The text of a group once more. -/
  | again (number : Nat) (fold : Bool) (width : Pattern.Width)
  /-- One pattern if a group has a text, and else another. -/
  | whether (number : Nat) (yes no : Pattern)
  deriving DecidableEq, Repr

namespace Pattern

/-- Bounds on the lengths of the texts that a pattern stands for. -/
def width : Pattern → Width
  | nothing | edge _ | ahead .. | behind .. => .exactly 0
  | one _ => .exactly 1
  | seq p q => p.width.add q.width
  | either p q | whether _ p q => p.width.either q.width
  | repeated least most _ p => p.width.times least most
  | group _ p | firstWay p => p.width
  | again _ _ w => w

/-- Whether what a pattern looks back at is always of one length. -/
def looksBackFixed : Pattern → Bool
  | nothing | one _ | edge _ | again .. => true
  | seq p q | either p q | whether _ p q => p.looksBackFixed && q.looksBackFixed
  | repeated _ _ _ p | group _ p | firstWay p | ahead _ p => p.looksBackFixed
  | behind _ p => p.width.isFixed && p.looksBackFixed

end Pattern

end InoBlocks
