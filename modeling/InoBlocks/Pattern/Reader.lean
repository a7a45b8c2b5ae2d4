import InoBlocks.Number.Digits
import InoBlocks.Pattern.Basic

/-!
# How patterns are written

A pattern as it is typed: most characters stand for themselves, `.`, `[...]` and escapes for
classes, `^` and `$` for edges, `|` for a choice, `*`, `+`, `?` and `{m,n}` for repetition, and
parentheses for groups of many kinds.  The settings of a group hold inside of it.  There are no
settings for a whole pattern: they could only stand in front of it.
-/

namespace InoBlocks

namespace Pattern

/-- Why a text is no pattern. -/
inductive ReadFault where
  /-- It is not well formed. -/
  | malformed
  /-- It asks for too many repetitions. -/
  | tooOften
  deriving DecidableEq, Repr

/-- The settings under which a part of a pattern is read. -/
structure Settings where
  /-- Letters count in all cases. -/
  fold : Bool := false
  /-- Edges are those of lines. -/
  lines : Bool := false
  /-- A dot stands for a line feed too. -/
  lineFeeds : Bool := false
  /-- Blanks and comments are left out. -/
  spaced : Bool := false
  /-- Kinds of characters are those of ASCII. -/
  ascii : Bool := false
  deriving DecidableEq, Repr

/-- What is left of a pattern, and what is known of its groups so far. -/
structure Reading where
  rest : List Char
  /-- How many groups have been opened. -/
  opened : Nat := 0
  names : List (String × Nat) := []
  /-- The groups that are closed, with the widths of their texts. -/
  closed : List (Nat × Width) := []
  /-- Inside of what is looked back at: how many groups had been opened in front of it. -/
  openedBefore : Option Nat := none
  /-- The greatest number of a group that a choice depends on. -/
  asked : Nat := 0

abbrev Read := StateT Reading (Except ReadFault)

def fail {α : Type} : Read α :=
  throw .malformed

def demand (condition : Bool) : Read Unit :=
  if condition then pure () else fail

def peek : Read (Option Char) := do
  return (← get).rest.head?

def accept (text : List Char) : Read Bool := do
  let r ← get
  if text.isPrefixOf r.rest then
    set { r with rest := r.rest.drop text.length }
    return true
  else
    return false

def expect (text : List Char) : Read Unit := do
  demand (← accept text)

def take : Read Char := do
  let r ← get
  match r.rest with
  | c :: cs =>
      set { r with rest := cs }
      return c
  | [] => fail

/-- The next characters, as long as they are of a class, and at most so many. -/
def takeWhile (most : Nat) (holds : Char → Bool) : Read (List Char) := do
  let r ← get
  let taken := (r.rest.take most).takeWhile holds
  set { r with rest := r.rest.drop taken.length }
  return taken

/-- A text as far as a character, and from there on.  A character behind a backslash is not the
one that is looked for. -/
def splitAt (stop : Char) : List Char → List Char × List Char
  | [] => ([], [])
  | '\\' :: c :: cs => ('\\' :: c :: (splitAt stop cs).1, (splitAt stop cs).2)
  | c :: cs =>
      if c == stop then ([], c :: cs) else (c :: (splitAt stop cs).1, (splitAt stop cs).2)

/-- What comes before a character, which is passed too. -/
def takeUpTo (stop : Char) : Read (List Char) := do
  let r ← get
  let (taken, rest) := splitAt stop r.rest
  set { r with rest := rest }
  expect [stop]
  return taken

/-! ## Escapes -/

def isOctal (c : Char) : Bool :=
  '0' ≤ c && c ≤ '7'

def octalValue (cs : List Char) : Nat :=
  (Number.digitValues cs).foldl (fun n d => n * 8 + d) 0

/-- A code of exactly so many digits of base sixteen. -/
def readHex (digits : Nat) : Read Nat := do
  let taken ← takeWhile digits fun c => (Number.hexValue? c).isSome
  demand (taken.length == digits)
  let code := Number.ofHexDigits (taken.filterMap Number.hexValue?)
  demand (code ≤ 0x10FFFF)
  return code

/-- The control characters with an escape of their own. -/
def controlCode? : Char → Option Nat
  | 'a' => some 7
  | 'f' => some 12
  | 'n' => some 10
  | 'r' => some 13
  | 't' => some 9
  | 'v' => some 11
  | _ => none

/-- The kinds of characters with an escape of their own; a capital stands for the others. -/
def kindPart? (ascii : Bool) : Char → Option Part
  | 'd' => some (.kind .digit ascii false)
  | 'D' => some (.kind .digit ascii true)
  | 's' => some (.kind .blank ascii false)
  | 'S' => some (.kind .blank ascii true)
  | 'w' => some (.kind .word ascii false)
  | 'W' => some (.kind .word ascii true)
  | _ => none

/-- The code that an escape stands for, by its first character, digits of base ten apart. -/
def readCode (c : Char) : Read Nat := do
  match controlCode? c, c with
  | some code, _ => return code
  | none, 'x' => readHex 2
  | none, 'u' => readHex 4
  | none, 'U' => readHex 8
  | none, _ =>
      demand (!c.isAlphanum)
      return c.toNat

/-- A code of up to three digits of base eight, the first of which is given. -/
def readOctal (first : Char) : Read Nat := do
  let code := octalValue (first :: (← takeWhile 2 isOctal))
  demand (code ≤ 0xFF)
  return code

def readClassEscape (s : Settings) : Read Part := do
  let c ← take
  match kindPart? s.ascii c with
  | some part => return part
  | none =>
      let code ← if c == 'b' then pure 8 else if isOctal c then readOctal c else readCode c
      return .range code code

/-- The text of a group once more, if the group is closed and may be referred to here. -/
def readAgain (s : Settings) (number : Nat) : Read Pattern := do
  let r ← get
  match r.closed.lookup number with
  | some width =>
      demand (r.openedBefore.all fun n => decide (number ≤ n))
      return .again number s.fold width
  | none => fail

/-- An escape that begins with a digit other than zero: a code of three digits of base eight, or
else the number of a group. -/
def readNumberEscape (s : Settings) (first : Char) : Read Pattern := do
  let more ← takeWhile 1 Char.isDigit
  let third ←
    if (first :: more).all isOctal && !more.isEmpty then takeWhile 1 isOctal else pure []
  if third.isEmpty then
    readAgain s (Number.value (first :: more))
  else
    let code := octalValue (first :: more ++ third)
    demand (code ≤ 0xFF)
    return .one (.ofCode s.fold code)

def edge? (ascii : Bool) : Char → Option Edge
  | 'A' => some .start
  | 'Z' => some .finish
  | 'b' => some (.word ascii false)
  | 'B' => some (.word ascii true)
  | _ => none

def readEscape (s : Settings) : Read Pattern := do
  let c ← take
  match edge? s.ascii c, kindPart? s.ascii c with
  | some e, _ => return .edge e
  | none, some part => return .one { parts := [part], fold := s.fold }
  | none, none =>
      if c == '0' then
        return .one (.ofCode s.fold (octalValue (← takeWhile 2 isOctal)))
      else if c.isDigit then
        readNumberEscape s c
      else
        return .one (.ofCode s.fold (← readCode c))

/-! ## Classes -/

/-- A member of a class whose first character is given. -/
def readMember (s : Settings) (c : Char) : Read Part :=
  if c == '\\' then readClassEscape s else pure (.range c.toNat c.toNat)

/-- The range between two members of a class, which must be single characters. -/
def rangeBetween : Part → Part → Read Part
  | .range low low', .range high high' => do
      demand (low == low' && high == high' && decide (low ≤ high))
      return .range low high
  | _, _ => fail

/-- The members of a class up to its end.  A bracket in front of all others is one of them.  Each
takes characters, which bounds them. -/
def readMembers (s : Settings) : (fuel : Nat) → List Part → Read (List Part)
  | 0, _ => fail
  | fuel + 1, done => do
      let c ← take
      if c == ']' && !done.isEmpty then
        return done
      else
        let first ← readMember s c
        if ← accept ['-'] then
          let d ← take
          if d == ']' then
            return done ++ [first, .range '-'.toNat '-'.toNat]
          else
            let last ← readMember s d
            readMembers s fuel (done ++ [← rangeBetween first last])
        else
          readMembers s fuel (done ++ [first])

def readClass (s : Settings) : Read Pattern := do
  let negated ← accept ['^']
  let parts ← readMembers s ((← get).rest.length + 1) []
  return .one { parts := parts, negated := negated, fold := s.fold }

/-! ## Repetition -/

/-- The number of repetitions from which on there are too many. -/
def maxTimes : Nat := 4294967295

def timesOf (digits : List Char) : Read (Option Nat) :=
  if digits.isEmpty then return none
  else if maxTimes ≤ Number.value digits then throw .tooOften
  else return some (Number.value digits)

/-- The bounds of a repetition behind its brace, if they are there. -/
def readBounds? : Read (Option (List Char × List Char)) := do
  let r ← get
  let least ← takeWhile r.rest.length Char.isDigit
  let most ← if ← accept [','] then takeWhile r.rest.length Char.isDigit else pure least
  if r.rest.head? != some '}' && (← accept ['}']) then
    return some (least, most)
  else
    set r
    return none

/-- How often what stands before a sign is repeated, if the sign is one of repetition. -/
def readTimes? (sign : Char) : Read (Option (Nat × Option Nat)) := do
  match sign with
  | '*' => return some (0, none)
  | '+' => return some (1, none)
  | '?' => return some (0, some 1)
  | '{' =>
      match ← readBounds? with
      | none => return none
      | some (least, most) =>
          let least := (← timesOf least).getD 0
          let most ← timesOf most
          demand (most.all fun n => decide (least ≤ n))
          return some (least, most)
  | _ => return none

def readManner : Read Manner := do
  if ← accept ['?'] then return .lazy
  else if ← accept ['+'] then return .possessive
  else return .greedy

/-- Whether what has been read can be repeated. -/
inductive Repeatable where
  | yes
  | no
  deriving DecidableEq, Repr

/-- A part of a sequence. -/
structure Item where
  pattern : Pattern
  repeatable : Repeatable := .yes

/-- The last part of a sequence, given back to front, repeated. -/
def repeatLast (least : Nat) (most : Option Nat) : List Item → Read (List Item)
  | ⟨p, .yes⟩ :: done => do
      return ⟨.repeated least most (← readManner) p, .no⟩ :: done
  | _ => fail

/-- The parts of a sequence, given back to front, as one pattern. -/
def sequence (items : List Item) : Pattern :=
  items.foldl (fun behind i => .seq i.pattern behind) .nothing

/-! ## Groups -/

/-- A letter of the settings: whether it may be taken back, and the settings with it on or off. -/
def settingOf? (on : Bool) (s : Settings) : Char → Option Settings
  | 'i' => some { s with fold := on }
  | 'm' => some { s with lines := on }
  | 's' => some { s with lineFeeds := on }
  | 'x' => some { s with spaced := on }
  | 'a' => if on then some { s with ascii := true } else none
  | 'u' => if on then some { s with ascii := false } else none
  | _ => none

def withLetters (on : Bool) (s : Settings) (letters : List Char) : Option Settings :=
  letters.foldlM (fun s c => settingOf? on s c) s

/-- The settings of a group, up to the colon behind them. -/
def readSettings (s : Settings) : Read Settings := do
  let on ← takeWhile (← get).rest.length Char.isAlpha
  let takesBack ← accept ['-']
  let off ← if takesBack then takeWhile (← get).rest.length Char.isAlpha else pure []
  demand (!(takesBack && off.isEmpty) && !(on.contains 'a' && on.contains 'u') &&
    !on.any off.contains)
  expect [':']
  match (withLetters true s on).bind fun s => withLetters false s off with
  | some s => return s
  | none => fail

/-- The name of a group, up to a character behind it. -/
def readName (stop : Char) : Read String := do
  let name ← takeUpTo stop
  match name with
  | c :: cs =>
      demand (Text.isWord c && !Text.isDecimal c && cs.all Text.isWord)
      return String.ofList name
  | [] => fail

/-- The number of the group that a choice depends on. -/
def readAsked : Read Nat := do
  let name ← takeUpTo ')'
  let r ← get
  let number :=
    if !name.isEmpty && name.all Char.isDigit then Number.value name
    else (r.names.lookup (String.ofList name)).getD 0
  demand (number != 0)
  demand (r.openedBefore.all fun n => (r.closed.lookup number).isSome && decide (number ≤ n))
  set { r with asked := max r.asked number }
  return number

def openGroup (name : Option String) : Read Nat := do
  let r ← get
  let number := r.opened + 1
  demand (name.all fun n => (r.names.lookup n).isNone)
  set { r with
    opened := number
    names := (name.map fun n => (n, number)).toList ++ r.names }
  return number

def closeGroup (number : Nat) (p : Pattern) : Read Unit :=
  modify fun r => { r with closed := (number, p.width) :: r.closed }

/-- Pass a blank or a comment, where they are left out. -/
def passSpace (s : Settings) : Read Bool := do
  let r ← get
  match s.spaced, r.rest with
  | true, '#' :: cs =>
      set { r with rest := (cs.dropWhile (· != '\n')).drop 1 }
      return true
  | true, c :: cs =>
      if c.toNat == 32 || (9 ≤ c.toNat && c.toNat ≤ 13) then
        set { r with rest := cs }
        return true
      else
        return false
  | _, _ => return false

/-- A character that is no sign of its own, or one that is: a class, an edge, or an escape. -/
def readSingle (s : Settings) (c : Char) : Read Item :=
  match c with
  | '\\' => do
      let p ← readEscape s
      return ⟨p, if p matches .edge _ then .no else .yes⟩
  | '[' => do return { pattern := ← readClass s }
  | '.' => return { pattern := .one (.any s.lineFeeds) }
  | '^' => return ⟨.edge (if s.lines then .lineStart else .start), .no⟩
  | '$' => return ⟨.edge (if s.lines then .lineFinish else .lastLine), .no⟩
  | c => return { pattern := .one (.ofCode s.fold c.toNat) }

mutual

/-- Alternatives, up to a parenthesis or the end.  Fuel is spent on every part, and each takes
characters. -/
def readChoice : (fuel : Nat) → Settings → Read Pattern
  | 0, _ => fail
  | fuel + 1, s => do
      let first ← readSequence fuel s []
      if ← accept ['|'] then
        return .either first (← readChoice fuel s)
      else
        return first

/-- A sequence, up to a bar, a parenthesis or the end; `done` is what has been read of it, back to
front. -/
def readSequence : (fuel : Nat) → Settings → List Item → Read Pattern
  | 0, _, _ => fail
  | fuel + 1, s, done => do
      match ← peek with
      | none | some '|' | some ')' => return sequence done
      | some c =>
          if ← passSpace s then
            readSequence fuel s done
          else
            let _ ← take
            match ← readTimes? c with
            | some (least, most) => readSequence fuel s (← repeatLast least most done)
            | none =>
                if c == '(' then
                  let group ← readGroup fuel s
                  readSequence fuel s (group.toList ++ done)
                else
                  readSequence fuel s ((← readSingle s c) :: done)

/-- A group behind its parenthesis; a comment is none. -/
def readGroup : (fuel : Nat) → Settings → Read (Option Item)
  | 0, _ => fail
  | fuel + 1, s => do
      if ← accept ['?', '#'] then
        let _ ← takeUpTo ')'
        return none
      else if ← accept ['?', 'P', '='] then
        let name ← readName ')'
        match (← get).names.lookup name with
        | some number => return some { pattern := ← readAgain s number }
        | none => fail
      else if ← accept ['?', '('] then
        let number ← readAsked
        let yes ← readSequence fuel s []
        let no ← if ← accept ['|'] then readSequence fuel s [] else pure .nothing
        expect [')']
        return some { pattern := .whether number yes no }
      else if ← accept ['?', '<', '='] then
        return some { pattern := .behind false (← readBehind fuel s) }
      else if ← accept ['?', '<', '!'] then
        return some { pattern := .behind true (← readBehind fuel s) }
      else if ← accept ['?', '='] then
        return some { pattern := .ahead false (← readInside fuel s) }
      else if ← accept ['?', '!'] then
        return some { pattern := .ahead true (← readInside fuel s) }
      else if ← accept ['?', '>'] then
        return some { pattern := .firstWay (← readInside fuel s) }
      else if ← accept ['?', 'P', '<'] then
        readNumbered fuel s (some (← readName '>'))
      else if ← accept ['?'] then
        return some { pattern := ← readInside fuel (← readSettings s) }
      else
        readNumbered fuel s none

/-- The inside of a group, and the parenthesis behind it. -/
def readInside : (fuel : Nat) → Settings → Read Pattern
  | 0, _ => fail
  | fuel + 1, s => do
      let p ← readChoice fuel s
      expect [')']
      return p

def readBehind : (fuel : Nat) → Settings → Read Pattern
  | 0, _ => fail
  | fuel + 1, s => do
      let outer := (← get).openedBefore
      modify fun r => { r with openedBefore := some (outer.getD r.opened) }
      let p ← readChoice fuel s
      modify fun r => { r with openedBefore := outer }
      expect [')']
      return p

def readNumbered : (fuel : Nat) → Settings → Option String → Read (Option Item)
  | 0, _, _ => fail
  | fuel + 1, s, name => do
      let number ← openGroup name
      let p ← readInside fuel s
      closeGroup number p
      return some { pattern := .group number p }

end

def readWhole : Read Pattern := do
  let p ← readChoice (6 * (← get).rest.length + 6) {}
  let r ← get
  demand (r.rest.isEmpty && r.asked ≤ r.opened && p.looksBackFixed)
  return p

def read (cs : List Char) : Except ReadFault Pattern :=
  (readWhole.run { rest := cs }).map Prod.fst

end Pattern

end InoBlocks
