import InoBlocks.Fault
import InoBlocks.Token

/-!
# Reading tokens

Steps over a list of tokens.  A step that fails leaves the tokens where it failed, because
recovery goes on from there.  The token that marks the end of the input is never consumed.
-/

namespace InoBlocks

/-- Why reading stops. -/
inductive Stop where
  /-- Tokens that fit no rule; reading can go on at the next statement. -/
  | misread (fault : Fault)
  /-- A number token whose spelling is no number. -/
  | unreadable (text : String)
  /-- More faults than are tolerated. -/
  | exhausted
  deriving DecidableEq, Repr

abbrev Read := EStateM Stop (List Token)

namespace Read

def kindAt (ahead : Nat) (ts : List Token) : TokenKind :=
  match ts[ahead]? with
  | some t => t.kind
  | none => .endOfInput

def peek : Read Token := fun ts => .ok (ts.headD default) ts

def peekKind (ahead : Nat) : Read TokenKind := fun ts => .ok (kindAt ahead ts) ts

def remaining : Read Nat := fun ts => .ok ts.length ts

def advance : Read Token
  | [] => .ok default []
  | t :: ts => if t.kind = .endOfInput then .ok t (t :: ts) else .ok t ts

def accept (wanted : TokenKind → Bool) : Read (Option Token) := do
  if wanted (← peekKind 0) then
    return some (← advance)
  else
    return none

def acceptKind (kind : TokenKind) : Read (Option Token) :=
  accept (· == kind)

def stopAt {α : Type} (cause : Token → Cause) : Read α := do
  let t ← peek
  throw (.misread { cause := cause t, location := some t.location })

/-- A token as the message about a missing token shows it. -/
def describe (t : Token) : String :=
  t.kind.name ++ " '" ++ t.text ++ "'"

/-- A token as the message about an unexpected token shows it: its spelling, or at the end of
the input the name of its kind. -/
def spelling (t : Token) : String :=
  if t.text == "" then t.kind.name else t.text

/-- Consume a token of one kind, or stop and say what had to stand here. -/
def expect (kind : TokenKind) (what : String) : Read Token := do
  if (← peekKind 0) == kind then
    advance
  else
    stopAt fun t => .missingToken what (some (describe t))

def unexpected {α : Type} (expected : String) : Read α :=
  stopAt fun t => .unexpectedToken (spelling t) (some expected)

def advanceMany : Nat → Read (List Token)
  | 0 => return []
  | n + 1 => do
      let t ← advance
      return t :: (← advanceMany n)

/-! ## Types -/

/-- The number of tokens of the type specifier some places ahead, zero if there is none. -/
def typeLength (ahead : Nat) (ts : List Token) : Nat :=
  let kind := kindAt ahead ts
  if kind == .unsigned then
    if (kindAt (ahead + 1) ts).namesType then 2 else 1
  else if kind.namesType then 1
  else 0

def atType : Read Bool := fun ts => .ok (typeLength 0 ts != 0) ts

/-- Read a type specifier; its words are parted by one blank. -/
def typeSpecifier : Read String := do
  let length := typeLength 0 (← get)
  if length = 0 then
    unexpected "type name"
  else
    return " ".intercalate ((← advanceMany length).map Token.text)

end Read

end InoBlocks
