import InoBlocks.Exchange.Declaration
import InoBlocks.Exchange.Reference

/-!
# Document types

What is declared for a document: the entities that may be referred to, and the attributes that
elements have without being given them.  The first declaration of a name counts.  What has been
declared decides about the values of attributes.
-/

namespace InoBlocks

namespace Exchange

/-- The name and the value of an attribute. -/
structure Attribute where
  name : QualifiedName
  value : List Char
  deriving DecidableEq, Repr

/-- What is declared of an attribute. -/
structure AttributeRule where
  element : QualifiedName
  name : QualifiedName
  /-- Whether the value is made of words. -/
  ofWords : Bool
  /-- The value where the attribute is left out. -/
  default : Option (List Char)
  deriving DecidableEq, Repr

/-- What is declared for a document. -/
structure DocumentType where
  /-- Whether the document says that nothing declared elsewhere matters. -/
  standalone : Bool := false
  /-- The texts of entities; one that is outside of the document has none. -/
  entities : List (List Char × Option (List Char)) := []
  rules : List AttributeRule := []
  /-- Whether more may be declared elsewhere. -/
  isPartial : Bool := false
  /-- Whether declarations are still taken up. -/
  isOpen : Bool := true
  /-- The most bytes that the document may have, its entities put in their places. -/
  room : Nat := 0
  deriving DecidableEq, Repr

/-- A size that every document may have, its entities put in their places. -/
def commonRoom : Nat := 8388607

/-- How many times its own size a document may have, its entities put in their places. -/
def maxGrowth : Nat := 100

def total (sizes : List Nat) : Nat :=
  sizes.foldl (· + ·) 0

def byteSize (cs : List Char) : Nat :=
  total (cs.map Char.utf8Size)

namespace DocumentType

/-- The document type of a document for which nothing is declared. -/
def bare (standalone : Bool) (document : List Char) : DocumentType where
  standalone := standalone
  room := max (commonRoom - byteSize document) ((maxGrowth - 1) * byteSize document)

/-- Whether every entity that can be referred to has been declared. -/
def isKnown (d : DocumentType) : Bool :=
  d.standalone || !d.isPartial

/-! ## Sizes -/

/-- The sizes of the entities with the entities in them put in their places, so many levels
deep. -/
def sizes (d : DocumentType) : (levels : Nat) → List (List Char × Nat)
  | 0 => []
  | levels + 1 =>
      let inner := d.sizes levels
      d.entities.map fun (name, text?) =>
        let text := text?.getD []
        (name, byteSize text + total ((namesIn text).map fun n => (inner.lookup n).getD 0))

/-- The number of levels at which entities can stand in entities, none in itself. -/
def levels (d : DocumentType) : Nat :=
  d.entities.length + 1

/-- Whether there is room for entities in place of their names. -/
def hasRoom (d : DocumentType) (names : List (List Char)) : Bool :=
  names.isEmpty ||
    let sizes := d.sizes d.levels
    total (names.map fun n => (sizes.lookup n).getD 0) ≤ d.room

/-! ## Values of attributes -/

/-- The value that an attribute is given, with entities so many levels deep in their places.  White
space counts as blanks.  A name that is not known is left out if it may be declared elsewhere. -/
def valueWithin? (d : DocumentType) : (levels : Nat) → List Char → Option (List Char)
  | 0, _ => none
  | levels + 1, raw => do
      guard (!raw.contains '<' && raw.all isXmlChar)
      let parts ← parts? (raw.map fun c => if isSpace c then ' ' else c)
      let values ← parts.mapM fun part =>
        match part with
        | .char c => some [c]
        | .named name =>
            match predefined? name, d.entities.lookup name with
            | some c, _ => some [c]
            | none, some (some text) => d.valueWithin? levels text
            | none, some none => none
            | none, none => if d.isKnown then none else some []
      return values.flatten

def singleSpaced (cs : List Char) : List Char :=
  Text.joinWith [' '] ((Text.cut (· == ' ') cs).filter (!·.isEmpty))

def value? (d : DocumentType) (ofWords : Bool) (raw : List Char) : Option (List Char) :=
  (d.valueWithin? (d.levels + 1) raw).map fun value => if ofWords then singleSpaced value else value

def rule? (d : DocumentType) (element name : QualifiedName) : Option AttributeRule :=
  d.rules.find? fun r => r.element == element && r.name == name

/-- The attributes of an element, with those that it has without being given them. -/
def attributes? (d : DocumentType) (element : QualifiedName) (given : List Attribute) :
    Option (List Attribute) := do
  let own ← given.mapM fun a => do
    let value ← d.value? ((d.rule? element a.name).any (·.ofWords)) a.value
    return ⟨a.name, value⟩
  let more := d.rules.filterMap fun r =>
    if r.element == element && given.all (·.name != r.name) then
      r.default.map fun value => ⟨r.name, value⟩
    else
      none
  return own ++ more

/-! ## Taking up declarations -/

/-- The text of an entity as it is declared: codes of characters are resolved and names are not.
A percent sign has no place in it. -/
def entityText? (raw : List Char) : Option (List Char) := do
  guard (!raw.contains '%')
  let parts ← parts? raw
  return parts.flatMap Part.verbatim

def withEntity (d : DocumentType) (name : List Char) (text : Option (List Char)) : DocumentType :=
  if (predefined? name).isSome || (d.entities.lookup name).isSome then d
  else { d with entities := d.entities ++ [(name, text)] }

/-- Declare an attribute.  A declaration of consequence counts only if it is the first. -/
def withRule (d : DocumentType) (r : AttributeRule) (identifying : Bool) : DocumentType :=
  if (r.default.isSome || identifying) && (d.rule? r.element r.name).isSome then d
  else { d with rules := d.rules ++ [r] }

def takeUp? (d : DocumentType) (declaration : Declaration) : Option DocumentType :=
  match declaration with
  | .elsewhere => some { d with isPartial := true }
  | .parameter => some { d with isPartial := true, isOpen := d.standalone }
  | declaration =>
      if !d.isOpen then
        some d
      else
        match declaration with
        | .entity name (some raw) => do return d.withEntity name (some (← entityText? raw))
        | .entity name none => some (d.withEntity name none)
        | .parameterEntity (some raw) => do
            let _ ← entityText? raw
            return d
        | .attribute element name ofWords identifying (some raw) => do
            guard (d.hasRoom (namesIn raw))
            let value ← d.value? ofWords raw
            return d.withRule ⟨element, name, ofWords, some value⟩ identifying
        | .attribute element name ofWords identifying none =>
            some (d.withRule ⟨element, name, ofWords, none⟩ identifying)
        | _ => some d

end DocumentType

end Exchange

end InoBlocks
