import InoBlocks.Exchange.Element
import InoBlocks.Exchange.Expansion

/-!
# Trees of markup

The pieces of a document put together into one element.  Tags must match, prefixes must be
bound, and no attribute may be there twice.  Names lose their prefixes, and attributes that have
one are left out.
-/

namespace InoBlocks

namespace Exchange

/-! ## Namespaces -/

def xmlSpace : List Char := "http://www.w3.org/XML/1998/namespace".toList

def declarationSpace : List Char := "http://www.w3.org/2000/xmlns/".toList

/-- Prefixes and the namespaces they are bound to, the nearest first. -/
abbrev Scope := List (List Char × List Char)

def outerScope : Scope := [("xml".toList, xmlSpace)]

/-- Whether a namespace may be bound to anything but the prefix `xml`. -/
def isFree (space : List Char) : Bool :=
  space != xmlSpace && space != declarationSpace && !space.contains '}'

def Attribute.declares (a : Attribute) : Bool :=
  match a.name.space with
  | some front => front == "xmlns".toList
  | none => a.name.base == "xmlns".toList

/-- Take up the namespace that an attribute declares, if it declares one. -/
def bind? (scope : Scope) (a : Attribute) : Option Scope :=
  if !a.declares then
    some scope
  else if a.name.space.isNone then
    if isFree a.value then some scope else none
  else if a.name.base == "xml".toList then
    if a.value == xmlSpace then some scope else none
  else if a.name.base == "xmlns".toList || a.value.isEmpty || !isFree a.value then
    none
  else
    some ((a.name.base, a.value) :: scope)

def isBound (scope : Scope) (name : QualifiedName) : Bool :=
  match name.space with
  | none => true
  | some front => (scope.lookup front).isSome

/-- A name with the namespace of its prefix in place of the prefix. -/
def expanded (scope : Scope) (name : QualifiedName) : QualifiedName :=
  ⟨name.space.bind fun front => scope.lookup front, name.base⟩

def ownAttributes (attributes : List Attribute) : List Attribute :=
  attributes.filter fun a => !a.declares

/-- The scope inside an element, if its tag is sound. -/
def enter? (scope : Scope) (name : QualifiedName) (attributes : List Attribute) :
    Option Scope := do
  let inner ← attributes.foldlM bind? scope
  let own := (ownAttributes attributes).map (·.name)
  let bound := isBound inner name && own.all (isBound inner)
  if bound && (attributes.map (·.name)).Nodup && (own.map (expanded inner)).Nodup then
    return inner
  else
    none

def plainAttributes (attributes : List Attribute) : List (String × String) :=
  ((ownAttributes attributes).filter fun a => a.name.space.isNone).map fun a =>
    (String.ofList a.name.base, String.ofList a.value)

/-! ## Building -/

/-- An element that is open: the name in its tag, the scope inside, and what is there of it. -/
structure Frame where
  tag : QualifiedName
  scope : Scope
  element : Element

namespace Frame

/-- Add character data, which counts only before the first child. -/
def addText (f : Frame) (cs : List Char) : Frame :=
  match f.element with
  | .mk name attributes text [] =>
      { f with element := .mk name attributes (text ++ String.ofList cs) [] }
  | _ => f

def addChild (f : Frame) (child : Element) : Frame :=
  { f with element := f.element.withChild child }

end Frame

/-- How far a document has been built. -/
inductive Progress where
  /-- In front of the outermost element; whether a document type has been declared. -/
  | before (declared : Bool)
  /-- Inside of elements, the innermost first. -/
  | inside (top : Frame) (outer : List Frame)
  /-- Behind the outermost element. -/
  | after (root : Element)

def attach (e : Element) : List Frame → Progress
  | [] => .after e
  | f :: fs => .inside (f.addChild e) fs

/-- Open an element, and close it again if its tag is closed. -/
def openElement? (scope : Scope) (outer : List Frame) (tag : QualifiedName)
    (attributes : List Attribute) (closed : Bool) : Option Progress := do
  let inner ← enter? scope tag attributes
  let e : Element := .mk (String.ofList tag.base) (plainAttributes attributes) "" []
  return if closed then attach e outer else .inside ⟨tag, inner, e⟩ outer

def step? : Progress → Markup → Option Progress
  | .before declared, .space _ | .before declared, .aside => some (.before declared)
  | .before false, .doctype _ => some (.before true)
  | .before _, .opening tag attributes closed =>
      openElement? outerScope [] tag attributes closed
  | .inside top outer, .space cs | .inside top outer, .text cs =>
      some (.inside (top.addText cs) outer)
  | .inside top outer, .aside => some (.inside top outer)
  | .inside top outer, .opening tag attributes closed =>
      openElement? top.scope (top :: outer) tag attributes closed
  | .inside top outer, .closing tag =>
      if tag = top.tag then some (attach top.element outer) else none
  | .after root, .space _ | .after root, .aside => some (.after root)
  | _, _ => none

def element? (document : String) : Option Element := do
  let pieces ← documentPieces? document.toList
  match ← pieces.foldlM step? (.before false) with
  | .after root => some root
  | _ => none

end Exchange

end InoBlocks
