import InoBlocks.Block
import InoBlocks.Exchange.Tree
import InoBlocks.Fault
import InoBlocks.Stack

/-!
# Workspaces as markup

The exchange form of a workspace.  A block is an element with its fields and inputs as children;
statements after the first of a chain are nested, each in a `next` of the one before it.
-/

namespace InoBlocks

namespace Exchange

/-- The namespace that exchange text is marked with. -/
def blockSpace : String := "https://developers.google.com/blockly/xml"

/-! ## Writing -/

/-- Whether an input is a further condition of a choice: `IF` and a number from one on, perhaps
with a line feed after it. -/
def isFurtherCondition (name : String) : Bool :=
  let number :=
    match name.toList with
    | 'I' :: 'F' :: number => number
    | _ => []
  let number := if number.getLast? == some '\n' then number.dropLast else number
  match number with
  | [] => false
  | first :: rest => first.isDigit && first != '0' && rest.all Char.isDigit

def isOtherwise (i : Input) : Bool :=
  i.name == "ELSE" && i.isPresent

/-- How many arms a choice has beside its first one, as an element of its own; none if it has
only that one. -/
def mutation (type : String) (inputs : List Input) : List Element :=
  let further := inputs.countP fun i => isFurtherCondition i.name
  let otherwise := inputs.any isOtherwise
  let attributes :=
    (if further = 0 then [] else [("elseif", Number.decimal further)]) ++
      (if otherwise then [("else", "1")] else [])
  if type == "controls_if" && !attributes.isEmpty then [.mk "mutation" attributes "" []] else []

def fieldElement (f : String × Scalar) : Element :=
  .mk "field" [("name", f.1)] f.2.toText []

/-- An element with the next statement of a chain inside, if there is one. -/
def linked (e : Element) : Option Element → Element
  | none => e
  | some next => e.withChild (.mk "next" [] "" [next])

mutual

def blockElement : Block → Element
  | .mk type fields inputs =>
      .mk "block" [("type", type)] ""
        (mutation type inputs ++ fields.map fieldElement ++ inputElements inputs)

def inputElements : List Input → List Element
  | [] => []
  | i :: is => inputElement i ++ inputElements is

def inputElement : Input → List Element
  | .value name block => [.mk "value" [("name", name)] "" [blockElement block]]
  | .chain name blocks => [.mk "statement" [("name", name)] "" (chainElement blocks).toList]
  | .vacant _ => []

def chainElement : List Block → Option Element
  | [] => none
  | b :: bs => some (linked (blockElement b) (chainElement bs))

end

def position (x y : Nat) : List (String × String) :=
  [("x", Number.decimal x), ("y", Number.decimal y)]

def regionElement (type input : String) (blocks : List Block) (y : Nat) : Element :=
  .mk "block" (("type", type) :: position 50 y) ""
    [.mk "statement" [("name", input)] "" (chainElement blocks).toList]

/-- The declarations as top blocks, one below the other. -/
def globalElements (blocks : List Block) : List Element :=
  (blocks.zipIdx).map fun (b, i) => (blockElement b).withAttributes (position 400 (50 + i * 80))

def workspaceElement (w : Workspace) : Element :=
  .mk "xml" [("xmlns", blockSpace)] "" <|
    regionElement Workspace.setupType Workspace.setupInput w.setup 50 ::
      regionElement Workspace.loopType Workspace.loopInput w.loop 300 ::
        globalElements w.globals

def encode (w : Workspace) : String :=
  (workspaceElement w).toText

/-- The calls for writing a workspace: one for each level of elements. -/
def calls (w : Workspace) : Nat :=
  (workspaceElement w).height

/-- A workspace as exchange text, where there is room for so many calls. -/
def encodeWithin {ε : Type} (room : Nat) (w : Workspace) : Except (Halt ε) String :=
  Room.within room (calls w) fun _ => .ok (encode w)

/-! ## Reading -/

/-- Why exchange text holds no workspace. -/
inductive DecodeFault where
  /-- It is no well-formed document. -/
  | malformed
  /-- The outermost element is another one. -/
  | wrongRoot (name : String)
  /-- A block without a type. -/
  | untyped (element : String)
  /-- A field or an input without a name. -/
  | unnamed (element type : String)
  deriving DecidableEq, Repr

namespace DecodeFault

def message : DecodeFault → String
  | malformed => "invalid block XML"
  | wrongRoot name => "expected <xml> root element, found <" ++ name ++ ">"
  | untyped element => "<" ++ element ++ "> element has no type attribute"
  | unnamed element type => "<" ++ element ++ "> in '" ++ type ++ "' has no name attribute"

def toFault (f : DecodeFault) : Fault :=
  { cause := .exchange f.message }

end DecodeFault

abbrev Decode := Except DecodeFault

/-- Put a value under a name, in place of the one that is there or else behind the others. -/
def put {α : Type} (name : String) (value : α) : List (String × α) → List (String × α)
  | [] => [(name, value)]
  | (other, old) :: rest =>
      if other == name then (name, value) :: rest else (other, old) :: put name value rest

/-- What an element gives, depending on what it is taken for. -/
structure Reading where
  name : String
  attribute? : String → Option String
  text : String
  /-- The element taken for a block. -/
  block : Decode Block
  /-- The element taken for the first block of a chain. -/
  chain : Decode (List Block)
  /-- The block in the element, if there is one. -/
  heldBlock : Option (Decode Block)
  /-- The chain in the element, if there is one. -/
  heldChain : Option (Decode (List Block))
  /-- The calls for the element taken for a block, that of its own included. -/
  blockDescent : Descent
  /-- The calls for the blocks of a chain, one after the other. -/
  chainDescent : Descent
  heldBlockDescent : Descent
  heldChainDescent : Descent

namespace Reading

def given? (r : Reading) (name : String) : Option String :=
  (r.attribute? name).filter (· != "")

/-- The child that counts as the block in an element: the first block, or else the first
shadow of one. -/
def held? (children : List Reading) : Option Reading :=
  children.find? (·.name == "block") <|> children.find? (·.name == "shadow")

/-- The fields and inputs of a block that has been read in part. -/
structure Contents where
  fields : List (String × Scalar) := []
  inputs : List (String × (String → Input)) := []

def takeUp (type : String) (done : Contents) (child : Reading) : Decode Contents :=
  if child.name == "field" || child.name == "value" || child.name == "statement" then
    match child.given? "name" with
    | none => .error (.unnamed child.name type)
    | some name =>
        if child.name == "field" then
          .ok { done with fields := put name (.text child.text) done.fields }
        else if child.name == "value" then
          match child.heldBlock with
          | none => .ok { done with inputs := put name .vacant done.inputs }
          | some block => do
              let b ← block
              return { done with inputs := put name (.value · b) done.inputs }
        else
          match child.heldChain with
          | none => .ok { done with inputs := put name (.chain · []) done.inputs }
          | some chain => do
              let bs ← chain
              return { done with inputs := put name (.chain · bs) done.inputs }
  else
    .ok done

def readBlock (name : String) (type? : Option String) (children : List Reading) :
    Decode Block :=
  match type? with
  | none => .error (.untyped name)
  | some type => do
      let contents ← children.foldlM (takeUp type) {}
      return .mk type contents.fields (contents.inputs.map fun i => i.2 i.1)

/-- An element taken for the first block of a chain. -/
def readChain (block : Decode Block) (children : List Reading) : Decode (List Block) := do
  let first ← block
  match (children.find? (·.name == "next")).bind (·.heldChain) with
  | none => return [first]
  | some rest => return first :: (← rest)

/-- The calls for a child of a block, beneath that for the block. -/
def childDescent (child : Reading) : Descent :=
  if child.name == "field" || child.name == "value" || child.name == "statement" then
    if (child.given? "name").isNone then .refusal 0
    else if child.name == "value" then child.heldBlockDescent
    else if child.name == "statement" then child.heldChainDescent.beneath 1
    else .flat
  else
    .flat

/-- The calls for an element that is taken for a block. -/
def descentOf (type? : Option String) (children : List Reading) : Descent :=
  if type?.isNone then .refusal 1
  else (Descent.inOrder (children.map childDescent)).beneath 1

def ofParts (name : String) (attributes : List (String × String)) (text : String)
    (children : List Reading) : Reading :=
  let type? := (attributes.lookup "type").filter (· != "")
  let block := readBlock name type? children
  let descent := descentOf type? children
  let held := held? children
  { name := name
    attribute? := fun name => attributes.lookup name
    text := text
    block := block
    chain := readChain block children
    heldBlock := held.map (·.block)
    heldChain := held.map (·.chain)
    blockDescent := descent
    chainDescent := descent.andThen
      (((children.find? (·.name == "next")).map (·.heldChainDescent)).getD .flat)
    heldBlockDescent := (held.map (·.blockDescent)).getD .flat
    heldChainDescent := (held.map (·.chainDescent)).getD .flat }

end Reading

mutual

def reading : Element → Reading
  | .mk name attributes text children => .ofParts name attributes text (readings children)

def readings : List Element → List Reading
  | [] => []
  | e :: es => reading e :: readings es

end

/-- The regions of a workspace that has been read in part. -/
structure Regions where
  setup : Option (List Block) := none
  loop : Option (List Block) := none
  globals : List Block := []

/-- The statements in a top block, from its first input of a given name. -/
def regionBlocks (input : String) (e : Element) : Decode (List Block) :=
  let statements := (readings e.children).filter (·.name == "statement")
  match (statements.find? (·.attribute? "name" == some input)).bind (·.heldChain) with
  | none => .ok []
  | some chain => chain

/-- Take up a top block.  Of several for the same region the first counts. -/
def takeUpTop (done : Regions) (e : Element) : Decode Regions :=
  if e.name != "block" then
    .ok done
  else if e.attribute? "type" == some Workspace.setupType then
    match done.setup with
    | some _ => .ok done
    | none => do return { done with setup := some (← regionBlocks Workspace.setupInput e) }
  else if e.attribute? "type" == some Workspace.loopType then
    match done.loop with
    | some _ => .ok done
    | none => do return { done with loop := some (← regionBlocks Workspace.loopInput e) }
  else do
    let more ← (reading e).chain
    return { done with globals := done.globals ++ more }

def decode (document : String) : Decode Workspace :=
  match element? document with
  | none => .error .malformed
  | some root =>
      if root.name != "xml" then
        .error (.wrongRoot root.name)
      else do
        let regions ← root.children.foldlM takeUpTop {}
        return ⟨regions.setup.getD [], regions.loop.getD [], regions.globals⟩

/-! ## Calls for reading -/

/-- The calls for the statements in a top block. -/
def regionDescent (input : String) (e : Element) : Descent :=
  let statements := (readings e.children).filter (·.name == "statement")
  match statements.find? (·.attribute? "name" == some input) with
  | none => .flat
  | some statement => statement.heldChainDescent.beneath 2

/-- The calls for the top blocks, given which regions have been read. -/
def topDescents (setup loop : Bool) : List Element → List Descent
  | [] => []
  | e :: es =>
      if e.name != "block" then
        topDescents setup loop es
      else if e.attribute? "type" == some Workspace.setupType then
        if setup then topDescents setup loop es
        else regionDescent Workspace.setupInput e :: topDescents true loop es
      else if e.attribute? "type" == some Workspace.loopType then
        if loop then topDescents setup loop es
        else regionDescent Workspace.loopInput e :: topDescents setup true es
      else
        (reading e).chainDescent.beneath 1 :: topDescents setup loop es

/-- The calls for reading a workspace. -/
def descent (document : String) : Descent :=
  match element? document with
  | none => .flat
  | some root =>
      if root.name != "xml" then .flat
      else .inOrder (topDescents false false root.children)

/-- Read a workspace from exchange text, where there is room for so many calls. -/
def decodeWithin (room : Nat) (document : String) : Except (Halt DecodeFault) Workspace :=
  Room.within room (descent document).calls fun _ => decode document

end Exchange

end InoBlocks
