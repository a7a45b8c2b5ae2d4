import InoBlocks.Fault

/-!
# What generating code leaves behind

Beside its text, a block may need an include, declare or assign a variable, or give rise to a
finding.  All of it is collected in the order of first use.
-/

namespace InoBlocks

namespace Code

/-- What has been collected so far. -/
structure Context where
  /-- The headers to include. -/
  includes : List String := []
  /-- The lines that declare global variables. -/
  globals : List String := []
  /-- The functions besides `setup` and `loop`. -/
  functions : List String := []
  /-- The names that a block declares. -/
  declared : List String := []
  /-- The names that a block assigns. -/
  assigned : List String := []
  findings : Findings := .empty "codegen"

def addNew (xs : List String) (x : String) : List String :=
  if xs.contains x then xs else xs ++ [x]

namespace Context

def addInclude (c : Context) (header : String) : Context :=
  { c with includes := addNew c.includes header }

def addVariable (c : Context) (line : String) : Context :=
  { c with globals := addNew c.globals line }

def addFunction (c : Context) (text : String) : Context :=
  { c with functions := addNew c.functions text }

def declare (c : Context) (name : String) : Context :=
  { c with declared := addNew c.declared name }

def assign (c : Context) (name : String) : Context :=
  { c with assigned := addNew c.assigned name }

def warn (c : Context) (message : String) : Context :=
  { c with findings := c.findings.record .warning message none }

/-- Declare, as integers, the names that are assigned and nowhere declared. -/
def declareAssigned (c : Context) : Context :=
  (c.assigned.filter fun name => !c.declared.contains name).foldl
    (fun c name => c.addVariable ("int " ++ name ++ ";")) c

end Context

/-- Text repeated a number of times; not at all for a negative number. -/
def repeated (text : String) (times : Int) : String :=
  String.join (List.replicate times.toNat text)

/-- Where a statement stands: the text of one level of indentation, how many levels deep it is,
and how many counted loops are around it. -/
structure Place where
  indent : String
  level : Nat
  loops : Nat

namespace Place

def pad (p : Place) : String :=
  repeated p.indent p.level

def deeper (p : Place) : Place :=
  { p with level := p.level + 1 }

def inLoop (p : Place) : Place :=
  { p with loops := p.loops + 1 }

end Place

/-- A computation that collects what its code leaves behind, and may fail. -/
abbrev Gen := StateT Context (Except Fault)

def malformed {α : Type} (message : String) (blockType : Option String) : Gen α :=
  throw { cause := .blockStructure message blockType }

end Code

end InoBlocks
