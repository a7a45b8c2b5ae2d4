import InoBlocks.Sketch.Source

/-!
# Walking over a sketch

Every node of a sketch in order, parents before children, each with the node it is a part of.
An expression counts as a node by itself.
-/

namespace InoBlocks

/-- A node together with the node it is a part of. -/
structure Visit where
  node : Node
  parent : Option Node

mutual

def Expr.walk (parent : Option Node) : Expr → List Visit
  | .empty => []
  | .member l object property =>
      let self := Node.bare (.member l object property)
      ⟨self, parent⟩ :: object.walk (some self)
  | .call l callee arguments =>
      let self := Node.bare (.call l callee arguments)
      ⟨self, parent⟩ :: (callee.walk (some self) ++ Expr.walkAll (some self) arguments)
  | .binary l operator left right =>
      let self := Node.bare (.binary l operator left right)
      ⟨self, parent⟩ :: (left.walk (some self) ++ right.walk (some self))
  | .unary l operator operand before =>
      let self := Node.bare (.unary l operator operand before)
      ⟨self, parent⟩ :: operand.walk (some self)
  | .assign l operator left right =>
      let self := Node.bare (.assign l operator left right)
      ⟨self, parent⟩ :: (left.walk (some self) ++ right.walk (some self))
  | .name l id => [⟨.bare (.name l id), parent⟩]
  | .literal l value raw => [⟨.bare (.literal l value raw), parent⟩]
  | .pin l id analog => [⟨.bare (.pin l id analog), parent⟩]
  | .foreign l form head value =>
      let self := Node.bare (.foreign l form head value)
      ⟨self, parent⟩ :: value.walk (some self)

def Expr.walkAll (parent : Option Node) : List Expr → List Visit
  | [] => []
  | e :: es => e.walk parent ++ Expr.walkAll parent es

end

mutual

def Node.walk (parent : Option Node) : Node → List Visit
  | .empty => []
  | .program l body =>
      let self := Node.program l body
      ⟨self, parent⟩ :: Node.walkAll (some self) body
  | .function l name returnType parameters body =>
      let self := Node.function l name returnType parameters body
      ⟨self, parent⟩ ::
        (parameters.map (fun p => ⟨.parameter p, some self⟩) ++ body.walk (some self))
  | .parameter p => [⟨.parameter p, parent⟩]
  | .declaration l type name value =>
      let self := Node.declaration l type name value
      ⟨self, parent⟩ :: value.walk (some self)
  | .block l body =>
      let self := Node.block l body
      ⟨self, parent⟩ :: Node.walkAll (some self) body
  | .branch l test consequent alternative =>
      let self := Node.branch l test consequent alternative
      ⟨self, parent⟩ ::
        (test.walk (some self) ++ consequent.walk (some self) ++ alternative.walk (some self))
  | .forLoop l init test update body =>
      let self := Node.forLoop l init test update body
      ⟨self, parent⟩ ::
        (init.walk (some self) ++ test.walk (some self) ++ update.walk (some self) ++
          body.walk (some self))
  | .whileLoop l test body =>
      let self := Node.whileLoop l test body
      ⟨self, parent⟩ :: (test.walk (some self) ++ body.walk (some self))
  | .exit l value =>
      let self := Node.exit l value
      ⟨self, parent⟩ :: value.walk (some self)
  | .effect l value =>
      let self := Node.effect l value
      ⟨self, parent⟩ :: value.walk (some self)
  | .bare e => e.walk parent

def Node.walkAll (parent : Option Node) : List Node → List Visit
  | [] => []
  | n :: ns => n.walk parent ++ Node.walkAll parent ns

end

namespace Program

/-- The visits to every node of a sketch, the sketch itself first. -/
def walk (p : Program) : List Visit :=
  p.toNode.walk none

/-- The nodes of a sketch with some property, in order. -/
def find (p : Program) (wanted : Node → Bool) : List Node :=
  (p.walk.map Visit.node).filter wanted

/-- The text of what is called, if a node is a call. -/
def calleeText? : Node → Option String
  | .bare (.call _ callee _) => some callee.source
  | _ => none

def callees (p : Program) : List String :=
  (p.walk.map Visit.node).filterMap calleeText?

end Program

end InoBlocks
