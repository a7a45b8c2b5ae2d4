import InoBlocks.Sketch.Source
import InoBlocks.Text.Display

/-!
# Outlines

A sketch as an indented outline, one line for each statement, without places: two sketches that
differ in layout alone have one outline.
-/

namespace InoBlocks

namespace Node

def outlineLine (indent : String) (depth : Nat) (text : String) : String :=
  String.join (List.replicate depth indent) ++ text

/-- The parameters of a function, as they stand in its head. -/
def parameterList (ps : List Parameter) : String :=
  ", ".intercalate (ps.map fun p => p.type ++ " " ++ p.name)

mutual

def outlineAt (indent : String) (depth : Nat) : Node → List String
  | empty => [outlineLine indent depth (Expr.empty.form ++ ": ")]
  | program _ body => outlineLine indent depth "Program" :: outlineAll indent (depth + 1) body
  | function _ name returnType parameters body =>
      outlineLine indent depth
          ("Function: " ++ returnType ++ " " ++ name ++ "(" ++ parameterList parameters ++ ")") ::
        (if body.isEmpty then [] else outlineAt indent (depth + 1) body)
  | parameter p => [outlineLine indent depth ("Parameter: " ++ (parameter p).source)]
  | declaration l type name value =>
      [outlineLine indent depth ("Variable: " ++ (declaration l type name value).source)]
  | block _ body => outlineLine indent depth "Block" :: outlineAll indent (depth + 1) body
  | branch _ test consequent alternative =>
      outlineLine indent depth ("If (" ++ test.source ++ ")") ::
        (if consequent.isEmpty then [] else outlineAt indent (depth + 1) consequent) ++
        (if alternative.isEmpty then []
        else outlineLine indent depth "Else" :: outlineAt indent (depth + 1) alternative)
  | forLoop _ init test update body =>
      outlineLine indent depth
          ("For (" ++ init.source ++ "; " ++ test.source ++ "; " ++ update.source ++ ")") ::
        (if body.isEmpty then [] else outlineAt indent (depth + 1) body)
  | whileLoop _ test body =>
      outlineLine indent depth ("While (" ++ test.source ++ ")") ::
        (if body.isEmpty then [] else outlineAt indent (depth + 1) body)
  | exit _ value =>
      [outlineLine indent depth (if value.isEmpty then "Return" else "Return " ++ value.source)]
  | effect _ value => [outlineLine indent depth ("Expr: " ++ value.source)]
  | bare e => [outlineLine indent depth (e.form ++ ": " ++ e.source)]

def outlineAll (indent : String) (depth : Nat) : List Node → List String
  | [] => []
  | n :: ns => outlineAt indent depth n ++ outlineAll indent depth ns

end

def outline (node : Node) (indent : String) : String :=
  Text.joinLines (outlineAt indent 0 node)

mutual

/-- The first reason, in the order of writing, why a node has no outline. -/
def outlineFault? : Node → Option SourceFault
  | program _ body | block _ body => outlineFaults? body
  | function _ _ _ _ body => body.outlineFault?
  | branch _ test consequent alternative =>
      test.sourceFault? <|> consequent.outlineFault? <|> alternative.outlineFault?
  | forLoop _ init test update body =>
      init.sourceFault? <|> test.sourceFault? <|> update.sourceFault? <|> body.outlineFault?
  | whileLoop _ test body => test.sourceFault? <|> body.outlineFault?
  | declaration _ _ _ value | exit _ value | effect _ value | bare value => value.sourceFault?
  | empty | parameter _ => none

/-- The first reason why one of several nodes has no outline. -/
def outlineFaults? : List Node → Option SourceFault
  | [] => none
  | n :: ns => n.outlineFault? <|> outlineFaults? ns

end

end Node

namespace Program

def outline (p : Program) (indent : String) : String :=
  p.toNode.outline indent

/-- The indent of outlines that are compared or shown on request. -/
def outlineIndent : String := "  "

end Program

end InoBlocks
