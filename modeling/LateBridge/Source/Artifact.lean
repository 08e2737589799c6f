import LateBridge.Source.BridgeCode

/-!
# Source/Artifact — the file of one namespace

The members of a bridge stand in a repeated declaration of their type, and that inside repeated
declarations of the types around it.  The types of all bridges of a file form a forest: each type
stands once, types and bridges in the order in which they are first met.
-/

namespace LateBridge

/-! ## Declaring trees -/

/-- **A repeated type**: its bridges, then the types inside it. -/
inductive TypeNode where
  | node (type : DeclName) (plans : List BridgePlan) (nested : List TypeNode)
  deriving Inhabited

namespace TypeNode

/-- The type of a node. -/
def type : TypeNode → DeclName
  | node type _ _ => type

/-- **A bridge placed in a forest** below the first type of its chain; the recursion is on the
chain. -/
def insert (plan : BridgePlan) : List DeclName → List TypeNode → List TypeNode
  | [], forest => forest
  | first :: rest, forest =>
    let place : TypeNode → TypeNode
      | node type plans nested =>
        if rest.isEmpty then node type (plans ++ [plan]) nested
        else node type plans (insert plan rest nested)
    if forest.any (·.type == first) then
      forest.map fun n => if n.type == first then place n else n
    else forest ++ [place (node first [] [])]

/-- **The forest of several bridges.** -/
def forest (plans : List BridgePlan) : List TypeNode :=
  plans.foldl (fun forest plan => insert plan plan.declaring.chain forest) []

end TypeNode

/-! ## Files -/

/-- The name of the file of a namespace. -/
def artifactFileName : Option String → String
  | some space => space ++ "_Bridges.g.cs"
  | none => "Bridges.g.cs"

/-- **A generated file.** -/
structure Artifact where
  fileName : String
  space : Option String
  text : String
  bridgeCount : Nat
  deriving DecidableEq, Repr, Inhabited

namespace BridgeEmitter

variable (b : BridgeEmitter)

/-- The header of a repeated type. -/
def typeHeader (n : DeclName) : String :=
  "partial " ++ ((b.graph.decl? n).map TypeDecl.header).getD n.simple

mutual

/-- A repeated type with its bridges and the types inside it, a blank line between them. -/
def typeCode : TypeNode → List Code
  | .node type plans nested =>
    [.line (b.typeHeader type), .block (Code.spaced (plans.map b.bridgeCode ++ typesCode nested))]

/-- Several repeated types. -/
def typesCode : List TypeNode → List (List Code)
  | [] => []
  | n :: ns => typeCode n :: typesCode ns

end

/-- The first lines of a file. -/
def preamble : List Code :=
  .line "// <auto-generated/>" ::
    (if b.options.nullableDirective then [.line "#nullable disable"] else []) ++ [.blank]

/-- The code of a file: its types, inside the namespace if there is one. -/
def fileCode (space : Option String) (plans : List BridgePlan) : List Code :=
  let types := Code.spaced (b.typesCode (TypeNode.forest plans))
  b.preamble ++ match space with
    | some space => [.line ("namespace " ++ space), .block types]
    | none => types

/-- **The file of a namespace** from its plans. -/
def emit (space : Option String) (plans : List BridgePlan) : Artifact :=
  { fileName := artifactFileName space, space
    text := Code.render b.options.indent (b.fileCode space plans), bridgeCount := plans.length }

end BridgeEmitter

end LateBridge
