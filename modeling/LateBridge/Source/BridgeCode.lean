import LateBridge.Bridge.Plan
import LateBridge.Source.Code
import LateBridge.Source.DocId
import LateBridge.Source.Literal
import LateBridge.Symbols.WellKnown

/-!
# Source/BridgeCode — the two members of a bridge

The target keeps the signature of the method under a private name and calls the method with its
type arguments.  A binding failure raised inside it is marked before it is thrown on.  The wrapper
calls the target with its erased arguments late-bound.  A marked failure came from inside the target
and is thrown on without the mark; any other means that the call itself did not bind.
-/

namespace LateBridge

/-- **How code is written out.** -/
structure EmitOptions where
  /-- Spaces for each level, or a tab for none. -/
  indent : Nat := 4
  /-- Targets are hidden from editors and debuggers. -/
  hideTargets : Bool := true
  /-- Wrappers tell a trimmer what they depend on. -/
  trimmingAttributes : Bool := true
  /-- A file starts by turning off null annotations. -/
  nullableDirective : Bool := true
  deriving DecidableEq, Repr, Inhabited

/-- **What bridges are written from**: the graph, its well-known types and the options. -/
structure BridgeEmitter where
  graph : Graph
  known : WellKnown
  options : EmitOptions

namespace BridgeEmitter

variable (b : BridgeEmitter)

/-! ## Words -/

/-- The key of the mark on a failure from inside a target. -/
def failureMark : String := "Bridgegen_InnerBinderException"

/-- The variable that holds a failure. -/
def failureName : String := "bridgegen_binderException"

/-- The attribute that names the target as a dependency. -/
def dependencyAttribute : String :=
  "global::System.Diagnostics.CodeAnalysis.DynamicDependencyAttribute"

/-- The attribute that turns off a warning of the trimmer. -/
def suppressionAttribute : String :=
  "global::System.Diagnostics.CodeAnalysis.UnconditionalSuppressMessageAttribute"

/-- The text, if a condition holds. -/
def textIf (condition : Bool) (text : String) : String := if condition then text else ""

/-! ## Shared pieces -/

/-- The attribute that hides a member from debuggers, if the graph has it. -/
def debuggerAttribute : List Code :=
  match b.known.debuggerHidden? with
  | some t => [.line ("[" ++ t.source ++ "]")]
  | none => []

/-- The constraints of a clause in the order the language asks for: the kind, the types, and the
constructor last. -/
def clauseParts (c : ConstraintClause) : List String :=
  let kinds := c.kinds
  (if kinds.reference then [if kinds.nullable then "class?" else "class"] else []) ++
    (if kinds.unmanaged then ["unmanaged"] else if kinds.value then ["struct"] else []) ++
    (if kinds.notNull then ["notnull"] else []) ++ c.types.map Ty.source ++
    (if kinds.constructible then ["new()"] else [])

/-- One line for each type parameter with constraints. -/
def clauses (cs : List ConstraintClause) : List Code :=
  (cs.filter (!·.isEmpty)).map fun c =>
    .clause ("where " ++ c.param.name ++ " : " ++ ", ".intercalate (clauseParts c))

/-- The handler of binding failures. -/
def handler (body : List Code) : List Code :=
  [.line ("catch(" ++ b.known.binderException.source ++ " " ++ failureName ++ ")"), .block body]

/-- A statement under a handler of binding failures. -/
def guarded (statement : String) (body : List Code) : Code :=
  .block (.line "try" :: .block [.line statement] :: b.handler body)

/-- The entry of a failure's data that holds the mark. -/
def markEntry : String := failureName ++ ".Data[\"" ++ failureMark ++ "\"]"

/-! ## The target -/

/-- The attributes that hide a target. -/
def hidingAttributes : List Code :=
  if b.options.hideTargets then
    (match b.known.editorBrowsable?, b.known.editorBrowsableState? with
    | some browsable, some state =>
      [.line ("[" ++ browsable.source ++ "(" ++ state.source ++ ".Never)]")]
    | _, _ => []) ++ b.debuggerAttribute
  else []

/-- A parameter of a target. -/
def targetParam (q : Param) : String := q.refKind.lead ++ q.type.source ++ " " ++ q.name

/-- The header of a target. -/
def targetHeader (p : BridgePlan) : String :=
  let m := p.method
  textIf m.flags.isStatic "static " ++ textIf m.flags.isReadonly "readonly " ++
    m.returns.source ++ " " ++ p.target ++ angledNames (m.vars.map (·.name)) ++
    "(" ++ ", ".intercalate (m.params.map targetParam) ++ ")"

/-- The call of the method by its target. -/
def methodCall (m : Method) : String :=
  textIf (!m.returnsVoid) "return " ++ m.name ++ angledNames (m.vars.map (·.name)) ++
    "(" ++ ", ".intercalate (m.params.map fun q => q.refKind.lead ++ q.name) ++ ");"

/-- **The target.** -/
def targetCode (p : BridgePlan) : List Code :=
  b.hidingAttributes ++ .line (targetHeader p) :: clauses (p.method.typeParams.map TypeParam.clause)
    ++ [b.guarded (methodCall p.method) [.line (markEntry ++ " = \"\";"), .line "throw;"]]

/-! ## The wrapper -/

/-- The attributes that keep a target from being trimmed away. -/
def trimmingCode (p : BridgePlan) : List Code :=
  if b.options.trimmingAttributes then
    [.line ("[" ++ dependencyAttribute ++ "(\"" ++ p.method.memberDocId p.target ++ "\")]"),
      .line ("[" ++ suppressionAttribute ++
        "(\"AssemblyLoadTrimming\", \"IL2026:RequiresUnreferencedCode\")]")]
  else []

/-- A parameter of a wrapper. -/
def wrapperParam (q : WrapperParam) : String :=
  textIf q.isParams "params " ++ q.refKind.lead ++ q.type.source ++ " " ++ q.name ++
    (match q.default? with
    | some value => " = " ++ b.graph.literal q.type value
    | none => "")

/-- The parameters of a wrapper. -/
def wrapperParams (w : Wrapper) : String :=
  textIf (w.isExtension && !w.params.isEmpty) "this " ++
    ", ".intercalate (w.params.map b.wrapperParam)

/-- The header of a wrapper. -/
def wrapperHeader (p : BridgePlan) : String :=
  let w := p.wrapper
  textIf (!w.modifiers.isEmpty) (w.modifiers ++ " ") ++
    textIf (w.isStatic && !(Text.words w.modifiers).contains "static") "static " ++
    textIf p.shape.isAsync "async " ++ textIf w.isReadonly "readonly " ++
    textIf w.isPartial "partial " ++ w.returns.source ++ " " ++ w.name ++
    angledNames (w.typeParams.map (·.name)) ++ "(" ++ b.wrapperParams w ++ ")"

/-- The call of the target by the wrapper. -/
def targetCall (p : BridgePlan) : String :=
  textIf p.shape.value?.isSome "return " ++ textIf p.shape.isAsync "await " ++ p.target ++ "(" ++
    ", ".intercalate (p.wrapper.params.map fun q =>
      q.refKind.lead ++ textIf q.isDynamic "(dynamic)" ++ q.name) ++ ");"

/-- The run-time type of the declaration that an argument has to match. -/
def expectedType? : Ty → Option String
  | t@(.named ..) => t.unboundSource?.map fun text => "typeof(" ++ text ++ ")"
  | .array element rank =>
    element.unboundSource?.map fun text =>
      "typeof(" ++ text ++ ").MakeArrayType(" ++ textIf (rank > 1) (toString rank) ++ ")"
  | _ => none

/-- A text in braces. -/
def inBraces (text : String) : String := "\x7b" ++ text ++ "\x7d"

/-- The message about the one late-bound argument. -/
def argumentMessage (q : WrapperParam) : String :=
  "$\"The argument of type '" ++ inBraces ("((object)" ++ q.name ++ ")?.GetType()") ++
    "' could not be dynamically resolved to its specific type" ++
    (match expectedType? q.target with
    | some expected => " '" ++ inBraces expected ++ "'"
    | none => "") ++ ".\""

/-- The message about several late-bound arguments. -/
def argumentsMessage : String :=
  "\"The arguments could not be dynamically resolved to their specific types.\""

/-- What a wrapper throws when its call does not bind. -/
def thrown (w : Wrapper) : String :=
  "throw new " ++ b.known.argumentException.source ++ "(" ++
    (match w.dynamicParams with
    | [q] => argumentMessage q ++ ", nameof(" ++ q.name ++ ")"
    | _ => argumentsMessage) ++ ", " ++ failureName ++ ");"

/-- The default values a wrapper gives when its call does not bind. -/
def defaultsCode (p : BridgePlan) : List Code :=
  (p.wrapper.params.filter (·.refKind == .out)).map
      (fun q => .line (q.name ++ " = default(" ++ q.type.source ++ ");")) ++
    (match p.shape.value? with
    | some value => [.line ("return default(" ++ value.source ++ ");")]
    | none => [])

/-- **What a wrapper does when its call does not bind.** -/
def fallbackCode (p : BridgePlan) : List Code :=
  if p.ignoreUnbound then defaultsCode p else [.line (b.thrown p.wrapper)]

/-- The handler of a wrapper: a marked failure is thrown on without its mark. -/
def wrapperHandler (p : BridgePlan) : List Code :=
  .line ("if(" ++ markEntry ++ " != null)") ::
    .block [.line (failureName ++ ".Data.Remove(\"" ++ failureMark ++ "\");"), .line "throw;"] ::
    b.fallbackCode p

/-- **The wrapper.** -/
def wrapperCode (p : BridgePlan) : List Code :=
  b.trimmingCode p ++ (if b.options.hideTargets then b.debuggerAttribute else []) ++
    .line (b.wrapperHeader p) :: clauses p.wrapper.constraints ++
    [b.guarded (targetCall p) (b.wrapperHandler p)]

/-- **Both members of a bridge.** -/
def bridgeCode (p : BridgePlan) : List Code := b.targetCode p ++ b.wrapperCode p

end BridgeEmitter

end LateBridge
