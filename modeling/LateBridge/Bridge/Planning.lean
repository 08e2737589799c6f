import LateBridge.Bridge.Erasure
import LateBridge.Bridge.Marks
import LateBridge.Bridge.Plan

/-!
# Bridge/Planning — from marked methods to plans

A method either gets a whole plan or only reports.  First a `Draft` gathers the erasures of its
marked parameters, parameter types and return type, all over one erasure state; then every check
reports on the draft; and only a draft without errors becomes a plan.
-/

namespace LateBridge

/-- **A planner**: the graph, its well-known types and the names of the markers. -/
structure Planner where
  graph : Graph
  known : WellKnown
  names : MarkerNames

/-- Plans and reports, both in the order of the methods they are about. -/
structure Outcome where
  plans : List BridgePlan
  reports : List Diagnostic
  deriving DecidableEq, Repr, Inhabited

/-- One outcome after another. -/
def Outcome.append (a b : Outcome) : Outcome := ⟨a.plans ++ b.plans, a.reports ++ b.reports⟩

/-- A function with state applied along a list. -/
def threaded {σ α β : Type} (f : σ → α → β × σ) (s : σ) : List α → List β × σ
  | [] => ([], s)
  | a :: as =>
    let (b, s) := f s a
    let (bs, s) := threaded f s as
    (b :: bs, s)

/-! ## Drafts -/

/-- **What a marked method erases to.** -/
structure Draft where
  method : Method
  marks : Marks
  erased : List (TypeVar × Erasure.Answer)
  /-- For each parameter its erased type and whether it needed erasing. -/
  params : List (Erasure.Answer × Bool)
  returns : Erasure.Answer
  state : Erasure.State

namespace Planner

variable (p : Planner)

/-- Erasure over the marks of a method. -/
def erasure (marks : Marks) : Erasure := ⟨p.graph, p.known, marks.marked⟩

/-- The draft of a method. -/
def draft (m : Method) (marks : Marks) : Draft :=
  let e := p.erasure marks
  let (erased, s) := threaded e.eraseParam {} (marks.marked.map (·.1))
  let (params, s) := threaded e.simplify s (m.params.map (·.type))
  let (returns, s) :=
    if m.returnsVoid then (.ok .void, s) else e.simplifyReturn s m.returns m.flags.isAsync
  { method := m, marks, erased := (marks.marked.map (·.1)).zip erased
    params := params.zip (m.params.map fun q => e.needs q.type), returns, state := s }

/-! ## Checks -/

/-- Names between quotes, separated by commas. -/
def quoted (names : List String) : String := ", ".intercalate (names.map fun n => "'" ++ n ++ "'")

/-- The report of a failed erasure. -/
def erasureReport (m : Method) (shown : String) (location : Option Location) :
    ErasureError → Diagnostic
  | .ambiguous candidates =>
    .ofRule .ambiguousErasure [shown, m.display, quoted (candidates.map Ty.display)] location
  | .unresolvable => .ofRule .unresolvableErasure [shown, m.display] location
  | .pointer t => .ofRule .pointerNeedsDispatch [t.display, m.display] location

/-- The reports of an erasure. -/
def answerReports (m : Method) (shown : String) (location : Option Location) :
    Erasure.Answer → List Diagnostic
  | .ok _ => []
  | .error e => [erasureReport m shown location e]

/-- The constraints of a marked parameter that are dropped. -/
def droppedConstraints (m : Method) (tp : TypeParam) : List Diagnostic :=
  let report (word : String) : Diagnostic :=
    .ofRule .unenforcedConstraint [m.display, tp.var.name, word] (tp.location.or m.location)
  (if tp.constraints.unmanaged then [report "unmanaged"] else []) ++
    (if tp.constraints.notNull then [report "notnull"] else [])

/-- What is wrong with a signature whatever its types erase to. -/
def signatureReports (m : Method) (marks : Marks) : List Diagnostic :=
  (m.typeParams.filter fun tp => marks.isMarked tp.var).flatMap (droppedConstraints m) ++
    (if m.flags.explicitInterface then [.ofRule .explicitInterface [m.display] m.location]
     else []) ++
    (if m.flags.returnsByRef then [.ofRule .returnsByReference [m.display] m.location] else [])

/-- The place of a type parameter. -/
def paramLocation (m : Method) (v : TypeVar) : Option Location :=
  (m.typeParams.find? (·.var == v)).bind (·.location)

/-- What is wrong with the erasure of one parameter. -/
def paramReports (m : Method) (q : Param) (answer : Erasure.Answer) (needs : Bool) :
    List Diagnostic :=
  let location := q.location.or m.location
  (if needs && q.refKind != .none then [.ofRule .referenceParameter [m.display, q.name] location]
   else []) ++ answerReports m q.type.display location answer

/-- What is wrong with the erasures of a draft. -/
def draftReports (d : Draft) : List Diagnostic :=
  let m := d.method
  d.erased.flatMap (fun (v, answer) => answerReports m v.name (paramLocation m v) answer) ++
    (m.params.zip d.params).flatMap (fun (q, answer, needs) => paramReports m q answer needs) ++
    answerReports m m.returns.display m.location d.returns

/-- What is wrong with the name of the target: the wrapper or another member has it. -/
def targetReports (m : Method) (marks : Marks) : List Diagnostic :=
  let target := targetName m.name
  let taken := (p.graph.decl? m.declaring).any fun d => p.graph.hasMember d target
  if marks.wrapperName m == target || taken then
    [.ofRule .targetNameTaken [m.display, target] m.location]
  else []

/-- The type parameters of a method that are not marked. -/
def retained (m : Method) (marks : Marks) : List TypeVar := m.vars.filter (!marks.isMarked ·)

/-- **The partial definitions a wrapper could implement**: those of its name, with as many
parameters and as many type parameters as it keeps. -/
def definitions (m : Method) (marks : Marks) : List Method :=
  ((p.graph.decl? m.declaring).map fun d =>
    (d.methodsNamed (marks.wrapperName m)).filter fun other =>
      other.id != m.id && other.flags.partialDefinition &&
        other.flags.isStatic == m.flags.isStatic && other.params.length == m.params.length &&
        other.arity == (retained m marks).length).getD []

/-- A wrapper cannot implement two definitions. -/
def definitionReports (m : Method) (marks : Marks) : List Diagnostic :=
  match p.definitions m marks with
  | [] | [_] => []
  | several =>
    [.ofRule .ambiguousDefinition
      [m.display, marks.wrapperName m, quoted (several.map Method.display)] m.location]

/-- The marked parameters in the parameter types. -/
def inferable (m : Method) (marks : Marks) : List TypeVar :=
  (m.params.map (·.type)).foldl (p.erasure marks).collect []

/-- Every marked parameter has to be in a parameter type. -/
def inferenceReports (m : Method) (marks : Marks) : List Diagnostic :=
  let found := p.inferable m marks
  match (marks.marked.map (·.1)).filter (!found.contains ·) with
  | [] => []
  | missing =>
    [.ofRule .uninferableParameters
      [m.display, ", ".intercalate (missing.map (·.name))] m.location]

/-- **All reports on a draft**, each once. -/
def reports (d : Draft) : List Diagnostic :=
  (signatureReports d.method d.marks ++ draftReports d ++ p.targetReports d.method d.marks ++
    p.definitionReports d.method d.marks ++ p.inferenceReports d.method d.marks).eraseDups

/-! ## Wrappers -/

/-- **Whether a wrapper with a return type awaits its target.**  Nobody can await a method without
a return type. -/
def asyncShape (returns : Ty) (isAsync : Bool) : AsyncShape :=
  if returns == .void then ⟨false, none⟩
  else if !isAsync then ⟨false, some returns⟩
  else if p.known.isPlainAwaitable returns then ⟨true, none⟩
  else
    match returns with
    | .named n [value] =>
      if p.known.isGenericAwaitable n then ⟨true, some value⟩ else ⟨false, some returns⟩
    | _ => ⟨false, some returns⟩

/-- The type of an answer. -/
def typeOf : Erasure.Answer → Ty
  | .ok t => t
  | .error _ => .error

/-- A parameter of a wrapper of its own: an erased one keeps neither a default other than null nor
the gathering of arguments. -/
def freshParam (q : Param) (answer : Erasure.Answer) (needs : Bool) : WrapperParam :=
  { name := q.name, type := typeOf answer, target := q.type, refKind := q.refKind
    isParams := q.isParams && !needs
    default? := q.default?.filter fun value => !needs || value == .null, isDynamic := needs }

/-- The constraints of a parameter that stays: its constraint types erased, without the roots. -/
def freshClause (marks : Marks) (s : Erasure.State) (v : TypeVar) :
    ConstraintClause × Erasure.State :=
  let (answers, s) := threaded (p.erasure marks).simplify s (p.graph.constraintTypes v)
  let types := answers.filterMap fun
    | .ok t => if t != p.known.object && t != p.known.valueType then some t else none
    | .error _ => none
  (⟨v, p.graph.constraints v, types⟩, s)

/-- **A wrapper of its own.** -/
def freshWrapper (d : Draft) : Wrapper :=
  let m := d.method
  let kept := retained m d.marks
  { name := d.marks.wrapperName m, modifiers := d.marks.modifiers m
    isStatic := m.flags.isStatic, isReadonly := m.flags.isReadonly
    isExtension := m.flags.isExtension, isPartial := false
    returns := typeOf d.returns, typeParams := kept
    constraints := (threaded (p.freshClause d.marks) d.state kept).1
    params := (m.params.zip d.params).map fun (q, answer, needs) => freshParam q answer needs }

/-- A parameter of a wrapper that implements a definition. -/
def definedParam (q : Param) (target : Ty) (needs : Bool) : WrapperParam :=
  { name := q.name, type := q.type, target, refKind := q.refKind, isParams := q.isParams
    default? := none, isDynamic := needs }

/-- **A wrapper that implements a definition** and takes its signature. -/
def definedWrapper (d : Draft) (definition : Method) : Wrapper :=
  { name := definition.name, modifiers := definition.accessibility.keywords
    isStatic := definition.flags.isStatic, isReadonly := definition.flags.isReadonly
    isExtension := definition.flags.isExtension, isPartial := true
    returns := definition.returns, typeParams := definition.vars
    constraints := definition.typeParams.map TypeParam.clause
    params := (definition.params.zip (d.method.params.zip d.params)).map
      fun (q, target, _, needs) => definedParam q target.type needs }

/-! ## Plans -/

/-- The plan of a draft without errors.  A definition cannot say that it is asynchronous, so the
method decides. -/
def planOf (d : Draft) : BridgePlan :=
  let m := d.method
  let (wrapper, isAsync, definition?) := match p.definitions m d.marks with
    | [definition] =>
      (definedWrapper d definition, m.flags.isAsync || definition.flags.isAsync,
        some definition.id)
    | _ => (p.freshWrapper d, m.flags.isAsync, none)
  { method := m
    erasures := d.erased.filterMap fun
      | (v, .ok t) => some (v, t)
      | (_, .error _) => none
    retained := retained m d.marks, target := targetName m.name, wrapper
    shape := p.asyncShape wrapper.returns isAsync, definition?
    inferable := p.inferable m d.marks, ignoreUnbound := d.marks.ignoreUnbound }

/-- **Planning one method.** -/
def planMethod (m : Method) : Outcome :=
  match p.names.read m with
  | .error d => ⟨[], [d]⟩
  | .ok none => ⟨[], []⟩
  | .ok (some marks) =>
    let d := p.draft m marks
    let reports := p.reports d
    ⟨if hasErrors reports then [] else [p.planOf d], reports⟩

/-- The types around a method, itself included, that cannot be given further members. -/
def closedTypes (m : Method) : List TypeDecl :=
  (m.declaring.chain.filterMap p.graph.decl?).filter (!·.isPartial)

/-- The report of a type that cannot be given further members. -/
def closedReport (d : TypeDecl) : Diagnostic :=
  .ofRule .typeNotPartial [d.name.display] d.location

/-- **Planning methods one after the other**; a type in `told` has been reported already. -/
def planFrom (told : List DeclName) : List Method → Outcome
  | [] => ⟨[], []⟩
  | m :: ms =>
    match p.closedTypes m with
    | [] => (p.planMethod m).append (planFrom told ms)
    | closed =>
      let fresh := closed.filter fun d => !told.contains d.name
      Outcome.append ⟨[], fresh.map closedReport⟩ (planFrom (told ++ fresh.map (·.name)) ms)

/-- **Planning a group of methods**: each type that is not partial is reported once. -/
def planGroup (ms : List Method) : Outcome := p.planFrom [] ms

end Planner

end LateBridge
