import LateBridge.Bridge.Plan
import LateBridge.Dispatch.Binding

/-!
# Dispatch/Call — calling through a bridge

A call binds the method to the run-time types of its arguments and then runs the body of the
method.  Where a failure comes from decides what the caller sees: a failure of the binding is told
in terms of the late-bound arguments, or gives default values if the bridge says so; a failure of
the body is handed on unchanged.
-/

namespace LateBridge

/-- **What a bridge fails with.** -/
inductive BridgeError where
  /-- The one late-bound argument did not bind. -/
  | argumentType (param : String) (runtimeType? expected? : Option String) (source : BindFailure)
  /-- Several arguments are late-bound and the call did not bind. -/
  | arguments (source : BindFailure)
  /-- The body failed. -/
  | inner (failure : BindFailure)
  deriving DecidableEq, Repr

/-- Where a failure was raised. -/
inductive Origin where
  | bridge
  | inner
  deriving DecidableEq, Repr

namespace BridgeError

/-- Where a failure was raised. -/
def origin : BridgeError → Origin
  | argumentType .. | arguments _ => .bridge
  | inner _ => .inner

/-- The failure of the binding or of the body. -/
def failure : BridgeError → BindFailure
  | argumentType _ _ _ source | arguments source => source
  | inner failure => failure

/-- The message about one argument. -/
def argumentMessage (runtimeType? expected? : Option String) : String :=
  let runtimeType := runtimeType?.getD ""
  let expected := (expected?.map fun expected => s!" '{expected}'").getD ""
  s!"The argument of type '{runtimeType}' could not be dynamically resolved to its specific " ++
    s!"type{expected}."

/-- The message of a failure. -/
def message : BridgeError → String
  | argumentType _ runtimeType? expected? _ => argumentMessage runtimeType? expected?
  | arguments _ => "The arguments could not be dynamically resolved to their specific types."
  | inner failure => failure.message

end BridgeError

/-- **The body of a method**, with effects in a monad: from the type arguments and the argument
slots to a value or a failure, and the slots afterwards. -/
abbrev BodyIn (m : Type → Type) := Ty.Subst → List Value → m (Except BindFailure Value × List Value)

/-- The body of a method without effects. -/
abbrev Body := Ty.Subst → List Value → Except BindFailure Value × List Value

namespace BridgePlan

variable (g : Graph) (p : BridgePlan)

/-- **The declaration an argument has to match**, if there is one: the declared type itself, or an
array of it. -/
def expectedDeclaration? : Ty → Option String
  | .named n _ => some n.display
  | .array element rank => element.declName?.map fun n => n.display ++ rankText rank
  | _ => none

/-- The slots after a call that did not bind: the results passed back by reference are set to their
default values. -/
def defaultSlots : List WrapperParam → List Value → List Value
  | q :: qs, slot :: slots =>
    (if q.refKind == .out then .default q.type else slot) :: defaultSlots qs slots
  | _, slots => slots

/-- The value of a call that did not bind. -/
def defaultValue : Value :=
  match p.shape.value? with
  | some t => .default t
  | none => .unit

/-- The late-bound parameters with their positions. -/
def dynamicSlots : List (Nat × WrapperParam) :=
  (p.wrapper.params.zipIdx.map fun (q, i) => (i, q)).filter (·.2.isDynamic)

/-- What the caller is told about a call that did not bind. -/
def unboundError (args : List Value) (failure : BindFailure) : BridgeError :=
  match p.dynamicSlots with
  | [(i, q)] =>
    .argumentType q.name ((args[i]?.bind (·.runtimeType? g)).map Ty.display)
      (expectedDeclaration? q.target) failure
  | _ => .arguments failure

/-- What a call that did not bind gives, and the slots afterwards. -/
def unbound (args : List Value) (failure : BindFailure) : Except BridgeError Value × List Value :=
  if p.ignoreUnbound then (.ok p.defaultValue, defaultSlots p.wrapper.params args)
  else (.error (p.unboundError g args failure), args)

/-- **A call through the bridge** in the monad of its body: its value or failure, and the argument
slots afterwards. -/
def invokeIn {m : Type → Type} [Monad m] (args : List Value) (body : BodyIn m) :
    m (Except BridgeError Value × List Value) :=
  match g.infer p.method args with
  | .error failure => return p.unbound g args failure
  | .ok s => do
    match ← body s args with
    | (.ok value, slots) => return (.ok value, slots)
    | (.error failure, slots) => return (.error (.inner failure), slots)

/-- A call through the bridge whose body has no effects. -/
def invoke (args : List Value) (body : Body) : Except BridgeError Value × List Value :=
  Id.run (p.invokeIn g args body)

end BridgePlan

end LateBridge
