import LateBridge.Dispatch.Value
import LateBridge.Symbols.Display
import LateBridge.Symbols.Hierarchy

/-!
# Dispatch/Binding — type arguments from the run-time types of arguments

Each parameter type that mentions a type parameter of the method is matched against the run-time
type of its argument: a declared type against the argument type, its base types and all of its
interfaces, where exactly one instantiation has to be among them; an array against an array of the
same rank.  Values without a run-time type tell nothing.  Once every type parameter is known, the
constraints that hold at run time are checked, and then the conversion of every argument.
-/

namespace LateBridge

/-! ## Failures -/

/-- **Why a call does not bind.**  Types and type parameters are given as they are displayed. -/
inductive BindFailure where
  | argumentCount (method : String) (expected actual : Nat)
  | argumentMismatch (param actual expected : String)
  | nullForValueType (param expected : String)
  | conflict (param first second : String)
  | uninferred (param : String)
  | constraintViolated (param type : String)
  /-- Raised by code that runs after a call has bound. -/
  | raised (message : String)
  deriving DecidableEq, Repr

/-- The message of a failure. -/
def BindFailure.message : BindFailure → String
  | argumentCount method expected actual =>
    s!"'{method}' takes {expected} arguments but was given {actual}"
  | argumentMismatch param actual expected =>
    s!"argument '{param}' of type '{actual}' does not convert to '{expected}'"
  | nullForValueType param expected =>
    s!"null cannot be passed as argument '{param}' of value type '{expected}'"
  | conflict param first second =>
    s!"type argument '{param}' inferred as both '{first}' and '{second}'"
  | uninferred param => s!"type argument '{param}' cannot be inferred from the arguments"
  | constraintViolated param type =>
    s!"type '{type}' does not satisfy the constraints of type parameter '{param}'"
  | raised message => message

/-- Why a parameter type does not match a run-time type. -/
inductive MatchError where
  | mismatch
  /-- A type parameter would have to be two types. -/
  | conflict (param : TypeVar) (first second : Ty)
  deriving DecidableEq, Repr

namespace Graph

variable (g : Graph)

/-! ## Matching -/

/-- Whether a type mentions one of the type parameters. -/
def mentions (generic : List TypeVar) (t : Ty) : Bool := t.vars.any (generic.contains ·)

/-- **The instantiations of a declared type** among a type, its base types and its interfaces, each
once. -/
def instances (n : DeclName) (t : Ty) : List Ty :=
  ((t :: (g.baseChain t ++ g.allInterfaces t)).filter (·.declName? == some n)).eraseDups

/-- The bindings with one more, if it agrees with those there are. -/
def bindVar (bound : Ty.Subst) (v : TypeVar) (actual : Ty) : Except MatchError Ty.Subst :=
  match bound.lookup v with
  | none => .ok (bound ++ [(v, actual)])
  | some first => if first == actual then .ok bound else .error (.conflict v first actual)

mutual

/-- **Matching a parameter type with a run-time type**, beside the bindings there are.  A type that
mentions no type parameter of the method matches everything; its conversion is checked later. -/
def unify (generic : List TypeVar) (bound : Ty.Subst) : Ty → Ty → Except MatchError Ty.Subst
  | .var v, actual => if generic.contains v then bindVar bound v actual else .ok bound
  | .array element rank, actual =>
    if !mentions generic (.array element rank) then .ok bound
    else match actual with
      | .array element' rank' =>
        if rank' == rank then unify generic bound element element' else .error .mismatch
      | _ => .error .mismatch
  | .named n args, actual =>
    if !mentions generic (.named n args) then .ok bound
    else match g.instances n actual with
      | [.named _ args'] => unifyList generic bound args args'
      | _ => .error .mismatch
  | .pointer target, _ =>
    if mentions generic (.pointer target) then .error .mismatch else .ok bound
  | .fnptr params ret, _ =>
    if mentions generic (.fnptr params ret) then .error .mismatch else .ok bound
  | .void, _ | .dynamic, _ | .error, _ => .ok bound

/-- Matching types one by one. -/
def unifyList (generic : List TypeVar) (bound : Ty.Subst) :
    List Ty → List Ty → Except MatchError Ty.Subst
  | pattern :: patterns, actual :: actuals =>
    match unify generic bound pattern actual with
    | .ok bound => unifyList generic bound patterns actuals
    | .error e => .error e
  | _, _ => .ok bound

end

/-! ## Inference -/

/-- A failed match as a failure of the call. -/
def matchFailure (q : Param) (actual : Ty) : MatchError → BindFailure
  | .mismatch => .argumentMismatch q.name actual.display q.type.display
  | .conflict v first second => .conflict v.name first.display second.display

/-- The bindings from all arguments that have a run-time type. -/
def unifyArgs (generic : List TypeVar) (bound : Ty.Subst) :
    List (Param × Value) → Except BindFailure Ty.Subst
  | [] => .ok bound
  | (q, arg) :: rest =>
    match arg.runtimeType? g with
    | none => unifyArgs generic bound rest
    | some actual =>
      match g.unify generic bound q.type actual with
      | .ok bound => unifyArgs generic bound rest
      | .error e => .error (matchFailure q actual e)

/-- The type arguments in declaration order. -/
def instantiation (bound : Ty.Subst) : List TypeVar → Except BindFailure Ty.Subst
  | [] => .ok []
  | v :: vs =>
    match bound.lookup v with
    | none => .error (.uninferred v.name)
    | some t =>
      match instantiation bound vs with
      | .ok rest => .ok ((v, t) :: rest)
      | .error e => .error e

/-! ## Checks -/

/-- Whether a type is a value type whose values are never null. -/
def isNonNullable (t : Ty) : Bool :=
  g.isValueType t &&
    match g.find? "System.Nullable`1" with
    | some d => t.declName? != some d.name
    | none => true

/-- **Whether a type argument passes the constraints that are checked when binding**: reference and
value kinds, and the constraint types under the type arguments. -/
def satisfies (s : Ty.Subst) (v : TypeVar) (t : Ty) : Bool :=
  let kinds := g.constraints v
  !(kinds.reference && g.isValueType t) && !(kinds.value && !g.isNonNullable t) &&
    (g.constraintTypes v).all fun c => g.isAssignable t (c.subst s)

/-- The first type argument that does not pass its constraints. -/
def checkConstraints (s : Ty.Subst) : Ty.Subst → Except BindFailure Unit
  | [] => .ok ()
  | (v, t) :: rest =>
    if g.satisfies s v t then checkConstraints s rest
    else .error (.constraintViolated v.name t.display)

/-- Whether one argument converts to its parameter type. -/
def checkArg (s : Ty.Subst) (q : Param) (arg : Value) : Except BindFailure Unit :=
  let expected := q.type.subst s
  match arg.runtimeType? g with
  | some actual =>
    if g.isAssignable actual expected then .ok ()
    else .error (.argumentMismatch q.name actual.display expected.display)
  | none =>
    if g.isNonNullable expected then .error (.nullForValueType q.name expected.display)
    else .ok ()

/-- The first argument that does not convert. -/
def checkArgs (s : Ty.Subst) : List (Param × Value) → Except BindFailure Unit
  | [] => .ok ()
  | (q, arg) :: rest =>
    match g.checkArg s q arg with
    | .ok () => checkArgs s rest
    | .error e => .error e

/-- **The type arguments of a call**, in declaration order. -/
def infer (m : Method) (args : List Value) : Except BindFailure Ty.Subst :=
  if args.length != m.params.length then
    .error (.argumentCount m.display m.params.length args.length)
  else do
    let pairs := m.params.zip args
    let bound ← g.unifyArgs m.vars [] pairs
    let s ← instantiation bound m.vars
    g.checkConstraints s s
    g.checkArgs s pairs
    return s

end Graph

end LateBridge
