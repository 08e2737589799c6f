import LateBridge.Symbols.Hierarchy
import LateBridge.Symbols.WellKnown

/-!
# Bridge/Erasure — types that do not depend on marked parameters

A type that mentions a marked parameter cannot stand in a wrapper.  It is erased to the closest
type that mentions none: an array to the array root; an interface to its single usable interface;
a class or structure to its nearest usable base type, else to its single usable interface, where a
structure falls back on the root of the value types; a marked parameter to the type given for it,
else to its single usable constraint type, else to the root that its constraints leave.  Pointers
have no erasure.

Constraints of marked parameters may refer to each other in cycles.  Erasing a parameter therefore
keeps the parameters under way on a stack and remembers every result.
-/

namespace LateBridge

/-- **Why a type has no erasure.** -/
inductive ErasureError where
  /-- Several types would do equally well. -/
  | ambiguous (candidates : List Ty)
  | unresolvable
  | pointer (type : Ty)
  deriving DecidableEq, Repr

/-- The message of a failed erasure. -/
def ErasureError.message : ErasureError → String
  | .ambiguous _ => "ambiguous erasure"
  | .unresolvable => "unresolvable erasure"
  | .pointer _ => "pointer type needs dynamic dispatch"

/-- **What erasure depends on**: the graph and the marked parameters, each with the type given for
it. -/
structure Erasure where
  graph : Graph
  known : WellKnown
  marked : List (TypeVar × Option Ty)

namespace Erasure

/-- An erased type, or why there is none. -/
abbrev Answer := Except ErasureError Ty

/-- **The state of erasing**: the results remembered, and the parameters under way. -/
structure State where
  erased : List (TypeVar × Answer) := []
  visiting : List TypeVar := []
  deriving Inhabited

variable (e : Erasure)

/-! ## Marked parameters in a type -/

/-- Whether a parameter is marked. -/
def isMarked (v : TypeVar) : Bool := e.marked.any (·.1 == v)

/-- How deep types may nest. -/
def maxNesting : Nat := 64

mutual

/-- Whether a type at a depth mentions a marked parameter or reaches beyond the depth limit. -/
def needsAt (depth : Nat) : Ty → Bool
  | .named _ args => depth > maxNesting || needsAtList (depth + 1) args
  | .array element _ => depth > maxNesting || needsAt (depth + 1) element
  | .var v => depth > maxNesting || e.isMarked v
  | .pointer target => depth > maxNesting || needsAt (depth + 1) target
  | .fnptr params ret =>
    depth > maxNesting || needsAtList (depth + 1) params || needsAt (depth + 1) ret
  | .void | .dynamic | .error => depth > maxNesting

/-- Whether one of several types does. -/
def needsAtList (depth : Nat) : List Ty → Bool
  | [] => false
  | t :: ts => needsAt depth t || needsAtList depth ts

end

/-- **Whether a type has to be erased**: it mentions a marked parameter, or is too deep to tell. -/
def needs (t : Ty) : Bool := e.needsAt 0 t

mutual

/-- Whether a type at a depth reaches beyond the depth limit. -/
def tooDeepAt (depth : Nat) : Ty → Bool
  | .named _ args => depth > maxNesting || tooDeepAtList (depth + 1) args
  | .array element _ => depth > maxNesting || tooDeepAt (depth + 1) element
  | .pointer target => depth > maxNesting || tooDeepAt (depth + 1) target
  | .fnptr params ret =>
    depth > maxNesting || tooDeepAtList (depth + 1) params || tooDeepAt (depth + 1) ret
  | .var _ | .void | .dynamic | .error => depth > maxNesting

/-- Whether one of several types does. -/
def tooDeepAtList (depth : Nat) : List Ty → Bool
  | [] => false
  | t :: ts => tooDeepAt depth t || tooDeepAtList depth ts

end

/-- Whether a type nests deeper than the limit. -/
def tooDeep (t : Ty) : Bool := tooDeepAt 0 t

/-- A list with an element added at its end, unless it is there. -/
def addNew {α : Type} [DecidableEq α] (found : List α) (a : α) : List α :=
  if a ∈ found then found else found ++ [a]

/-- **The marked parameters of a type** after those already found, each once. -/
def collect (found : List TypeVar) (t : Ty) : List TypeVar :=
  (t.vars.filter e.isMarked).foldl addNew found

/-! ## Named types -/

/-- The single usable type of the first list with usable ones. -/
def pick : List (List Ty) → Answer
  | [] => .error .unresolvable
  | candidates :: rest =>
    match candidates.filter (!e.needs ·) with
    | [t] => .ok t
    | [] => pick rest
    | usable => .error (.ambiguous usable)

/-- The single usable interface: a direct one, else one of the closure. -/
def toInterface (t : Ty) : Answer := e.pick [e.graph.interfaces t, e.graph.allInterfaces t]

/-- The nearest usable base type below the roots. -/
def usableBase? (t : Ty) : Option Ty :=
  ((e.graph.baseChain t).takeWhile fun b => b != e.known.object && b != e.known.valueType).find?
    (!e.needs ·)

/-- A class or structure. -/
def toBase (t : Ty) : Answer :=
  match e.usableBase? t with
  | some base => .ok base
  | none =>
    match e.toInterface t with
    | .ok i => .ok i
    | .error _ => if e.graph.isValueType t then .ok e.known.valueType else .error .unresolvable

/-- A declared type. -/
def ofNamed (t : Ty) : Answer := if e.graph.isInterface t then e.toInterface t else e.toBase t

/-! ## All types -/

/-- A step that erases a parameter, given how to start the next one; none when it is out of fuel. -/
abbrev VarStep := State → TypeVar → Option (Answer × State)

/-- **The erasure of a type**, given how to erase a parameter. -/
def simplifyBy (eraseVar : VarStep) (s : State) (t : Ty) : Option (Answer × State) :=
  if !e.needs t then some (.ok t, s)
  else if tooDeep t then some (.error .unresolvable, s)
  else
    match t with
    | .array .. => some (.ok e.known.array, s)
    | .var v => eraseVar s v
    | .pointer _ | .fnptr .. => some (.error (.pointer t), s)
    | .named .. => some (e.ofNamed t, s)
    | .void | .dynamic | .error => some (.ok t, s)

/-- The erasures of several types that have one, after those already found, each once. -/
def eraseEach (eraseVar : VarStep) (s : State) (found : List Ty) :
    List Ty → Option (List Ty × State)
  | [] => some (found, s)
  | t :: ts =>
    match e.simplifyBy eraseVar s t with
    | none => none
    | some (.ok r, s) => eraseEach eraseVar s (addNew found r) ts
    | some (.error _, s) => eraseEach eraseVar s found ts

/-- The root that the constraints of a parameter leave. -/
def rootOf (kinds : Constraints) (types : List Ty) : Answer :=
  if kinds.wantsValue then .ok e.known.valueType
  else if types.isEmpty then .ok e.known.object
  else .error .unresolvable

/-- A parameter erased through its constraint types: those that need no erasure come first. -/
def ofConstraints (eraseVar : VarStep) (s : State) (v : TypeVar) : Option (Answer × State) :=
  let types := e.graph.constraintTypes v
  match types.filter (!e.needs ·) with
  | [t] => some (.ok t, s)
  | t :: u :: rest => some (.error (.ambiguous (t :: u :: rest)), s)
  | [] =>
    match e.eraseEach eraseVar s [] types with
    | none => none
    | some ([t], s) => some (.ok t, s)
    | some ([], s) => some (e.rootOf (e.graph.constraints v) types, s)
    | some (found, s) => some (.error (.ambiguous found), s)

/-- **The erasure of a parameter** with some fuel: the type given for it, else the result
remembered, else by its constraints; one that is under way already has none. -/
def eraseVarWithin : Nat → VarStep
  | 0, _, _ => none
  | fuel + 1, s, v =>
    match e.marked.lookup v with
    | some (some given) => some (.ok given, s)
    | _ =>
      match s.erased.lookup v with
      | some answer => some (answer, s)
      | none =>
        if v ∈ s.visiting then some (.error .unresolvable, s)
        else
          match e.ofConstraints (eraseVarWithin fuel) { s with visiting := v :: s.visiting } v with
          | none => none
          | some (answer, s) =>
            some (answer, { erased := (v, answer) :: s.erased, visiting := s.visiting.erase v })

/-- The fuel that is always enough: every marked parameter is under way at most once, before them
one that is not marked, and after them one that is refused. -/
def fuel : Nat := e.marked.length + 2

/-- **Erasing a parameter.** -/
def eraseParam (s : State) (v : TypeVar) : Answer × State :=
  (e.eraseVarWithin e.fuel s v).getD (.error .unresolvable, s)

/-- **Erasing a type.** -/
def simplify (s : State) (t : Ty) : Answer × State :=
  (e.simplifyBy (e.eraseVarWithin e.fuel) s t).getD (.error .unresolvable, s)

/-- The plain task for a generic one. -/
def plainTask? (t : Ty) : Option Ty :=
  match t.declName? with
  | none => none
  | some n =>
    if some n == e.known.genericTask? && e.known.task?.isSome then e.known.task?
    else if some n == e.known.genericValueTask? then e.known.valueTask?
    else none

/-- **Erasing a return type**: the task of an asynchronous method loses its value. -/
def simplifyReturn (s : State) (t : Ty) (isAsync : Bool) : Answer × State :=
  if isAsync && e.needs t then
    match e.plainTask? t with
    | some task => (.ok task, s)
    | none => e.simplify s t
  else e.simplify s t

end Erasure

end LateBridge
