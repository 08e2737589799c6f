import LateBridge.Symbols.Graph

/-!
# Symbols/Hierarchy — base types, interfaces and conversion

A declaration gives its base and interfaces over its own parameters; for a constructed type they are
instantiated.  Base links may form cycles or grow without end, so a base chain stops at the first
repeat and at `maxBaseChain` entries.  The interface closure is walked depth first, owners nearest
first and interfaces in declaration order.

Interfaces can extend each other to larger and larger types.  A walk over those never ends; here it
stops at the visit limit, and the type is taken to have no interfaces.  So what holds of every graph
is about a run only if the run ends, that is if the closures it asks for are within the limit.
-/

namespace LateBridge.Graph

variable (g : Graph)

/-! ## Base types -/

/-- **The base type** with arguments applied; arrays derive from the array root. -/
def base? : Ty → Option Ty
  | .named n args => do
    let d ← g.decl? n
    return (← d.base?).subst (n.bindArgs args)
  | .array .. => g.special? .array
  | _ => none

/-- The greatest length of a base chain. -/
def maxBaseChain : Nat := 256

/-- The base chain that continues `chain` with `next`. -/
def chainFrom : Nat → List Ty → Option Ty → List Ty
  | 0, chain, _ | _, chain, none => chain
  | room + 1, chain, some base =>
    if base ∈ chain then chain else chainFrom room (chain ++ [base]) (g.base? base)

/-- **The base chain** of a type, from its base type upwards. -/
def baseChain (t : Ty) : List Ty := g.chainFrom maxBaseChain [] (g.base? t)

/-! ## Interfaces -/

/-- **The direct interfaces** of a type, with arguments applied. -/
def interfaces : Ty → List Ty
  | .named n args =>
    match g.decl? n with
    | some d => d.interfaces.map (·.subst (n.bindArgs args))
    | none => []
  | _ => []

/-- The depth-first walk: the next pending interface is visited unless it was seen, and its own
interfaces come before the other pending ones.  None when the budget of visits runs out. -/
def visit : Nat → List Ty → List Ty → Option (List Ty)
  | _, [], seen => some seen
  | 0, _ :: _, _ => none
  | budget + 1, next :: pending, seen =>
    if next ∈ seen then visit budget pending seen
    else visit budget (g.interfaces next ++ pending) (seen ++ [next])

/-- The closure of several owners, one after the other. -/
def visitOwners (budget : Nat) : List Ty → List Ty → Option (List Ty)
  | [], seen => some seen
  | owner :: owners, seen =>
    match g.visit budget (g.interfaces owner) seen with
    | some seen => visitOwners budget owners seen
    | none => none

/-- The interface closure of a type, if it is within the visit limit. -/
def closure? (t : Ty) : Option (List Ty) :=
  g.visitOwners g.visitLimit (t :: g.baseChain t) []

/-- **Every interface of a type**: its own, those of its base types, and those they extend, in
first-visit order; none at all where the walk goes past the visit limit. -/
def allInterfaces (t : Ty) : List Ty := (g.closure? t).getD []

/-! ## Conversion -/

/-- **Whether a value of type `source` may stand where `target` is expected**, by reference or by
boxing.  Arrays convert to arrays of the same rank when the elements are the same or convert by
reference. -/
def isAssignable : Ty → Ty → Bool
  | source@(.array e r), target =>
    source == target || target.isSpecial .object ||
      match target with
      | .array e' r' => r == r' && (e == e' || (!g.isValueType e && isAssignable e e'))
      | _ => (g.baseChain source).contains target || (g.allInterfaces source).contains target
  | source, target =>
    source == target || target.isSpecial .object ||
      (target.isSpecial .valueType && g.isValueType source) ||
      (g.baseChain source).contains target || (g.allInterfaces source).contains target

/-- Every type converts to itself. -/
theorem isAssignable_refl (t : Ty) : g.isAssignable t t = true := by
  cases t <;> simp [isAssignable]

end LateBridge.Graph
