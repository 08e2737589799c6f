import LateBridge.Symbols.Special

/-!
# Symbols/Ty — types of the host program

Types are trees compared by structure.  A named type carries one argument for each type parameter
along its containing chain, outermost first.  A type variable stands for a type parameter: it names
the declaration that owns it and its place there.
-/

namespace LateBridge

/-- **A method** — its declaring type and its place there. -/
structure MethodId where
  type : DeclName
  position : Nat
  deriving DecidableEq, Repr, Inhabited

/-- The declaration that owns a type parameter. -/
inductive Owner where
  | type (name : DeclName)
  | method (id : MethodId)
  deriving DecidableEq, Repr, Inhabited

/-- **A type variable** — the `index`-th type parameter of its owner. -/
structure TypeVar where
  owner : Owner
  index : Nat
  name : String
  deriving DecidableEq, Repr, Inhabited

/-- The place among the owner's parameters, which is kept in 16 bits. -/
def TypeVar.ordinal (v : TypeVar) : Nat := v.index % Nat.pow 2 16

/-- **Types.** -/
inductive Ty where
  /-- A declared type with its arguments. -/
  | named (name : DeclName) (args : List Ty)
  /-- An array with `rank` dimensions. -/
  | array (element : Ty) (rank : Nat)
  /-- A type parameter. -/
  | var (v : TypeVar)
  /-- A pointer. -/
  | pointer (target : Ty)
  /-- A function pointer. -/
  | fnptr (params : List Ty) (ret : Ty)
  /-- No value. -/
  | void
  /-- The late-bound type. -/
  | dynamic
  /-- A type that could not be determined. -/
  | error
  deriving Repr, Inhabited

namespace Ty

/-! ## Equality -/

mutual

/-- Whether two types have the same structure. -/
def same : Ty → Ty → Bool
  | .named n as, .named m bs => n == m && sameList as bs
  | .array a r, .array b q => r == q && a.same b
  | .var v, .var w => v == w
  | .pointer a, .pointer b => a.same b
  | .fnptr as a, .fnptr bs b => sameList as bs && a.same b
  | .void, .void | .dynamic, .dynamic | .error, .error => true
  | _, _ => false

/-- Whether two lists of types have the same structure. -/
def sameList : List Ty → List Ty → Bool
  | [], [] => true
  | a :: as, b :: bs => a.same b && sameList as bs
  | _, _ => false

end

mutual

theorem same_iff : (a b : Ty) → a.same b = true ↔ a = b
  | .named n as, b => by
    cases b with
    | named m bs => simp [same, sameList_iff as bs]
    | _ => simp [same]
  | .array a r, b => by
    cases b with
    | array b q => simp [same, same_iff a b, and_comm]
    | _ => simp [same]
  | .var v, b => by cases b <;> simp [same]
  | .pointer a, b => by
    cases b with
    | pointer b => simp [same, same_iff a b]
    | _ => simp [same]
  | .fnptr as a, b => by
    cases b with
    | fnptr bs b => simp [same, same_iff a b, sameList_iff as bs]
    | _ => simp [same]
  | .void, b | .dynamic, b | .error, b => by cases b <;> simp [same]

theorem sameList_iff : (as bs : List Ty) → sameList as bs = true ↔ as = bs
  | [], bs => by cases bs <;> simp [sameList]
  | a :: as, bs => by
    cases bs with
    | nil => simp [sameList]
    | cons b bs => simp [sameList, same_iff a b, sameList_iff as bs]

end

instance : DecidableEq Ty := fun a b => decidable_of_iff _ (same_iff a b)

/-! ## Shape -/

/-- The declared type behind a named type. -/
def declName? : Ty → Option DeclName
  | .named n _ => some n
  | _ => none

/-- The special type a type is. -/
def special? (t : Ty) : Option Special := t.declName?.bind DeclName.special?

/-- Whether a type is a given special type. -/
def isSpecial (t : Ty) (s : Special) : Bool := t.special? == some s

/-- A type without arguments. -/
def plain (n : DeclName) : Ty := .named n []

/-! ## Substitution -/

/-- **A substitution** — what stands in for each variable it knows. -/
abbrev Subst := List (TypeVar × Ty)

mutual

/-- **The type with its variables replaced.** -/
def subst (s : Subst) : Ty → Ty
  | .named n args => .named n (substList s args)
  | .array element rank => .array (element.subst s) rank
  | .var v => (s.lookup v).getD (.var v)
  | .pointer target => .pointer (target.subst s)
  | .fnptr params ret => .fnptr (substList s params) (ret.subst s)
  | .void => .void
  | .dynamic => .dynamic
  | .error => .error

/-- The types with their variables replaced. -/
def substList (s : Subst) : List Ty → List Ty
  | [] => []
  | t :: ts => t.subst s :: substList s ts

end

theorem substList_eq_map (s : Subst) (ts : List Ty) : substList s ts = ts.map (subst s) := by
  induction ts with
  | nil => rfl
  | cons t ts ih => simp [substList, ih]

mutual

/-- Replacing nothing changes nothing. -/
theorem subst_nil : (t : Ty) → t.subst [] = t
  | .named n args => by simp [subst, substList_nil args]
  | .array element _ => by simp [subst, subst_nil element]
  | .var v => by simp [subst]
  | .pointer target => by simp [subst, subst_nil target]
  | .fnptr params ret => by simp [subst, substList_nil params, subst_nil ret]
  | .void | .dynamic | .error => rfl

theorem substList_nil : (ts : List Ty) → substList [] ts = ts
  | [] => rfl
  | t :: ts => by simp [substList, subst_nil t, substList_nil ts]

end

/-! ## Variables -/

mutual

/-- The variables of a type from left to right, with repeats. -/
def vars : Ty → List TypeVar
  | .named _ args => varsList args
  | .array element _ => element.vars
  | .var v => [v]
  | .pointer target => target.vars
  | .fnptr params ret => varsList params ++ ret.vars
  | .void | .dynamic | .error => []

/-- The variables of several types. -/
def varsList : List Ty → List TypeVar
  | [] => []
  | t :: ts => t.vars ++ varsList ts

end

end Ty

namespace DeclName

/-- The variables for the type's own parameters. -/
def ownVars (n : DeclName) : List TypeVar :=
  n.params.zipIdx.map fun (name, index) => ⟨.type n, index, name⟩

/-- **The variables in scope** of a declared type, outermost type first. -/
def vars : DeclName → List TypeVar
  | n@(top ..) => n.ownVars
  | n@(nested outer _ _) => outer.vars ++ n.ownVars

/-- **The declared type** over its own parameters. -/
def declared (n : DeclName) : Ty := .named n (n.vars.map .var)

/-- What each parameter of a type becomes under given arguments. -/
def bindArgs (n : DeclName) (args : List Ty) : Ty.Subst := n.vars.zip args

@[simp] theorem length_vars (n : DeclName) : n.vars.length = n.totalArity := by
  induction n with
  | top => simp [vars, ownVars, totalArity, params]
  | nested outer name ps ih => simp [vars, ownVars, totalArity, params, ih]

end DeclName

end LateBridge
