import LateBridge.Symbols.Decl

/-!
# Bridge/Plan — what is generated for one method

Every marked method gets two members: a target with the method's own signature under a private name,
and a wrapper whose signature is free of marked parameters and which calls the target late.
-/

namespace LateBridge

/-- The name of the target of a method. -/
def targetName (method : String) : String := "_" ++ method ++ "_PrivateBridgeTarget"

/-- **Whether a wrapper awaits its target**, and the type of the value it returns, if it returns
one. -/
structure AsyncShape where
  isAsync : Bool
  value? : Option Ty
  deriving DecidableEq, Repr, Inhabited

/-- The constraints of a type parameter on a generated declaration. -/
structure ConstraintClause where
  param : TypeVar
  kinds : Constraints
  types : List Ty
  deriving DecidableEq, Repr, Inhabited

/-- Whether a clause constrains nothing. -/
def ConstraintClause.isEmpty (c : ConstraintClause) : Bool := c.kinds.isEmpty && c.types.isEmpty

/-- The constraints of a declared type parameter. -/
def TypeParam.clause (p : TypeParam) : ConstraintClause := ⟨p.var, p.constraints, p.types⟩

/-- **A parameter of a wrapper.** -/
structure WrapperParam where
  name : String
  type : Ty
  /-- The type of the same parameter of the method. -/
  target : Ty
  refKind : RefKind
  isParams : Bool
  default? : Option Constant
  /-- The argument is erased and passed on late-bound. -/
  isDynamic : Bool
  deriving DecidableEq, Repr, Inhabited

/-- **The signature of a wrapper.** -/
structure Wrapper where
  name : String
  /-- Accessibility, or what the marker gives in its place; may be empty. -/
  modifiers : String
  isStatic : Bool
  isReadonly : Bool
  isExtension : Bool
  /-- The wrapper implements a partial definition. -/
  isPartial : Bool
  returns : Ty
  typeParams : List TypeVar
  constraints : List ConstraintClause
  params : List WrapperParam
  deriving DecidableEq, Repr, Inhabited

/-- The parameters that are passed on late-bound. -/
def Wrapper.dynamicParams (w : Wrapper) : List WrapperParam := w.params.filter (·.isDynamic)

/-- **The plan of a bridge.** -/
structure BridgePlan where
  method : Method
  /-- The marked parameters with their erasures, in declaration order. -/
  erasures : List (TypeVar × Ty)
  /-- The parameters of the method that stay on the wrapper. -/
  retained : List TypeVar
  target : String
  wrapper : Wrapper
  shape : AsyncShape
  /-- The partial definition that the wrapper implements. -/
  definition? : Option MethodId
  /-- The marked parameters that occur in parameter types. -/
  inferable : List TypeVar
  ignoreUnbound : Bool
  deriving DecidableEq, Repr, Inhabited

namespace BridgePlan

/-- The type that gets the members. -/
def declaring (p : BridgePlan) : DeclName := p.method.declaring

/-- **Whether a plan is sound**: every erasure is a type, every marked parameter can be inferred,
and the target has a name of its own. -/
def isValid (p : BridgePlan) : Bool :=
  p.erasures.all (·.2 != .error) && p.erasures.all (fun (v, _) => p.inferable.contains v) &&
    p.target != p.wrapper.name

end BridgePlan

end LateBridge
