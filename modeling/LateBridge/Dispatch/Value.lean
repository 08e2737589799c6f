import LateBridge.Symbols.Graph

/-!
# Dispatch/Value — what late binding sees of a value

Binding looks at the run-time type of an argument and at nothing else.
-/

namespace LateBridge

/-- **Values.** -/
inductive Value where
  /-- What a call without a value gives. -/
  | unit
  | null
  /-- An instance of a run-time type, told from others by a number. -/
  | object (type : Ty) (id : Nat)
  /-- The default value of a type. -/
  | default (type : Ty)
  deriving DecidableEq, Repr, Inhabited

namespace Value

/-- **The run-time type of a value**, if it has one: the default of a value type is an instance, and
that of a reference type is null. -/
def runtimeType? (g : Graph) : Value → Option Ty
  | object t _ => some t
  | default t => if g.isValueType t then some t else none
  | unit | null => none

/-- Whether a value is the null reference itself. -/
def isNull : Value → Bool
  | null => true
  | _ => false

end Value

end LateBridge
