import LateBridge.Diagnostic.Basic
import LateBridge.Symbols.Display
import LateBridge.Symbols.Graph

/-!
# Bridge/Marks — which methods ask for a bridge, and how

A type parameter is marked by an attribute, alone or with the one type that is to stand in for it.
A method may carry a marker of its own with a name for the wrapper and two options.  Markers are
judged in declaration order and the first malformed one is reported.
-/

namespace LateBridge

/-! ## Names of the markers -/

/-- **The metadata names of the marker attributes.** -/
structure MarkerNames where
  ofParam : String := "Bridgegen.DynamicBridgeAttribute"
  ofMethod : String := "Bridgegen.DynamicBridgeMethodAttribute"
  deriving DecidableEq, Repr, Inhabited

/-- **The name of an attribute as it is written on a declaration**: the part after the last dot or
plus sign, without the word at its end that every attribute has. -/
def attributeShortName (metadata : String) : String :=
  let reversed := metadata.toList.reverse.takeWhile fun c => c != '.' && c != '+'
  let suffix := "Attribute".toList.reverse
  let kept := if suffix.isPrefixOf reversed then reversed.drop suffix.length else reversed
  String.ofList kept.reverse

/-! ## Marks -/

/-- **The options of a method marker.** -/
structure MethodMark where
  /-- Another name for the wrapper. -/
  rename? : Option String := none
  /-- Modifiers in place of the method's accessibility. -/
  modifiers? : Option String := none
  /-- A call that does not bind gives default values. -/
  ignoreUnbound : Bool := false
  deriving DecidableEq, Repr, Inhabited

/-- **The marks of a method**: its marked type parameters in declaration order, each with the type
given for it, and its own marker. -/
structure Marks where
  marked : List (TypeVar × Option Ty)
  method? : Option MethodMark
  deriving DecidableEq, Repr, Inhabited

namespace Marks

/-- Whether a type parameter is marked. -/
def isMarked (m : Marks) (v : TypeVar) : Bool := m.marked.any (·.1 == v)

/-- The name of the wrapper. -/
def wrapperName (m : Marks) (method : Method) : String :=
  ((m.method?.bind (·.rename?)).getD method.name)

/-- The modifiers of the wrapper. -/
def modifiers (m : Marks) (method : Method) : String :=
  (m.method?.bind (·.modifiers?)).getD method.accessibility.keywords

/-- Whether a call that does not bind gives default values. -/
def ignoreUnbound (m : Marks) : Bool := m.method?.any (·.ignoreUnbound)

end Marks

namespace MarkerNames

variable (names : MarkerNames)

/-- The marker on a type parameter. -/
def paramMarker? (p : TypeParam) : Option Attribute := findAttribute? p.attributes names.ofParam

/-- The marker on a method. -/
def methodMarker? (m : Method) : Option Attribute := findAttribute? m.attributes names.ofMethod

/-- Whether a method asks for a bridge. -/
def asks (m : Method) : Bool :=
  (names.methodMarker? m).isSome || m.typeParams.any fun p => (names.paramMarker? p).isSome

/-- **The methods that ask for a bridge**, in declaration order. -/
def candidates (g : Graph) : List Method := g.methods.filter names.asks

/-! ## Reading -/

/-- The type given on a marker, if the marker is well formed. -/
def givenType? (marker : Attribute) : Option (Option Ty) :=
  match marker.args, marker.named with
  | [], [] => some none
  | [.type .error], [] => none
  | [.type t], [] => some (some t)
  | _, _ => none

/-- The report of a malformed marker on a type parameter. -/
def malformedParam (m : Method) (p : TypeParam) : Diagnostic :=
  .ofRule .malformedMarker [m.display, attributeShortName names.ofParam, p.var.name]
    (p.location.or m.location)

/-- The marked ones of some type parameters. -/
def readParams (m : Method) : List TypeParam → Except Diagnostic (List (TypeVar × Option Ty))
  | [] => .ok []
  | p :: ps =>
    match names.paramMarker? p with
    | none => readParams m ps
    | some marker =>
      match givenType? marker with
      | none => .error (names.malformedParam m p)
      | some given =>
        match readParams m ps with
        | .ok marked => .ok ((p.var, given) :: marked)
        | .error d => .error d

/-- The name given on a method marker, if its arguments are well formed. -/
def givenName? (marker : Attribute) : Option (Option String) :=
  match marker.args with
  | [] | [.constant .null] => some none
  | [.constant (.string name)] => if Text.isIdentifier name then some (some name) else none
  | _ => none

/-- A method mark with one option set, if there is such an option and the value fits it. -/
def withOption? (mark : MethodMark) (name : String) (value : AttributeValue) : Option MethodMark :=
  match name, value with
  | "Modifiers", .constant .null | "IgnoreUnbound", .constant .null => some mark
  | "Modifiers", .constant (.string text) => some { mark with modifiers? := some text }
  | "IgnoreUnbound", .constant (.bool flag) => some { mark with ignoreUnbound := flag }
  | _, _ => none

/-- The options of a method marker. -/
def readOptions (m : Method) (mark : MethodMark) :
    List (String × AttributeValue) → Except Diagnostic MethodMark
  | [] => .ok mark
  | (name, value) :: rest =>
    match withOption? mark name value with
    | some mark => readOptions m mark rest
    | none =>
      .error (.ofRule .malformedMethodMarkerOption
        [m.display, attributeShortName names.ofMethod, name] m.location)

/-- A method marker. -/
def readMethodMark (m : Method) (marker : Attribute) : Except Diagnostic MethodMark :=
  match givenName? marker with
  | some rename? => names.readOptions m { rename? } marker.named
  | none =>
    .error (.ofRule .malformedMethodMarker [m.display, attributeShortName names.ofMethod]
      m.location)

/-- **The marks of a method**: none for a method without markers, a report for a malformed marker
and for a method marker without a marked type parameter. -/
def read (m : Method) : Except Diagnostic (Option Marks) :=
  match names.readParams m m.typeParams, names.methodMarker? m with
  | .error d, _ => .error d
  | .ok [], none => .ok none
  | .ok [], some _ =>
    .error (.ofRule .methodMarkerAlone
      [m.display, attributeShortName names.ofMethod, attributeShortName names.ofParam] m.location)
  | .ok marked, none => .ok (some ⟨marked, none⟩)
  | .ok marked, some marker =>
    match names.readMethodMark m marker with
    | .ok mark => .ok (some ⟨marked, some mark⟩)
    | .error d => .error d

end MarkerNames

end LateBridge
