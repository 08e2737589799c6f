import LateBridge.Diagnostic.Location
import LateBridge.Number.Binary64
import LateBridge.Symbols.Ty
import LateBridge.Text.CharClass

/-!
# Symbols/Decl — declarations of types, methods and their parameters

Plain data, in declaration order.  A method knows where it is declared, a type parameter knows the
variable that stands for it.
-/

namespace LateBridge

/-! ## Words of the language -/

/-- **Kinds of declared types.** -/
inductive Kind where
  | classType
  | struct
  | interface
  | enum
  | delegate
  deriving DecidableEq, Repr, Inhabited

/-- The keyword of a kind. -/
def Kind.keyword : Kind → String
  | .classType => "class"
  | .struct => "struct"
  | .interface => "interface"
  | .enum => "enum"
  | .delegate => "delegate"

/-- Structs and enums hold values. -/
def Kind.isValue : Kind → Bool
  | .struct | .enum => true
  | _ => false

/-- Variance of a type parameter. -/
inductive Variance where
  | none
  | in
  | out
  deriving DecidableEq, Repr, Inhabited

/-- The variance keyword with the blank after it. -/
def Variance.lead : Variance → String
  | .none => ""
  | .in => "in "
  | .out => "out "

/-- How an argument is passed. -/
inductive RefKind where
  | none
  | ref
  | out
  | in
  deriving DecidableEq, Repr, Inhabited

/-- The passing keyword with the blank after it. -/
def RefKind.lead : RefKind → String
  | .none => ""
  | .ref => "ref "
  | .out => "out "
  | .in => "in "

/-- **Who may use a member**: its type, its family of derived types, its assembly, or everyone. -/
inductive Accessibility where
  | typeOnly
  | familyAndAssembly
  | family
  | assembly
  | familyOrAssembly
  | everyone
  deriving DecidableEq, Repr, Inhabited

namespace Accessibility

/-- The keywords of an accessibility. -/
def keywords : Accessibility → String
  | .typeOnly => "private"
  | .familyAndAssembly => "private protected"
  | .family => "protected"
  | .assembly => "internal"
  | .familyOrAssembly => "protected internal"
  | .everyone => "public"

/-- The accessibility written by some words; two words may come in either order. -/
def ofText? (text : String) : Option Accessibility :=
  match Text.words text with
  | ["private"] => some .typeOnly
  | ["private", "protected"] | ["protected", "private"] => some .familyAndAssembly
  | ["protected"] => some .family
  | ["internal"] => some .assembly
  | ["protected", "internal"] | ["internal", "protected"] => some .familyOrAssembly
  | ["public"] => some .everyone
  | _ => none

end Accessibility

/-! ## Constraints -/

/-- **The constraints of a type parameter that name no type**; `nullable` goes with `reference`,
`unmanaged` with `value`. -/
structure Constraints where
  reference : Bool := false
  nullable : Bool := false
  value : Bool := false
  unmanaged : Bool := false
  notNull : Bool := false
  constructible : Bool := false
  deriving DecidableEq, Repr, Inhabited

namespace Constraints

/-- The constraints of either. -/
def union (a b : Constraints) : Constraints :=
  ⟨a.reference || b.reference, a.nullable || b.nullable, a.value || b.value,
    a.unmanaged || b.unmanaged, a.notNull || b.notNull, a.constructible || b.constructible⟩

/-- No constraint at all. -/
def isEmpty (c : Constraints) : Bool := c == {}

/-- The constraint a keyword stands for. -/
def ofText? (text : String) : Option Constraints :=
  match Text.trim text with
  | "class" => some { reference := true }
  | "class?" => some { reference := true, nullable := true }
  | "struct" => some { value := true }
  | "unmanaged" => some { unmanaged := true, value := true }
  | "notnull" => some { notNull := true }
  | "new()" => some { constructible := true }
  | _ => none

/-- Whether only value types qualify. -/
def wantsValue (c : Constraints) : Bool := c.value || c.unmanaged

end Constraints

/-! ## Constants and attributes -/

/-- **Compile-time constants.** -/
inductive Constant where
  | null
  | bool (value : Bool)
  | int (value : Int)
  | float (value : Binary64)
  | char (value : Char)
  | string (value : String)
  deriving DecidableEq, Repr, Inhabited

/-- **An attribute argument**, as far as the host could bind it. -/
inductive AttributeValue where
  | type (type : Ty)
  | constant (value : Constant)
  | error
  deriving DecidableEq, Repr, Inhabited

/-- **An attribute** — the metadata name of its class and its arguments. -/
structure Attribute where
  className : String
  args : List AttributeValue
  named : List (String × AttributeValue)
  deriving DecidableEq, Repr, Inhabited

/-- The first named argument with a name. -/
def Attribute.namedArg? (a : Attribute) (name : String) : Option AttributeValue :=
  a.named.lookup name

/-- The first attribute of a class. -/
def findAttribute? (attributes : List Attribute) (className : String) : Option Attribute :=
  attributes.find? (·.className == className)

/-! ## Declarations -/

/-- **A type parameter.** -/
structure TypeParam where
  var : TypeVar
  variance : Variance
  constraints : Constraints
  types : List Ty
  attributes : List Attribute
  location : Option Location
  deriving DecidableEq, Repr, Inhabited

/-- **A parameter**; a default of null stands for every default value of its type. -/
structure Param where
  name : String
  type : Ty
  refKind : RefKind
  default? : Option Constant
  isParams : Bool
  location : Option Location
  deriving DecidableEq, Repr, Inhabited

/-- What a method is declared as. -/
structure MethodFlags where
  isStatic : Bool := false
  isAsync : Bool := false
  isReadonly : Bool := false
  isExtension : Bool := false
  returnsByRef : Bool := false
  explicitInterface : Bool := false
  /-- A partial definition has no body. -/
  partialDefinition : Bool := false
  deriving DecidableEq, Repr, Inhabited

/-- **A method.** -/
structure Method where
  id : MethodId
  name : String
  typeParams : List TypeParam
  params : List Param
  returns : Ty
  flags : MethodFlags
  accessibility : Accessibility
  attributes : List Attribute
  location : Option Location
  deriving DecidableEq, Repr, Inhabited

namespace Method

/-- The declaring type. -/
def declaring (m : Method) : DeclName := m.id.type

/-- The variables for the method's own type parameters. -/
def vars (m : Method) : List TypeVar := m.typeParams.map (·.var)

/-- How many type parameters the method declares. -/
def arity (m : Method) : Nat := m.typeParams.length

/-- Whether the method gives no value. -/
def returnsVoid (m : Method) : Bool := m.returns == .void

end Method

/-- **A declared type**, with its base and interfaces over its own parameters. -/
structure TypeDecl where
  name : DeclName
  kind : Kind
  typeParams : List TypeParam
  base? : Option Ty
  interfaces : List Ty
  isPartial : Bool
  isStatic : Bool
  methods : List Method
  /-- Names of fields, properties, events and enum members. -/
  members : List String
  location : Option Location
  deriving Repr, Inhabited

namespace TypeDecl

/-- The metadata name. -/
def metadata (d : TypeDecl) : String := d.name.metadata

/-- The special type a declaration is. -/
def special? (d : TypeDecl) : Option Special := d.name.special?

/-- Values of the type are values, unless it is a root of the value types. -/
def isValueType (d : TypeDecl) : Bool :=
  d.kind.isValue && d.special? != some .valueType && d.special? != some .enum

/-- The methods with a name, in declaration order. -/
def methodsNamed (d : TypeDecl) (name : String) : List Method :=
  d.methods.filter (·.name == name)

end TypeDecl

end LateBridge
