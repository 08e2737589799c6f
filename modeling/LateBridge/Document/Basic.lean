import LateBridge.Json.Basic
import LateBridge.Symbols.Decl

/-!
# Document/Basic — graph documents

The exchange form of a symbol graph: the types of one compilation, with every type reference written
as text.  A parameter's default tells an explicit null from an absent one.
-/

namespace LateBridge

/-- **An attribute argument**: a type reference, a character, a mark of an argument that could not
be bound, or a plain value. -/
inductive ArgumentDoc where
  | typeOf (text : String)
  | char (value : Char)
  | invalid (flag : Bool)
  | value (json : Json)
  deriving Repr, Inhabited

/-- A named attribute argument. -/
structure NamedArgumentDoc where
  name : String
  value : ArgumentDoc
  deriving Repr, Inhabited

/-- An attribute. -/
structure AttributeDoc where
  name : String
  args : List ArgumentDoc
  named : List NamedArgumentDoc
  deriving Repr, Inhabited

/-- A type parameter; a constraint is a keyword or a type reference. -/
structure TypeParamDoc where
  name : String
  variance : Variance
  constraints : List String
  attributes : List AttributeDoc
  location : Option Location
  deriving Repr, Inhabited

/-- A parameter. -/
structure ParamDoc where
  name : String
  type : String
  refKind : RefKind
  default? : Option Json
  isParams : Bool
  location : Option Location
  deriving Repr, Inhabited

/-- A method. -/
structure MethodDoc where
  name : String
  accessibility : String
  flags : MethodFlags
  typeParams : List TypeParamDoc
  params : List ParamDoc
  returns : String
  attributes : List AttributeDoc
  location : Option Location
  deriving Repr, Inhabited

/-- **A type with the types nested in it.**  The namespace of a nested type is that of its
container, whatever its own says. -/
structure TypeDoc where
  kind : Kind
  name : String
  space : Option String
  typeParams : List TypeParamDoc
  base? : Option String
  interfaces : List String
  isPartial : Bool
  isStatic : Bool
  methods : List MethodDoc
  members : List String
  nested : List TypeDoc
  location : Option Location
  deriving Inhabited

/-- **A graph document.** -/
structure GraphDocument where
  /-- Register the core library beside this document. -/
  coreLibrary : Bool
  /-- Namespaces imported for every reference of the document. -/
  usings : List String
  types : List TypeDoc
  deriving Inhabited

end LateBridge
