import LateBridge.Document.CoreLibrary
import LateBridge.Document.Decode
import LateBridge.Document.Resolve

/-!
# Document/Load — building a graph from documents

Loading declares everything first, so that references may point forward and across documents, and
then binds the references.  Type parameters are bound before bases and interfaces, and those before
methods; a container's base and interfaces are bound after those of the types nested in it.  The
first fault in this order is the one reported.
-/

namespace LateBridge

/-! ## Faults -/

/-- **Why documents make no graph.**  The context names the declaration a reference stands in. -/
inductive LoadError where
  | duplicateType (name : String)
  | malformedType (context : String) (cause : SyntaxError)
  | unresolvedType (context name : String)
  | unknownAccessibility (context text : String)
  | invalidDefault (context param : String)
  deriving DecidableEq, Repr

namespace LoadError

/-- The message of a fault. -/
def message : LoadError → String
  | duplicateType name => s!"type '{name}' is declared more than once"
  | malformedType context cause => context ++ ": " ++ cause.message
  | unresolvedType context name => s!"{context}: type '{name}' could not be resolved"
  | unknownAccessibility context text => s!"{context}: unknown accessibility '{text}'"
  | invalidDefault context param =>
    s!"{context}: default value of parameter '{param}' is not a constant"

/-- The messages of the faults behind a fault. -/
def causes : LoadError → List String
  | malformedType _ cause => [cause.message]
  | _ => []

end LoadError

/-! ## Entries -/

/-- **A type to declare**: its document, its name and the namespaces its document imports. -/
structure Entry where
  doc : TypeDoc
  name : DeclName
  usings : List String

/-- The name of a type inside its container.  An empty namespace is the global one. -/
def TypeDoc.nameIn (outer : Option DeclName) (doc : TypeDoc) : DeclName :=
  let params := doc.typeParams.map (·.name)
  match outer with
  | some outer => .nested outer doc.name params
  | none => .top (doc.space.filter (!·.isEmpty)) doc.name params

mutual

/-- A type and the types nested in it, containers first. -/
def TypeDoc.entries (usings : List String) (outer : Option DeclName) : TypeDoc → List Entry
  | doc@{ nested, .. } =>
    let name := doc.nameIn outer
    ⟨doc, name, usings⟩ :: TypeDoc.entriesList usings (some name) nested

/-- The types of a list and those nested in them, containers first. -/
def TypeDoc.entriesList (usings : List String) (outer : Option DeclName) :
    List TypeDoc → List Entry
  | [] => []
  | doc :: docs => doc.entries usings outer ++ TypeDoc.entriesList usings outer docs

end

mutual

/-- A type and the types nested in it, containers last. -/
def TypeDoc.entriesUp (usings : List String) (outer : Option DeclName) : TypeDoc → List Entry
  | doc@{ nested, .. } =>
    let name := doc.nameIn outer
    TypeDoc.entriesUpList usings (some name) nested ++ [⟨doc, name, usings⟩]

/-- The types of a list and those nested in them, containers last. -/
def TypeDoc.entriesUpList (usings : List String) (outer : Option DeclName) :
    List TypeDoc → List Entry
  | [] => []
  | doc :: docs => doc.entriesUp usings outer ++ TypeDoc.entriesUpList usings outer docs

end

/-- The types of a document, containers first. -/
def GraphDocument.entries (d : GraphDocument) : List Entry :=
  TypeDoc.entriesList d.usings none d.types

/-- The types of a document, containers last. -/
def GraphDocument.entriesUp (d : GraphDocument) : List Entry :=
  TypeDoc.entriesUpList d.usings none d.types

namespace Entry

/-- The method at a position. -/
def methodId (e : Entry) (position : Nat) : MethodId := ⟨e.name, position⟩

/-- The name of the type as the context of a fault. -/
def context (e : Entry) : String := e.name.metadata

/-- The name of a method as the context of a fault. -/
def methodContext (e : Entry) (m : MethodDoc) : String := e.name.metadata ++ "." ++ m.name

/-- The scope of the type's own references. -/
def scope (e : Entry) : Scope := ⟨e.name, [], e.usings⟩

/-! ## Declaring -/

/-- Type parameters of an owner, without what refers to types. -/
def declareParams (owner : Owner) (docs : List TypeParamDoc) : List TypeParam :=
  docs.zipIdx.map fun (doc, index) =>
    { var := ⟨owner, index, doc.name⟩, variance := doc.variance
      constraints := (doc.constraints.filterMap Constraints.ofText?).foldl Constraints.union {}
      types := [], attributes := [], location := doc.location }

/-- A method without what refers to types. -/
def declareMethod (e : Entry) (doc : MethodDoc) (position : Nat) : Except LoadError Method :=
  match Accessibility.ofText? doc.accessibility with
  | none => .error (.unknownAccessibility (e.methodContext doc) doc.accessibility)
  | some accessibility =>
    .ok { id := e.methodId position, name := doc.name
          typeParams := declareParams (.method (e.methodId position)) doc.typeParams
          params := [], returns := .void, flags := doc.flags, accessibility, attributes := []
          location := doc.location }

/-- A type without what refers to types. -/
def declare (e : Entry) : Except LoadError TypeDecl := do
  let methods ← e.doc.methods.zipIdx.mapM fun (doc, position) => e.declareMethod doc position
  return { name := e.name, kind := e.doc.kind
           typeParams := declareParams (.type e.name) e.doc.typeParams, base? := none
           interfaces := [], isPartial := e.doc.isPartial, isStatic := e.doc.isStatic, methods
           members := e.doc.members, location := e.doc.location }

/-- **All declarations**, each metadata name once; `taken` holds those declared before. -/
def declareAll (taken : List String) : List Entry → Except LoadError (List TypeDecl)
  | [] => .ok []
  | e :: es =>
    if taken.contains e.name.metadata then .error (.duplicateType e.name.metadata)
    else do
      let d ← e.declare
      let ds ← declareAll (e.name.metadata :: taken) es
      return d :: ds

end Entry

/-! ## Binding -/

/-- The constant a JSON value stands for; an object with the one member `char` is a character. -/
def Constant.ofJson? : Json → Option Constant
  | .null => some .null
  | .bool b => some (.bool b)
  | .number (.int i) =>
    if i < Int.ofNat (Nat.pow 2 63) then some (.int i) else some (.float (Binary64.ofNat i.toNat))
  | .number (.real x) => some (.float x)
  | .string s => some (.string s)
  | .object [("char", .string s)] =>
    match s.toList with
    | [c] => some (.char c)
    | _ => none
  | _ => none

namespace Graph

variable (g : Graph)

/-- The type a text denotes in a scope. -/
def bindType (s : Scope) (context text : String) : Except LoadError Ty :=
  match TypeSyntax.read text with
  | .error cause => .error (.malformedType context cause)
  | .ok written =>
    match g.resolve s written with
    | .error e => .error (.unresolvedType context e.name)
    | .ok t => .ok t

/-- An attribute argument; what cannot be bound is kept as an error for the generator to judge. -/
def bindArgument (s : Scope) : ArgumentDoc → AttributeValue
  | .typeOf text =>
    match g.bindType s "" text with
    | .ok t => .type t
    | .error _ => .error
  | .char c => .constant (.char c)
  | .invalid _ => .error
  | .value json =>
    match Constant.ofJson? json with
    | some c => .constant c
    | none => .error

/-- An attribute. -/
def bindAttribute (s : Scope) (doc : AttributeDoc) : Attribute :=
  { className := doc.name, args := doc.args.map (g.bindArgument s)
    named := doc.named.map fun n => (n.name, g.bindArgument s n.value) }

/-- A type parameter: the constraints that are no keywords are types. -/
def bindParam (s : Scope) (context : String) (declared : TypeParam) (doc : TypeParamDoc) :
    Except LoadError TypeParam := do
  let types ← (doc.constraints.filter (Constraints.ofText? · |>.isNone)).mapM
    (g.bindType s context)
  return { declared with types, attributes := doc.attributes.map (g.bindAttribute s) }

/-- Type parameters of one owner. -/
def bindParams (s : Scope) (context : String) (declared : List TypeParam)
    (docs : List TypeParamDoc) : Except LoadError (List TypeParam) :=
  (declared.zip docs).mapM fun (p, doc) => g.bindParam s context p doc

/-- The bound type parameters of a type and of each of its methods. -/
structure Generics where
  own : List TypeParam
  ofMethods : List (List TypeParam)

/-- The scope of a method's references. -/
def methodScope (e : Entry) (m : Method) : Scope := ⟨e.name, m.vars, e.usings⟩

/-- All type parameters of an entry. -/
def bindGenerics (e : Entry) (d : TypeDecl) : Except LoadError Generics := do
  let own ← g.bindParams e.scope e.context d.typeParams e.doc.typeParams
  let ofMethods ← (d.methods.zip e.doc.methods).mapM fun (m, doc) =>
    g.bindParams (methodScope e m) (e.methodContext doc) m.typeParams doc.typeParams
  return { own, ofMethods }

/-- The base type of a kind that declares none. -/
def defaultBase? (e : Entry) : Option Ty :=
  let root? : Option String := match e.doc.kind with
    | .interface => none
    | .classType => if e.name.special? == some Special.object then none else some "System.Object"
    | .struct => some "System.ValueType"
    | .enum => some "System.Enum"
    | .delegate => some "System.MulticastDelegate"
  (root?.bind g.find?).map fun d => Ty.plain d.name

/-- The base type and the interfaces of an entry. -/
structure Head where
  base? : Option Ty
  interfaces : List Ty

/-- The bound head of an entry. -/
def bindHead (e : Entry) : Except LoadError Head := do
  let base? ← match e.doc.base? with
    | some text => (g.bindType e.scope e.context text).map some
    | none => .ok (g.defaultBase? e)
  let interfaces ← e.doc.interfaces.mapM (g.bindType e.scope e.context)
  return { base?, interfaces }

/-- A parameter; its default, if it has one, is a constant. -/
def bindMethodParam (s : Scope) (context : String) (doc : ParamDoc) : Except LoadError Param := do
  let type ← g.bindType s context doc.type
  let default? ← match doc.default? with
    | none => .ok none
    | some json =>
      match Constant.ofJson? json with
      | some c => .ok (some c)
      | none => .error (.invalidDefault context doc.name)
  return { name := doc.name, type, refKind := doc.refKind, default?, isParams := doc.isParams
           location := doc.location }

/-- A method with its bound type parameters. -/
def bindMethod (e : Entry) (m : Method) (doc : MethodDoc) (typeParams : List TypeParam) :
    Except LoadError Method := do
  let s := methodScope e m
  let context := e.methodContext doc
  let params ← doc.params.mapM (g.bindMethodParam s context)
  let returns ← g.bindType s context doc.returns
  let attributes := doc.attributes.map (g.bindAttribute s)
  return { m with typeParams, params, returns, attributes }

/-- All methods of an entry. -/
def bindMethods (e : Entry) (d : TypeDecl) (generics : Generics) :
    Except LoadError (List Method) :=
  (d.methods.zip (e.doc.methods.zip generics.ofMethods)).mapM fun (m, doc, typeParams) =>
    g.bindMethod e m doc typeParams

/-- An entry on its way from a declaration to a bound type. -/
structure Bound where
  entry : Entry
  decl : TypeDecl
  generics : Generics
  head : Head

/-- The bound type of an entry. -/
def bindDecl (b : Bound) : Except LoadError TypeDecl := do
  let methods ← g.bindMethods b.entry b.decl b.generics
  return { b.decl with
           typeParams := b.generics.own, base? := b.head.base?, interfaces := b.head.interfaces
           methods }

end Graph

/-- The documents to load: the core library comes first, once, if any document asks for it. -/
def withCoreLibrary (docs : List GraphDocument) : List GraphDocument :=
  if docs.any (·.coreLibrary) then CoreLibrary.document :: docs else docs

/-- **Loading documents into one graph.** -/
def load (docs : List GraphDocument) : Except LoadError Graph := do
  let docs := withCoreLibrary docs
  let entries := docs.flatMap GraphDocument.entries
  let declared ← Entry.declareAll [] entries
  let outline : Graph := { decls := declared }
  let generics ← (entries.zip declared).mapM fun (e, d) => outline.bindGenerics e d
  (docs.flatMap GraphDocument.entriesUp).forM fun e => discard (outline.bindHead e)
  let heads ← entries.mapM outline.bindHead
  let parts := (entries.zip declared).zip (generics.zip heads)
  let decls ← parts.mapM fun ((entry, decl), (generics, head)) =>
    outline.bindDecl { entry, decl, generics, head }
  return { decls }

end LateBridge
