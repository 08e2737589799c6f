import LateBridge.Document.Basic

/-!
# Document/Encode — graph documents as JSON

Every member is written with its value, defaults included; only the default of a parameter is left
out when there is none.
-/

namespace LateBridge

open Json

/-- A place. -/
def Location.encode (l : Location) : Json :=
  .object [("file", l.file), ("line", nat l.line), ("column", nat l.column)]

/-- A place, or null. -/
def encodeLocation (l : Option Location) : Json := orNull (l.map Location.encode)

/-- The word for a variance. -/
def Variance.word : Variance → String
  | .none => "none"
  | .in => "in"
  | .out => "out"

/-- The word for the passing of an argument. -/
def RefKind.word : RefKind → String
  | .none => "none"
  | .ref => "ref"
  | .out => "out"
  | .in => "in"

/-- An attribute argument, in the form it has. -/
def ArgumentDoc.encode : ArgumentDoc → Json
  | .typeOf text => .object [("typeof", text)]
  | .char c => .object [("char", c.toString)]
  | .invalid flag => .object [("invalid", flag)]
  | .value json => json

/-- An attribute. -/
def AttributeDoc.encode (a : AttributeDoc) : Json :=
  .object [("name", a.name), ("args", .array (a.args.map ArgumentDoc.encode)),
    ("named", .array (a.named.map fun n => .object [("name", n.name), ("value", n.value.encode)]))]

/-- A type parameter. -/
def TypeParamDoc.encode (p : TypeParamDoc) : Json :=
  .object [("name", p.name), ("variance", p.variance.word), ("constraints", strings p.constraints),
    ("attributes", .array (p.attributes.map AttributeDoc.encode)),
    ("location", encodeLocation p.location)]

/-- A parameter. -/
def ParamDoc.encode (p : ParamDoc) : Json :=
  .object ([("name", .string p.name), ("type", .string p.type), ("refKind", .string p.refKind.word)]
    ++ (match p.default? with | some value => [("default", value)] | none => [])
    ++ [("params", .bool p.isParams), ("location", encodeLocation p.location)])

/-- A method. -/
def MethodDoc.encode (m : MethodDoc) : Json :=
  .object [("name", m.name), ("accessibility", m.accessibility), ("static", m.flags.isStatic),
    ("async", m.flags.isAsync), ("readonly", m.flags.isReadonly),
    ("extension", m.flags.isExtension), ("returnsByRef", m.flags.returnsByRef),
    ("explicitInterface", m.flags.explicitInterface),
    ("partialDefinition", m.flags.partialDefinition),
    ("typeParameters", .array (m.typeParams.map TypeParamDoc.encode)),
    ("parameters", .array (m.params.map ParamDoc.encode)), ("returns", m.returns),
    ("attributes", .array (m.attributes.map AttributeDoc.encode)),
    ("location", encodeLocation m.location)]

mutual

/-- A type with the types nested in it. -/
def TypeDoc.encode : TypeDoc → Json
  | { kind, name, space, typeParams, base?, interfaces, isPartial, isStatic, methods, members,
      nested, location } =>
    .object [("kind", kind.keyword), ("name", name), ("namespace", orNull (space.map .string)),
      ("typeParameters", .array (typeParams.map TypeParamDoc.encode)),
      ("base", orNull (base?.map .string)), ("interfaces", strings interfaces),
      ("partial", isPartial), ("static", isStatic),
      ("methods", .array (methods.map MethodDoc.encode)), ("members", strings members),
      ("nested", .array (TypeDoc.encodeList nested)), ("location", encodeLocation location)]

/-- Several types. -/
def TypeDoc.encodeList : List TypeDoc → List Json
  | [] => []
  | t :: ts => t.encode :: TypeDoc.encodeList ts

end

/-- **A graph document** as a JSON value. -/
def GraphDocument.encode (d : GraphDocument) : Json :=
  .object [("coreLibrary", d.coreLibrary), ("usings", strings d.usings),
    ("types", .array (TypeDoc.encodeList d.types))]

end LateBridge
