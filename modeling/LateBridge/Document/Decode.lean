import LateBridge.Document.Basic
import LateBridge.Json.Decode
import LateBridge.Json.Reader

/-!
# Document/Decode — graph documents from JSON

One decoder for each part.  The forms of an attribute argument overlap, so they are tried in order;
nested types recurse with the depth of the value for fuel.
-/

namespace LateBridge

open Json

/-- A place; lines and columns are 32-bit numbers and one unless given. -/
def Location.decode (j : Json) : Option Location := do
  let ms ← fields? ["file", "line", "column"] j
  let file ← required? ms "file" string?
  let line ← defaulted? ms "line" (natBelow? (Nat.pow 2 32)) 1
  let column ← defaulted? ms "column" (natBelow? (Nat.pow 2 32)) 1
  return { file, line, column }

/-- The kind with a keyword. -/
def Kind.decode (j : Json) : Option Kind := do
  match ← word? j with
  | "class" => some .classType
  | "struct" => some .struct
  | "interface" => some .interface
  | "enum" => some .enum
  | "delegate" => some .delegate
  | _ => none

/-- The variance with a keyword. -/
def Variance.decode (j : Json) : Option Variance := do
  match ← word? j with
  | "none" => some .none
  | "in" => some .in
  | "out" => some .out
  | _ => Option.none

/-- The passing of an argument with a keyword. -/
def RefKind.decode (j : Json) : Option RefKind := do
  match ← word? j with
  | "none" => some .none
  | "ref" => some .ref
  | "out" => some .out
  | "in" => some .in
  | _ => Option.none

namespace ArgumentDoc

/-- An object with a member of one form. -/
def tagged? {α : Type} (name : String) (decode : Json → Option α) (j : Json) : Option α := do
  required? (← members? j) name decode

/-- The form of an object that has one: the first that fits. -/
def form? (j : Json) : Option ArgumentDoc :=
  ((tagged? "typeof" string? j).map typeOf).or <|
    ((tagged? "char" char? j).map char).or <|
      (tagged? "invalid" bool? j).map invalid

/-- **An attribute argument**: the first form that fits, where a plain value always does.  A form is
looked for among all members, and one that stands twice does not fit; a plain value keeps the last of
them. -/
def decode (j : Json) : Option ArgumentDoc :=
  if j.readable then (form? j).or (some (value j.merged)) else none

end ArgumentDoc

/-- A named attribute argument. -/
def NamedArgumentDoc.decode (j : Json) : Option NamedArgumentDoc := do
  let ms ← fields? ["name", "value"] j
  let name ← required? ms "name" string?
  let value ← required? ms "value" ArgumentDoc.decode
  return { name, value }

/-- An attribute. -/
def AttributeDoc.decode (j : Json) : Option AttributeDoc := do
  let ms ← fields? ["name", "args", "named"] j
  let name ← required? ms "name" string?
  let args ← many? ms "args" ArgumentDoc.decode
  let named ← many? ms "named" NamedArgumentDoc.decode
  return { name, args, named }

/-- A type parameter. -/
def TypeParamDoc.decode (j : Json) : Option TypeParamDoc := do
  let ms ← fields? ["name", "variance", "constraints", "attributes", "location"] j
  let name ← required? ms "name" string?
  let variance ← defaulted? ms "variance" Variance.decode .none
  let constraints ← many? ms "constraints" string?
  let attributes ← many? ms "attributes" AttributeDoc.decode
  let location ← optional? ms "location" Location.decode
  return { name, variance, constraints, attributes, location }

/-- A parameter; a default that is present counts, null included. -/
def ParamDoc.decode (j : Json) : Option ParamDoc := do
  let ms ← fields? ["name", "type", "refKind", "default", "params", "location"] j
  let name ← required? ms "name" string?
  let type ← required? ms "type" string?
  let refKind ← defaulted? ms "refKind" RefKind.decode .none
  let default? ← defaulted? ms "default" (fun v => (any? v).map some) none
  let isParams ← flag? ms "params"
  let location ← optional? ms "location" Location.decode
  return { name, type, refKind, default?, isParams, location }

/-- The flags of a method. -/
def MethodFlags.decode (ms : List (String × Json)) : Option MethodFlags := do
  let isStatic ← flag? ms "static"
  let isAsync ← flag? ms "async"
  let isReadonly ← flag? ms "readonly"
  let isExtension ← flag? ms "extension"
  let returnsByRef ← flag? ms "returnsByRef"
  let explicitInterface ← flag? ms "explicitInterface"
  let partialDefinition ← flag? ms "partialDefinition"
  return { isStatic, isAsync, isReadonly, isExtension, returnsByRef, explicitInterface,
           partialDefinition }

/-- A method. -/
def MethodDoc.decode (j : Json) : Option MethodDoc := do
  let ms ← fields?
      ["name", "accessibility", "static", "async", "readonly", "extension", "returnsByRef",
       "explicitInterface", "partialDefinition", "typeParameters", "parameters", "returns",
       "attributes", "location"] j
  let name ← required? ms "name" string?
  let accessibility ← defaulted? ms "accessibility" string? "private"
  let flags ← MethodFlags.decode ms
  let typeParams ← many? ms "typeParameters" TypeParamDoc.decode
  let params ← many? ms "parameters" ParamDoc.decode
  let returns ← defaulted? ms "returns" string? "void"
  let attributes ← many? ms "attributes" AttributeDoc.decode
  let location ← optional? ms "location" Location.decode
  return { name, accessibility, flags, typeParams, params, returns, attributes, location }

/-- A type, with fuel for the types nested in it. -/
def TypeDoc.decode : Nat → Json → Option TypeDoc
  | 0, _ => none
  | fuel + 1, j => do
    let ms ← fields?
      ["kind", "name", "namespace", "typeParameters", "base", "interfaces", "partial", "static",
       "methods", "members", "nested", "location"] j
    let kind ← required? ms "kind" Kind.decode
    let name ← required? ms "name" string?
    let space ← optional? ms "namespace" string?
    let typeParams ← many? ms "typeParameters" TypeParamDoc.decode
    let base? ← optional? ms "base" string?
    let interfaces ← many? ms "interfaces" string?
    let isPartial ← flag? ms "partial"
    let isStatic ← flag? ms "static"
    let methods ← many? ms "methods" MethodDoc.decode
    let members ← many? ms "members" string?
    let nested ← many? ms "nested" (TypeDoc.decode fuel)
    let location ← optional? ms "location" Location.decode
    return { kind, name, space, typeParams, base?, interfaces, isPartial, isStatic, methods,
             members, nested, location }

/-- **A graph document** from a JSON value. -/
def GraphDocument.decode (j : Json) : Option GraphDocument := do
  let ms ← fields? ["coreLibrary", "usings", "types"] j
  let coreLibrary ← defaulted? ms "coreLibrary" bool? true
  let usings ← many? ms "usings" string?
  let types ← many? ms "types" (TypeDoc.decode j.depth)
  return { coreLibrary, usings, types }

/-- **Reading a graph document** from its text. -/
def GraphDocument.read (text : String) : Option GraphDocument :=
  (Json.read text).bind GraphDocument.decode

end LateBridge
