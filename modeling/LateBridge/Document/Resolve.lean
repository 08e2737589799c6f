import LateBridge.Symbols.Graph
import LateBridge.Syntax.TypeReader

/-!
# Document/Resolve — from written names to declared types

A reference is resolved where it stands.  A single word may be a keyword or a type parameter, the
method's own parameters before those of the enclosing types from the inside out.  Every other name
is looked for among the types nested in the enclosing types, innermost first; then in the enclosing
namespaces, out to the global one; then in the imported namespaces.  In a namespace a dotted name is
tried at every split between namespace and types.
-/

namespace LateBridge

/-- **Where a reference stands**: the enclosing type, the parameters of the enclosing method and
the imported namespaces. -/
structure Scope where
  type : DeclName
  methodVars : List TypeVar
  usings : List String

/-- A name that denotes no type. -/
structure Unresolved where
  name : String
  deriving DecidableEq, Repr

namespace Scope

/-! ## Type parameters -/

/-- The type parameters of the enclosing types, innermost type first. -/
def typeVars (s : Scope) : List TypeVar := s.type.chain.reverse.flatMap DeclName.ownVars

/-- **The type parameter a word stands for.** -/
def var? (s : Scope) (word : String) : Option TypeVar :=
  (s.methodVars ++ s.typeVars).find? (·.name == word)

/-! ## Where to look -/

/-- A text cut at its dots. -/
def dotParts : List Char → List (List Char)
  | [] => [[]]
  | c :: rest =>
    if c == '.' then [] :: dotParts rest
    else match dotParts rest with
      | [] => [[c]]
      | part :: parts => (c :: part) :: parts

/-- A namespace and the namespaces around it, from the inside out. -/
def spacesOutward (space : String) : List String :=
  let parts := (dotParts space.toList).map String.ofList
  ((List.range parts.length).map fun k => ".".intercalate (parts.take (k + 1))).reverse

/-- What stands before a name to look for it in the enclosing types. -/
def typeLeads (s : Scope) : List String := s.type.chain.reverse.map (·.metadata ++ "+")

/-- What stands before a name to look for it in the enclosing namespaces, the global one last. -/
def spaceLeads (s : Scope) : List String :=
  (match s.type.space with
  | some space => (spacesOutward space).map (· ++ ".")
  | none => []) ++ [""]

/-- What stands before a name to look for it in the imported namespaces. -/
def usingLeads (s : Scope) : List String := s.usings.map (· ++ ".")

end Scope

/-! ## Declared types -/

/-- The metadata name of a dotted name after `lead` with its first `split` segments for namespace;
a namespace takes no arguments. -/
def metadataAt? {α : Type} (lead : String) (segments : List (Segment α)) (split : Nat) :
    Option String :=
  let spaces := segments.take split
  if spaces.any (!·.args.isEmpty) then none
  else
    let types := (segments.drop split).map fun s =>
      s.name ++ DeclName.aritySuffix "`" s.args.length
    some (lead ++ String.join (spaces.map (·.name ++ ".")) ++ "+".intercalate types)

namespace Graph

variable (g : Graph)

/-- The first split at which a dotted name after `lead` is declared. -/
def lookupSplit? {α : Type} (segments : List (Segment α)) (splits : Nat) (lead : String) :
    Option TypeDecl :=
  (List.range splits).findSome? fun split => (metadataAt? lead segments split).bind g.find?

/-- **The declared type a dotted name denotes.** -/
def lookup? {α : Type} (s : Scope) (rooted : Bool) (segments : List (Segment α)) :
    Option TypeDecl :=
  if rooted then g.lookupSplit? segments segments.length ""
  else
    (s.typeLeads.findSome? (g.lookupSplit? segments 1)).or <|
      (s.spaceLeads.findSome? (g.lookupSplit? segments segments.length)).or <|
        s.usingLeads.findSome? (g.lookupSplit? segments 1)

/-! ## Types -/

/-- A type followed by a question mark: value types are wrapped, other types only annotated. -/
def nullableOf (t : Ty) : Ty :=
  if g.isValueType t then
    match g.find? "System.Nullable`1" with
    | some d => .named d.name [t]
    | none => t
  else t

/-- The words that are types by themselves: keywords and type parameters. -/
def wordType? (s : Scope) (word : String) : Option (Except Unresolved Ty) :=
  match word with
  | "void" => some (.ok .void)
  | "dynamic" => some (.ok .dynamic)
  | _ =>
    match Special.ofKeyword? word with
    | some special =>
      match g.special? special with
      | some t => some (.ok t)
      | none => some (.error ⟨word⟩)
    | none => (s.var? word).map fun v => .ok (.var v)

/-- The arguments of a declared type; missing ones are those of the outermost types, and are these
types' own parameters. -/
def completeArgs (name : DeclName) (args : List Ty) : List Ty :=
  (name.vars.take (name.totalArity - args.length)).map .var ++ args

mutual

/-- **The type a reference denotes.** -/
def resolve (s : Scope) : TypeSyntax → Except Unresolved Ty
  | .array element rank =>
    match resolve s element with
    | .ok element => .ok (.array element (max rank 1))
    | .error e => .error e
  | .pointer target =>
    match resolve s target with
    | .ok target => .ok (.pointer target)
    | .error e => .error e
  | .nullable inner =>
    match resolve s inner with
    | .ok inner => .ok (g.nullableOf inner)
    | .error e => .error e
  | .fnptr params ret =>
    match resolveList s params with
    | .error e => .error e
    | .ok params =>
      match resolve s ret with
      | .ok ret => .ok (.fnptr params ret)
      | .error e => .error e
  | .name rooted segments =>
    match (TypeSyntax.simpleName? (.name rooted segments)).bind (g.wordType? s) with
    | some result => result
    | none =>
      match g.lookup? s rooted segments with
      | none => .error ⟨".".intercalate (segments.map (·.name))⟩
      | some d =>
        match resolveSegments s segments with
        | .ok args => .ok (.named d.name (completeArgs d.name args))
        | .error e => .error e

/-- The types several references denote. -/
def resolveList (s : Scope) : List TypeSyntax → Except Unresolved (List Ty)
  | [] => .ok []
  | type :: types =>
    match resolve s type with
    | .error e => .error e
    | .ok t =>
      match resolveList s types with
      | .ok ts => .ok (t :: ts)
      | .error e => .error e

/-- The arguments of all segments. -/
def resolveSegments (s : Scope) : List (Segment TypeSyntax) → Except Unresolved (List Ty)
  | [] => .ok []
  | segment :: segments =>
    match resolveSegment s segment with
    | .error e => .error e
    | .ok args =>
      match resolveSegments s segments with
      | .ok more => .ok (args ++ more)
      | .error e => .error e

/-- The arguments of one segment. -/
def resolveSegment (s : Scope) : Segment TypeSyntax → Except Unresolved (List Ty)
  | ⟨_, args⟩ => resolveList s args

end

end Graph

end LateBridge
