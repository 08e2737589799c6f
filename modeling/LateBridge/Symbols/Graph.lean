import LateBridge.Symbols.Decl

/-!
# Symbols/Graph — the declared types of a program

A graph is a list of declarations in declaration order, found by metadata name.  Nothing in it
changes once it is built; every question is a function of it.
-/

namespace LateBridge

/-- How many interfaces a walk over an interface closure may visit; no closure that fits a memory
comes near it. -/
def defaultVisitLimit : Nat := Nat.pow 2 62

/-- **The declared types of a program**, with the metadata name of each beside it. -/
structure Graph where
  decls : List TypeDecl
  visitLimit : Nat := defaultVisitLimit
  byName : List (String × TypeDecl) := decls.map fun d => (d.metadata, d)
  byName_eq : byName = decls.map fun d => (d.metadata, d) := by rfl

instance : Inhabited Graph := ⟨{ decls := [] }⟩

namespace Graph

variable (g : Graph)

/-! ## Looking up declarations -/

/-- **The type with a metadata name.** -/
def find? (metadata : String) : Option TypeDecl := g.byName.lookup metadata

/-- The declaration of a type. -/
def decl? (name : DeclName) : Option TypeDecl := g.find? name.metadata

/-- The methods of all types, in declaration order. -/
def methods : List Method := g.decls.flatMap (·.methods)

/-- A method by its identity. -/
def method? (id : MethodId) : Option Method := (g.decl? id.type).bind (·.methods[id.position]?)

/-- The type parameter a variable stands for. -/
def typeParam? (v : TypeVar) : Option TypeParam :=
  match v.owner with
  | .type name => (g.decl? name).bind (·.typeParams[v.index]?)
  | .method id => (g.method? id).bind (·.typeParams[v.index]?)

/-- The constraints on a variable. -/
def constraints (v : TypeVar) : Constraints := ((g.typeParam? v).map (·.constraints)).getD {}

/-- The types a variable is constrained by. -/
def constraintTypes (v : TypeVar) : List Ty := ((g.typeParam? v).map (·.types)).getD []

/-- The types nested directly in a type, in declaration order. -/
def nestedIn (name : DeclName) : List TypeDecl := g.decls.filter (·.name.outer? == some name)

/-- **Whether a type declares a member with a name**: a field or property, a method, or a nested
type. -/
def hasMember (d : TypeDecl) (name : String) : Bool :=
  d.members.contains name || d.methods.any (·.name == name) ||
    (g.nestedIn d.name).any (·.name.simple == name)

/-- The special type, if the graph declares it. -/
def special? (s : Special) : Option Ty := (g.find? s.metadata).map (Ty.plain ·.name)

theorem find?_eq (metadata : String) :
    g.find? metadata = g.decls.find? (·.metadata == metadata) := by
  rw [find?, g.byName_eq]
  induction g.decls with
  | nil => rfl
  | cons d ds ih =>
    by_cases h : d.metadata = metadata
    · simp [h]
    · have h' : (metadata == d.metadata) = false := by simpa using fun e => h e.symm
      simp [List.lookup_cons, h', h, ih]

/-! ## Kinds of types -/

/-- The kind of a named type. -/
def kind? (t : Ty) : Option Kind := t.declName?.bind fun n => (g.decl? n).map (·.kind)

/-- Whether a type is an interface. -/
def isInterface (t : Ty) : Bool := g.kind? t == some .interface

/-- **Whether the values of a type are values**: of a named type its kind says so, of a variable
its constraints; pointers and function pointers are values. -/
def isValueType : Ty → Bool
  | .named n _ => (g.decl? n).any (·.isValueType)
  | .var v => (g.constraints v).wantsValue
  | .pointer _ | .fnptr .. => true
  | .array .. | .void | .dynamic | .error => false

end Graph

end LateBridge
