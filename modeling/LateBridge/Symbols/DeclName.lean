/-!
# Symbols/DeclName — where a type is declared

A type is known by its namespace, the types it is nested in, and at each of these steps a simple
name with the names of the step's own type parameters.  That is enough to spell it: its metadata
name, its display name with arguments, and its declared form over its own parameters.
-/

namespace LateBridge

/-- **The name of a declared type** — in a namespace, or inside another type. -/
inductive DeclName where
  | top (space : Option String) (name : String) (params : List String)
  | nested (outer : DeclName) (name : String) (params : List String)
  deriving DecidableEq, Repr, Inhabited

namespace DeclName

/-! ## Parts -/

/-- The last simple name. -/
def simple : DeclName → String
  | top _ name _ | nested _ name _ => name

/-- The names of the type's own parameters. -/
def params : DeclName → List String
  | top _ _ params | nested _ _ params => params

/-- How many type parameters the type itself declares. -/
def arity (n : DeclName) : Nat := n.params.length

/-- The namespace, seen through the enclosing types; none for the global one. -/
def space : DeclName → Option String
  | top space _ _ => space
  | nested outer _ _ => outer.space

/-- The type directly around this one. -/
def outer? : DeclName → Option DeclName
  | top .. => none
  | nested outer _ _ => some outer

/-- **The containing chain** — from the outermost type to this one. -/
def chain : DeclName → List DeclName
  | n@(top ..) => [n]
  | n@(nested outer _ _) => outer.chain ++ [n]

/-- The number of type parameters along the whole chain; a type takes one argument for each. -/
def totalArity : DeclName → Nat
  | top _ _ params => params.length
  | nested outer _ params => outer.totalArity + params.length

/-- A type stands last in its own chain. -/
theorem getLast?_chain (n : DeclName) : n.chain.getLast? = some n := by
  cases n <;> simp [chain]

/-! ## Spelling -/

/-- The namespace with its dot. -/
def spacePrefix : Option String → String
  | some space => space ++ "."
  | none => ""

/-- A number of parameters after a mark, when there are any. -/
def aritySuffix (mark : String) (arity : Nat) : String :=
  if arity == 0 then "" else mark ++ toString arity

/-- **The metadata name** — nested types after a plus sign, arities after a backtick. -/
def metadata : DeclName → String
  | top space name params => spacePrefix space ++ name ++ aritySuffix "`" params.length
  | nested outer name params => outer.metadata ++ "+" ++ name ++ aritySuffix "`" params.length

/-- Brackets and separator for a list of arguments. -/
structure Brackets where
  opening : String
  separator : String
  closing : String

/-- The arguments of one step, if it takes any. -/
def Brackets.around (b : Brackets) (arity : Nat) (args : List String) : String :=
  if arity == 0 then "" else b.opening ++ b.separator.intercalate (args.take arity) ++ b.closing

/-- **The dotted name with arguments**, shared out along the chain: outermost type first. -/
def spell (b : Brackets) (args : List String) : DeclName → String
  | top space name params => spacePrefix space ++ name ++ b.around params.length args
  | nested outer name params =>
    outer.spell b args ++ "." ++ name ++ b.around params.length (args.drop outer.totalArity)

/-- The dotted name with arities in place of arguments. -/
def dotted : DeclName → String
  | top space name params => spacePrefix space ++ name ++ aritySuffix "`" params.length
  | nested outer name params => outer.dotted ++ "." ++ name ++ aritySuffix "`" params.length

end DeclName

end LateBridge
