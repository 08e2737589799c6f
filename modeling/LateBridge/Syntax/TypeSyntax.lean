/-!
# Syntax/TypeSyntax — type references as they are written

The tree of a type reference before any name in it is looked up.  A name is a list of dotted
segments, each with its own type arguments; suffixes and function pointers are nodes of their own.
-/

namespace LateBridge

/-- **A dotted segment** of a name with its own type arguments. -/
structure Segment (α : Type) where
  name : String
  args : List α
  deriving DecidableEq, Repr

/-- **The tree of a type reference.** -/
inductive TypeSyntax where
  /-- A dotted name; `rooted` when it starts at the global namespace. -/
  | name (rooted : Bool) (segments : List (Segment TypeSyntax))
  /-- An array with `rank` dimensions. -/
  | array (element : TypeSyntax) (rank : Nat)
  /-- A pointer. -/
  | pointer (target : TypeSyntax)
  /-- A type followed by a question mark. -/
  | nullable (inner : TypeSyntax)
  /-- A function pointer: parameter types and return type. -/
  | fnptr (params : List TypeSyntax) (ret : TypeSyntax)
  deriving Repr, Inhabited

namespace TypeSyntax

/-- A single word: no qualification and no arguments. -/
def simpleName? : TypeSyntax → Option String
  | .name false [⟨word, []⟩] => some word
  | _ => none

/-- An array for each rank, the first one outermost. -/
def arrays (element : TypeSyntax) : List Nat → TypeSyntax
  | [] => element
  | rank :: ranks => .array (arrays element ranks) rank

mutual

/-- The number of nodes on the longest path from the root. -/
def height : TypeSyntax → Nat
  | .name _ segments => segmentsHeight segments + 1
  | .array element _ => element.height + 1
  | .pointer target => target.height + 1
  | .nullable inner => inner.height + 1
  | .fnptr params ret => max (listHeight params) ret.height + 1

/-- The greatest height in a list of segments. -/
def segmentsHeight : List (Segment TypeSyntax) → Nat
  | [] => 0
  | segment :: rest => max (segmentHeight segment) (segmentsHeight rest)

/-- The greatest height among the arguments of a segment. -/
def segmentHeight : Segment TypeSyntax → Nat
  | ⟨_, args⟩ => listHeight args

/-- The greatest height in a list. -/
def listHeight : List TypeSyntax → Nat
  | [] => 0
  | type :: rest => max type.height (listHeight rest)

end

end TypeSyntax

/-- **A text that is no type reference** — where reading stopped, in bytes, and why. -/
structure SyntaxError where
  text : String
  offset : Nat
  reason : String
  deriving DecidableEq, Repr

/-- The message of a syntax error. -/
def SyntaxError.message (e : SyntaxError) : String :=
  "invalid type syntax '" ++ e.text ++ "' at offset " ++ toString e.offset ++ ": " ++ e.reason

end LateBridge
