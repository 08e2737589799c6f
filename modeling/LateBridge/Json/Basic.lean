import LateBridge.Number.Shortest

/-!
# Json/Basic — JSON values, as a text spells them

An object keeps its members in order and keeps repeats, so that a decoder can refuse them.  A value
that is kept as it is has only the last of them (`Json.merged`).
`Json.unreadable` stands for a piece of well-formed text that has no value: a string with half of a
surrogate pair, a number beyond the range of doubles, a nesting deeper than the reader allows.  A
decoder that looks at it fails, and one that skips the member it stands in does not.
-/

namespace LateBridge

/-- **A number** — an integer if it is written without fraction and exponent and fits 64 bits. -/
inductive JsonNumber where
  | int (value : Int)
  | real (value : Binary64)
  deriving DecidableEq, Repr

/-- **A JSON value.** -/
inductive Json where
  | null
  | bool (value : Bool)
  | number (value : JsonNumber)
  | string (value : String)
  | array (items : List Json)
  | object (members : List (String × Json))
  | unreadable
  deriving Repr, Inhabited

namespace Json

mutual

/-- Whether every part of a value can be read. -/
def readable : Json → Bool
  | .array items => allReadable items
  | .object members => membersReadable members
  | .unreadable => false
  | _ => true

/-- Whether every item can be read. -/
def allReadable : List Json → Bool
  | [] => true
  | item :: rest => item.readable && allReadable rest

/-- Whether every member can be read. -/
def membersReadable : List (String × Json) → Bool
  | [] => true
  | (_, value) :: rest => value.readable && membersReadable rest

end

/-- Giving a member a value: in its place if there is one of that name, else behind the others. -/
def setMember (name : String) (value : Json) : List (String × Json) → List (String × Json)
  | [] => [(name, value)]
  | (key, old) :: rest =>
    if key = name then (key, value) :: rest else (key, old) :: setMember name value rest

/-- Of the members with one name the last, in the place of the first. -/
def lastMembers (members : List (String × Json)) : List (String × Json) :=
  members.foldl (fun kept m => setMember m.1 m.2 kept) []

mutual

/-- **A value as it is kept**: no object in it repeats a name. -/
def merged : Json → Json
  | .array items => .array (mergedItems items)
  | .object members => .object (lastMembers (mergedMembers members))
  | j => j

/-- The items as they are kept. -/
def mergedItems : List Json → List Json
  | [] => []
  | item :: rest => item.merged :: mergedItems rest

/-- The members with their values as they are kept. -/
def mergedMembers : List (String × Json) → List (String × Json)
  | [] => []
  | (name, value) :: rest => (name, value.merged) :: mergedMembers rest

end

mutual

/-- How many arrays and objects stand around the innermost value. -/
def depth : Json → Nat
  | .array items => listDepth items + 1
  | .object members => memberDepth members + 1
  | _ => 0

/-- The greatest depth of the items. -/
def listDepth : List Json → Nat
  | [] => 0
  | item :: rest => max item.depth (listDepth rest)

/-- The greatest depth of the members. -/
def memberDepth : List (String × Json) → Nat
  | [] => 0
  | (_, value) :: rest => max value.depth (memberDepth rest)

end

/-! ## Building answers -/

/-- A string value. -/
instance : Coe String Json := ⟨.string⟩

/-- A truth value. -/
instance : Coe Bool Json := ⟨.bool⟩

/-- A natural number. -/
def nat (n : Nat) : Json := .number (.int n)

/-- The value, or null. -/
def orNull : Option Json → Json
  | some value => value
  | none => .null

/-- An array of strings. -/
def strings (items : List String) : Json := .array (items.map .string)

end Json

end LateBridge
