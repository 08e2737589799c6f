import LateBridge.Json.Basic

/-!
# Json/Decode — reading members of known shape

Small decoders into options.  A member may stand once in its object; what is not asked for is
skipped.  A record may also be written as the array of its first members.
-/

namespace LateBridge.Json

/-- A string. -/
def string? : Json → Option String
  | .string s => some s
  | _ => none

/-- A truth value. -/
def bool? : Json → Option Bool
  | .bool b => some b
  | _ => none

/-- A natural number below a limit. -/
def natBelow? (limit : Nat) : Json → Option Nat
  | .number (.int i) => if 0 ≤ i && i < limit then some i.toNat else none
  | _ => none

/-- A string of one character. -/
def char? : Json → Option Char
  | .string s =>
    match s.toList with
    | [c] => some c
    | _ => none
  | _ => none

/-- Any value that can be read, as it is kept. -/
def any? (j : Json) : Option Json := if j.readable then some j.merged else none

/-- A word that picks a case: a string, or an object with the word for its only name. -/
def word? : Json → Option String
  | .string s => some s
  | .object [(s, .null)] => some s
  | _ => none

/-- An array whose items all decode. -/
def list? {α : Type} (decode : Json → Option α) : Json → Option (List α)
  | .array items => items.mapM decode
  | _ => none

/-- Null, or a value that decodes. -/
def nullable? {α : Type} (decode : Json → Option α) : Json → Option (Option α)
  | .null => some none
  | j => (decode j).map some

/-- The members of an object. -/
def members? : Json → Option (List (String × Json))
  | .object members => some members
  | _ => none

/-- The members of a record: an object, or an array that gives the first of the named members in
order. -/
def fields? (names : List String) : Json → Option (List (String × Json))
  | .object members => some members
  | .array items => if items.length ≤ names.length then some (names.zip items) else none
  | _ => none

/-- The member with a name, if there is one; none at all when there are several. -/
def unique? (members : List (String × Json)) (name : String) : Option (Option Json) :=
  match members.filter (·.1 == name) with
  | [] => some none
  | [(_, value)] => some (some value)
  | _ => none

/-- A member that must be there. -/
def required? {α : Type} (members : List (String × Json)) (name : String)
    (decode : Json → Option α) : Option α :=
  match unique? members name with
  | some (some value) => decode value
  | _ => none

/-- A member with a default for when it is absent. -/
def defaulted? {α : Type} (members : List (String × Json)) (name : String)
    (decode : Json → Option α) (default : α) : Option α :=
  match unique? members name with
  | some (some value) => decode value
  | some none => some default
  | none => none

/-- A member that may be absent or null. -/
def optional? {α : Type} (members : List (String × Json)) (name : String)
    (decode : Json → Option α) : Option (Option α) :=
  defaulted? members name (nullable? decode) none

/-- An array, empty when absent. -/
def many? {α : Type} (members : List (String × Json)) (name : String)
    (decode : Json → Option α) : Option (List α) :=
  defaulted? members name (list? decode) []

/-- A flag, off when absent. -/
def flag? (members : List (String × Json)) (name : String) : Option Bool :=
  defaulted? members name bool? false

end LateBridge.Json
