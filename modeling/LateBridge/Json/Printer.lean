import LateBridge.Json.Basic
import LateBridge.Text.Hex

/-!
# Json/Printer — from JSON values to text

Printing is compact and in ASCII: what is not printable ASCII stands as escaped 16-bit units, so one
above the basic plane takes two.
-/

namespace LateBridge.Json

open Text (fourHex)

/-- One character of a string. -/
def printChar (c : Char) : String :=
  let n := c.toNat
  if c == '"' then "\\\"" else if c == '\\' then "\\\\"
  else if 0x20 ≤ n && n < 0x7F then c.toString
  else if n < 0x10000 then "\\u" ++ fourHex n
  else "\\u" ++ fourHex (0xD800 + (n - 0x10000) / 0x400) ++ "\\u" ++
    fourHex (0xDC00 + (n - 0x10000) % 0x400)

/-- A string between quotes, after `out`. -/
def printString (out : String) (s : String) : String :=
  (s.toList.foldl (fun out c => out ++ printChar c) (out ++ "\"")) ++ "\""

/-- A number. -/
def printNumber : JsonNumber → String
  | .int i => toString i
  | .real x => x.scientific

mutual

/-- The value, printed after `out`. -/
def printTo (out : String) : Json → String
  | .null | .unreadable => out ++ "null"
  | .bool b => out ++ (if b then "true" else "false")
  | .number n => out ++ printNumber n
  | .string s => printString out s
  | .array items => printItems (out ++ "[") true items ++ "]"
  | .object members => printMembers (out ++ "\x7b") true members ++ "\x7d"

/-- The items, separated by commas. -/
def printItems (out : String) (first : Bool) : List Json → String
  | [] => out
  | item :: rest => printItems (printTo (if first then out else out ++ ",") item) false rest

/-- The members, separated by commas. -/
def printMembers (out : String) (first : Bool) : List (String × Json) → String
  | [] => out
  | (name, value) :: rest =>
    let out := printString (if first then out else out ++ ",") name ++ ":"
    printMembers (printTo out value) false rest

end

/-- **Printing** a value. -/
def print (value : Json) : String := printTo "" value

end LateBridge.Json
