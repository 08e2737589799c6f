import LateBridge.Number.Shortest
import LateBridge.Source.TypeText
import LateBridge.Symbols.Graph
import LateBridge.Text.Hex

/-!
# Source/Literal — constants as generated source spells them

A constant is spelled for the type of the parameter it is the default of.  Null stands for every
default value; an integer is cast where it is the value of an enumeration; a real number takes the
suffix of its type.
-/

namespace LateBridge

open Text (fourHexCapitals)

/-! ## Characters -/

/-- One character between quotes of a kind. -/
def escapeChar (quote c : Char) : String :=
  if c == '\\' then "\\\\" else if c == '\n' then "\\n" else if c == '\r' then "\\r"
  else if c == '\t' then "\\t" else if c == '\x00' then "\\0"
  else if c == quote then "\\" ++ c.toString
  else if Text.isControl c then "\\u" ++ fourHexCapitals c.toNat
  else c.toString

/-- A character literal. -/
def charLiteral (c : Char) : String := "'" ++ escapeChar '\'' c ++ "'"

/-- A string literal. -/
def stringLiteral (s : String) : String :=
  "\"" ++ String.join (s.toList.map (escapeChar '"')) ++ "\""

/-! ## Numbers -/

/-- The suffix of the numbers of a special type. -/
def Special.numberSuffix : Option Special → String
  | some .single => "F"
  | some .double => "D"
  | some .decimal => "M"
  | _ => ""

/-- A real number; without a suffix of its own it is a double. -/
def realLiteral (special : Option Special) (x : Binary64) : String :=
  let word := if special == some Special.single then "float" else "double"
  match x with
  | .nan => word ++ ".NaN"
  | .infinite negative => word ++ (if negative then ".NegativeInfinity" else ".PositiveInfinity")
  | .finite .. =>
    let suffix := Special.numberSuffix special
    x.positional ++ (if suffix.isEmpty then "D" else suffix)

/-- Whether a type is an enumeration and not the root of them. -/
def Graph.isEnumeration (g : Graph) (t : Ty) : Bool :=
  g.kind? t == some .enum && t.special?.isNone

/-- An integer; a negative one is bracketed after a cast. -/
def Graph.intLiteral (g : Graph) (t : Ty) (i : Int) : String :=
  if g.isEnumeration t then
    "(" ++ t.source ++ ")" ++ (if i < 0 then "(" ++ toString i ++ ")" else toString i)
  else toString i ++ Special.numberSuffix t.special?

/-- **A constant of a type.** -/
def Graph.literal (g : Graph) (t : Ty) : Constant → String
  | .null => "default(" ++ t.source ++ ")"
  | .bool b => if b then "true" else "false"
  | .int i => g.intLiteral t i
  | .float x => realLiteral t.special? x
  | .char c => charLiteral c
  | .string s => stringLiteral s

end LateBridge
