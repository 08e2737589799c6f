import LateBridge.Json.Basic

/-!
# Json/Reader — from text to JSON values

A recursive reader over the characters of a text, each step handing on the rest.  It accepts the
JSON grammar with the four JSON blanks and refuses everything else; what is well formed but has no
value becomes `Json.unreadable` in its place.  Containers may stand 127 deep.

Numbers are read as the format's consumers expect: the digits go into a 64-bit significand, digits
beyond it are dropped, and the significand, the power of ten and their product or quotient are
rounded one after the other.
-/

namespace LateBridge.Json

/-! ## Blanks and literals -/

/-- The four blanks of the grammar. -/
def isJsonBlank (c : Char) : Bool := c == ' ' || c == '\n' || c == '\t' || c == '\r'

/-- The text after its leading blanks. -/
def skipSpace (cs : List Char) : List Char := cs.dropWhile isJsonBlank

/-- The text after a word it starts with. -/
def afterWord? : List Char → List Char → Option (List Char)
  | [], rest => some rest
  | w :: ws, c :: cs => if w == c then afterWord? ws cs else none
  | _ :: _, [] => none

/-! ## Numbers -/

/-- The value of a decimal digit. -/
def digitValue (c : Char) : Nat := c.toNat - '0'.toNat

/-- A leading run of digits and the text after it. -/
def digitRun (cs : List Char) : List Nat × List Char :=
  ((cs.takeWhile Char.isDigit).map digitValue, cs.dropWhile Char.isDigit)

/-- The greatest significand. -/
def maxSignificand : Nat := Nat.pow 2 64 - 1

/-- Digits taken into the significand as long as it fits, and the digits left over. -/
def takeDigits (significand : Nat) : List Nat → Nat × List Nat
  | [] => (significand, [])
  | d :: ds =>
    if significand * 10 + d > maxSignificand then (significand, d :: ds)
    else takeDigits (significand * 10 + d) ds

/-- **A numeral** — its sign, its digits before and after the point, and its exponent. -/
structure Numeral where
  negative : Bool
  whole : List Nat
  fraction : List Nat
  exponent : Int
  /-- Neither a point nor an exponent is written. -/
  isWhole : Bool

/-- The magnitude `significand * 10 ^ exponent`, rounded in up to three steps; none beyond the
range. -/
def scaled? (significand : Nat) (exponent : Int) : Option Binary64 :=
  let f := Binary64.ofNat significand
  let k := exponent.natAbs
  if f.isZero then some f
  else if 0 ≤ exponent then
    if k ≤ 308 then
      match f.product (Binary64.tenPow k) with
      | .infinite _ => none
      | x => some x
    else none
  else if k ≤ 308 then some (f.quotient (Binary64.tenPow k))
  else if k ≤ 616 then
    some ((f.quotient (Binary64.tenPow 308)).quotient (Binary64.tenPow (k - 308)))
  else some (Binary64.zero false)

/-- **The value of a numeral** — an integer where it is whole and fits, else the rounded magnitude
with its sign; minus zero is a real. -/
def Numeral.value? (n : Numeral) : Option JsonNumber :=
  let (whole, dropped) := takeDigits 0 n.whole
  let signed (x : Binary64) : JsonNumber := .real (if n.negative then x.negate else x)
  if n.isWhole && dropped.isEmpty then
    if !n.negative then some (.int whole)
    else if whole == 0 || whole > Nat.pow 2 63 then some (signed (Binary64.ofNat whole))
    else some (.int (-whole))
  else
    let (significand, ignored) := takeDigits whole n.fraction
    let shift : Int := (dropped.length : Int) - (n.fraction.length - ignored.length : Nat)
    (scaled? significand (shift + n.exponent)).map signed

/-- The digits after an exponent mark, with their sign. -/
def readExponent (cs : List Char) : Option (Int × List Char) :=
  let (negative, cs) := match cs with
    | '+' :: rest => (false, rest)
    | '-' :: rest => (true, rest)
    | _ => (false, cs)
  match digitRun cs with
  | ([], _) => none
  | (ds, rest) =>
    let size : Nat := ds.foldl (fun n d => n * 10 + d) 0
    some (if negative then -(size : Int) else size, rest)

/-- A numeral after its sign: no zero stands before other digits of the whole part. -/
def readNumeral (negative : Bool) (cs : List Char) : Option (Numeral × List Char) := do
  let (whole, cs) := digitRun cs
  if whole.isEmpty || (whole.head? == some 0 && whole.length > 1) then none
  let (fraction, pointed, cs) ← match cs with
    | '.' :: rest =>
      match digitRun rest with
      | ([], _) => none
      | (ds, rest) => some (ds, true, rest)
    | _ => some ([], false, cs)
  match cs with
  | 'e' :: rest | 'E' :: rest =>
    let (exponent, rest) ← readExponent rest
    some ({ negative, whole, fraction, exponent, isWhole := false }, rest)
  | _ => some ({ negative, whole, fraction, exponent := 0, isWhole := !pointed }, cs)

/-! ## Strings -/

/-- The value of a hexadecimal digit. -/
def hexValue? (c : Char) : Option Nat :=
  if '0' ≤ c && c ≤ '9' then some (c.toNat - 48)
  else if 'a' ≤ c && c ≤ 'f' then some (c.toNat - 87)
  else if 'A' ≤ c && c ≤ 'F' then some (c.toNat - 55)
  else none

/-- The value of four hexadecimal digits. -/
def hexValues? (a b c d : Char) : Option Nat := do
  some (((← hexValue? a) * 16 + (← hexValue? b)) * 256 + (← hexValue? c) * 16 + (← hexValue? d))

/-- The character a one-letter escape stands for. -/
def escapeValue? : Char → Option Char
  | '"' => some '"'
  | '\\' => some '\\'
  | '/' => some '/'
  | 'b' => some '\x08'
  | 'f' => some '\x0c'
  | 'n' => some '\n'
  | 'r' => some '\r'
  | 't' => some '\t'
  | _ => none

/-- What has been read of a string: its characters in reverse, the first half of a surrogate pair
that still waits for its second half, and whether every pair so far was whole. -/
structure StringPart where
  reversed : List Char
  half : Option Nat
  whole : Bool

/-- A character joins the string; a waiting half is then a half for good. -/
def StringPart.push (p : StringPart) (c : Char) : StringPart :=
  ⟨c :: p.reversed, none, p.whole && p.half.isNone⟩

/-- A code unit of 16 bits joins the string. -/
def StringPart.pushUnit (p : StringPart) (unit : Nat) : StringPart :=
  if 0xD800 ≤ unit && unit ≤ 0xDBFF then ⟨p.reversed, some unit, p.whole && p.half.isNone⟩
  else if 0xDC00 ≤ unit && unit ≤ 0xDFFF then
    match p.half with
    | some high =>
      ⟨Char.ofNat (0x10000 + (high - 0xD800) * 0x400 + (unit - 0xDC00)) :: p.reversed, none, p.whole⟩
    | none => ⟨p.reversed, none, false⟩
  else p.push (Char.ofNat unit)

/-- The finished string, if every pair is whole. -/
def StringPart.finish? (p : StringPart) : Option String :=
  if p.whole && p.half.isNone then some (String.ofList p.reversed.reverse) else none

/-- The rest of a string after its opening quote: its value, if it has one, and the text after the
closing quote. -/
def readString (part : StringPart) : List Char → Option (Option String × List Char)
  | [] => none
  | '"' :: rest => some (part.finish?, rest)
  | '\\' :: 'u' :: a :: b :: c :: d :: rest =>
    match hexValues? a b c d with
    | some unit => readString (part.pushUnit unit) rest
    | none => none
  | '\\' :: e :: rest =>
    match escapeValue? e with
    | some c => readString (part.push c) rest
    | none => none
  | c :: rest => if c.toNat < 0x20 || c == '\\' then none else readString (part.push c) rest

/-! ## Values -/

/-- A container, if there is room for one more. -/
def contained (room : Nat) (value : Json) : Json := if room == 0 then .unreadable else value

/-- A numeral as a JSON value. -/
def numberOf (n : Numeral) : Json :=
  match n.value? with
  | some value => .number value
  | none => .unreadable

mutual

/-- One value with blanks before it, and the text after it.  `room` counts the containers that may
still be opened. -/
def readValue (fuel room : Nat) (cs : List Char) : Option (Json × List Char) :=
  match fuel with
  | 0 => none
  | fuel + 1 =>
    match skipSpace cs with
    | '"' :: rest =>
      (readString ⟨[], none, true⟩ rest).map fun (s, rest) =>
        (match s with | some s => .string s | none => .unreadable, rest)
    | '[' :: rest =>
      match skipSpace rest with
      | ']' :: rest => some (contained room (.array []), rest)
      | _ => (readItems fuel (room - 1) [] rest).map fun (items, rest) =>
          (contained room (.array items), rest)
    | '\x7b' :: rest =>
      match skipSpace rest with
      | '\x7d' :: rest => some (contained room (.object []), rest)
      | _ => (readMembers fuel (room - 1) [] true rest).map fun (members, rest) =>
          (contained room (match members with | some ms => .object ms | none => .unreadable), rest)
    | 't' :: rest => (afterWord? ['r', 'u', 'e'] rest).map ((.bool true, ·))
    | 'f' :: rest => (afterWord? ['a', 'l', 's', 'e'] rest).map ((.bool false, ·))
    | 'n' :: rest => (afterWord? ['u', 'l', 'l'] rest).map ((.null, ·))
    | '-' :: rest => (readNumeral true rest).map fun (n, rest) => (numberOf n, rest)
    | rest => (readNumeral false rest).map fun (n, rest) => (numberOf n, rest)

/-- The items of an array up to its closing bracket, after those in `done`. -/
def readItems (fuel room : Nat) (done : List Json) (cs : List Char) :
    Option (List Json × List Char) :=
  match fuel with
  | 0 => none
  | fuel + 1 =>
    match readValue fuel room cs with
    | none => none
    | some (item, cs) =>
      match skipSpace cs with
      | ']' :: rest => some ((item :: done).reverse, rest)
      | ',' :: rest => readItems fuel room (item :: done) rest
      | _ => none

/-- The members of an object up to its closing brace, after those in `done`; none of them when a
name cannot be read. -/
def readMembers (fuel room : Nat) (done : List (String × Json)) (named : Bool) (cs : List Char) :
    Option (Option (List (String × Json)) × List Char) :=
  match fuel with
  | 0 => none
  | fuel + 1 =>
    match skipSpace cs with
    | '"' :: rest =>
      match readString ⟨[], none, true⟩ rest with
      | none => none
      | some (name, rest) =>
        match skipSpace rest with
        | ':' :: rest =>
          match readValue fuel room rest with
          | none => none
          | some (value, rest) =>
            let named := named && name.isSome
            let done := (name.getD "", value) :: done
            match skipSpace rest with
            | '\x7d' :: rest => some (if named then some done.reverse else none, rest)
            | ',' :: rest => readMembers fuel room done named rest
            | _ => none
        | _ => none
    | _ => none

end

/-- How many containers may stand inside each other. -/
def maxDepth : Nat := 127

/-- **Reading a text with a given room** for nested containers; the text holds one value and
blanks. -/
def readWithin (room : Nat) (text : String) : Option Json :=
  let cs := text.toList
  match readValue (2 * cs.length + 2) room cs with
  | some (value, rest) => if (skipSpace rest).isEmpty then some value else none
  | none => none

/-- **Reading a text** — none unless the whole text is one value. -/
def read (text : String) : Option Json := readWithin maxDepth text

end LateBridge.Json
