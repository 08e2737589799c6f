import LateBridge.Number.Binary64

/-!
# Number/Text — double precision numbers from text

A number is an optional sign and either a word for infinity or for no number, in any mixture of
capitals, or digits with an optional point and an optional power of ten.  Digits may be missing on
one side of the point.  The value is rounded once.
-/

namespace LateBridge.Binary64

/-- A sign in front of a text; true for minus. -/
def takeSign : List Char → Bool × List Char
  | '-' :: rest => (true, rest)
  | '+' :: rest => (false, rest)
  | cs => (false, cs)

/-- The number a run of digits stands for. -/
def digitsValue (ds : List Char) : Nat := ds.foldl (fun n c => n * 10 + (c.toNat - '0'.toNat)) 0

/-- The power of ten at the end of a text: an exponent mark and a signed number, or nothing. -/
def powerOf? : List Char → Option Int
  | [] => some 0
  | mark :: rest =>
    let (negative, ds) := takeSign rest
    if mark.toLower == 'e' && !ds.isEmpty && ds.all Char.isDigit then
      some (if negative then -(digitsValue ds : Int) else digitsValue ds)
    else none

/-- Exponents beyond this bound decide the value by themselves. -/
def powerBound : Int := 100000

/-- The value of digits and a power of ten, however great the power. -/
def ofDigits (negative : Bool) (digits : Nat) (power : Int) : Binary64 :=
  if digits == 0 || power < -powerBound then zero negative
  else if powerBound < power then .infinite negative
  else ofDecimal negative digits power

/-- The number a text without sign stands for. -/
def ofUnsigned? (negative : Bool) (cs : List Char) : Option Binary64 :=
  match String.ofList (cs.map Char.toLower) with
  | "inf" | "infinity" => some (.infinite negative)
  | "nan" => some .nan
  | _ =>
    let whole := cs.takeWhile Char.isDigit
    let rest := cs.dropWhile Char.isDigit
    let (places, rest) := match rest with
      | '.' :: rest => (rest.takeWhile Char.isDigit, rest.dropWhile Char.isDigit)
      | _ => ([], rest)
    if whole.isEmpty && places.isEmpty then none
    else
      (powerOf? rest).map fun power =>
        ofDigits negative (digitsValue (whole ++ places)) (power - places.length)

/-- **Reading a number.** -/
def ofText? (text : String) : Option Binary64 :=
  let (negative, cs) := takeSign text.toList
  ofUnsigned? negative cs

end LateBridge.Binary64
