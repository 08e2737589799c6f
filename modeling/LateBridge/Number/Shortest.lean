import LateBridge.Number.Binary64

/-!
# Number/Shortest — the fewest decimal digits that read back as a number

A finite number owns the reals that round to it.  On the grids of one digit, two digits, … the
number has a neighbour below and a neighbour above; the first grid on which one of them lies in the
number's own interval gives the digits, and of two that do the nearer is taken, the upper one if
both are equally near.  Seventeen digits are always enough.
-/

namespace LateBridge.Binary64

/-- **A decimal** — the value `digits * 10 ^ exponent`. -/
structure Decimal where
  digits : Nat
  exponent : Int
  deriving DecidableEq, Repr

/-- The interval of a positive number, as numerators over one denominator: its value, its lower
and its upper end.  Below a power of two the neighbours are twice as dense. -/
structure Interval where
  value : Nat
  low : Nat
  high : Nat
  den : Nat
  closed : Bool

/-- The reals that round to `mantissa * 2 ^ exponent`; its ends belong to it iff the mantissa is
even. -/
def intervalOf (mantissa : Nat) (exponent : Int) : Interval :=
  let (unit, den) := scaleRatio 1 1 (2 - exponent)
  let below := if mantissa == leastNormal then 1 else 2
  { value := 4 * mantissa * unit, low := (4 * mantissa - below) * unit
    high := (4 * mantissa + 2) * unit, den, closed := mantissa % 2 == 0 }

/-- Whether the ratio `num / (den * scale)` lies in the interval, for numerators brought to one
denominator. -/
def Interval.holds (i : Interval) (num scale : Nat) : Bool :=
  if i.closed then i.low * scale ≤ num && num ≤ i.high * scale
  else i.low * scale < num && num < i.high * scale

/-- The neighbour of the number on the grid of multiples of `10 ^ place`, if one lies in the
interval. -/
def onGrid? (i : Interval) (place : Int) : Option Decimal :=
  let up := if place < 0 then 1 else Nat.pow 10 place.natAbs
  let scale := if place < 0 then Nat.pow 10 place.natAbs else 1
  -- a point `k` of the grid is `k * up / scale`; compare over the denominator `den * scale`
  let step := up * i.den
  let value := i.value * scale
  let below := value / step
  let rest := value % step
  let lower := i.holds (below * step) scale
  let upper := i.holds ((below + 1) * step) scale
  if upper && (!lower || 2 * rest ≥ step) then some ⟨below + 1, place⟩
  else if lower then some ⟨below, place⟩
  else none

/-- The place of a positive ratio's first decimal digit: a guess from the number of digits of both
sides, mended downwards. -/
def firstPlace (num den : Nat) : Int :=
  let guess : Int := ((toString num).length : Int) - ((toString den).length : Int)
  let (n, d) := if guess < 0 then (num * Nat.pow 10 guess.natAbs, den)
    else (num, den * Nat.pow 10 guess.natAbs)
  if n < d then guess - 1 else guess

/-- The first of the grids `place`, `place - 1`, … with a point in the interval. -/
def search (i : Interval) : Nat → Int → Decimal
  | 0, place => ⟨i.value * Nat.pow 10 place.natAbs / i.den, place⟩
  | fuel + 1, place =>
    match onGrid? i place with
    | some d => d
    | none => search i fuel (place - 1)

/-- Zeros at the end of the digits moved into the exponent. -/
def Decimal.stripZeros (fuel : Nat) (d : Decimal) : Decimal :=
  match fuel with
  | 0 => d
  | fuel + 1 =>
    if d.digits != 0 && d.digits % 10 == 0 then stripZeros fuel ⟨d.digits / 10, d.exponent + 1⟩
    else d

/-- **The shortest decimal** that reads back as the number `mantissa * 2 ^ exponent`. -/
def shortest (mantissa : Nat) (exponent : Int) : Decimal :=
  if mantissa == 0 then ⟨0, 0⟩
  else
    let i := intervalOf mantissa exponent
    (search i 17 (firstPlace i.value i.den)).stripZeros 20

/-! ## Text -/

/-- A decimal without an exponent: zeros stand between its digits and the point. -/
def Decimal.positional (d : Decimal) : String :=
  let digits := toString d.digits
  if d.exponent ≥ 0 then digits ++ String.ofList (List.replicate d.exponent.natAbs '0')
  else
    let places := d.exponent.natAbs
    let padded := (List.replicate (places + 1 - digits.length) '0') ++ digits.toList
    let whole := padded.length - places
    String.ofList (padded.take whole) ++ "." ++ String.ofList (padded.drop whole)

/-- **The positional text of a number** — its shortest digits, never with an exponent, and no
fraction for a whole number. -/
def positional : Binary64 → String
  | .finite negative mantissa exponent =>
    (if negative then "-" else "") ++ (shortest mantissa exponent).positional
  | .infinite negative => if negative then "-inf" else "inf"
  | .nan => "NaN"

/-- The text of a finite number as digits and a power of ten. -/
def scientific : Binary64 → String
  | .finite negative mantissa exponent =>
    let d := shortest mantissa exponent
    (if negative then "-" else "") ++ toString d.digits ++ "e" ++ toString d.exponent
  | _ => "null"

end LateBridge.Binary64
