/-!
# Number/Binary64 — double precision numbers, rounded in exact arithmetic

A finite number is a sign, a mantissa below `2 ^ 53` and a power of two of at least `2 ^ -1074`; its
mantissa is at least `2 ^ 52` unless the power is the least one.  Rounding works on ratios of
natural numbers: `Binary64.ofRatio` takes the nearest number and, between two equally near, the one
with the even mantissa.  Products and quotients round the exact result once.
-/

namespace LateBridge

/-- **Binary64** — a double precision number; `finite` stands for `mantissa * 2 ^ exponent`. -/
inductive Binary64 where
  | finite (negative : Bool) (mantissa : Nat) (exponent : Int)
  | infinite (negative : Bool)
  | nan
  deriving DecidableEq, Repr, Inhabited

namespace Binary64

/-- The least mantissa of a number that is not subnormal. -/
def leastNormal : Nat := Nat.pow 2 52

/-- The least power of two of a finite number. -/
def leastExponent : Int := -1074

/-- The greatest power of two of a finite number. -/
def greatestExponent : Int := 971

/-- Zero with a sign. -/
def zero (negative : Bool) : Binary64 := .finite negative 0 leastExponent

/-! ## Rounding -/

/-- The ratio divided by a power of two, as numerator and denominator. -/
def scaleRatio (num den : Nat) (exponent : Int) : Nat × Nat :=
  if exponent < 0 then (num * Nat.pow 2 exponent.natAbs, den)
  else (num, den * Nat.pow 2 exponent.natAbs)

/-- The integer nearest to a ratio, of two the even one. -/
def nearest (num den : Nat) : Nat :=
  let quotient := num / den
  let twice := 2 * (num % den)
  if twice > den || (twice == den && quotient % 2 == 1) then quotient + 1 else quotient

/-- The power of two at which a positive ratio has a mantissa of 53 bits, or the least power. -/
def exponentOf (num den : Nat) : Int :=
  let guess : Int := (num.log2 : Int) - (den.log2 : Int) - 52
  let (n, d) := scaleRatio num den guess
  max leastExponent (if n / d < leastNormal then guess - 1 else guess)

/-- **Rounding** — the number nearest to `num / den`, infinite when that lies beyond the range. -/
def ofRatio (negative : Bool) (num den : Nat) : Binary64 :=
  if num == 0 then zero negative
  else
    let exponent := exponentOf num den
    let (n, d) := scaleRatio num den exponent
    let mantissa := nearest n d
    let (mantissa, exponent) :=
      if mantissa == 2 * leastNormal then (leastNormal, exponent + 1) else (mantissa, exponent)
    if exponent > greatestExponent then .infinite negative
    else .finite negative mantissa exponent

/-- The nearest number to a natural number. -/
def ofNat (n : Nat) : Binary64 := ofRatio false n 1

/-- The nearest number to a power of ten. -/
def tenPow (k : Nat) : Binary64 := ofNat (Nat.pow 10 k)

/-- The nearest number to `digits * 10 ^ exponent`. -/
def ofDecimal (negative : Bool) (digits : Nat) (exponent : Int) : Binary64 :=
  if exponent < 0 then ofRatio negative digits (Nat.pow 10 exponent.natAbs)
  else ofRatio negative (digits * Nat.pow 10 exponent.natAbs) 1

/-! ## Arithmetic -/

/-- The magnitude of a finite number as a ratio; zero for the others. -/
def ratio : Binary64 → Nat × Nat
  | .finite _ mantissa exponent => scaleRatio mantissa 1 (-exponent)
  | _ => (0, 1)

/-- The same number with the other sign. -/
def negate : Binary64 → Binary64
  | .finite negative mantissa exponent => .finite (!negative) mantissa exponent
  | .infinite negative => .infinite (!negative)
  | .nan => .nan

/-- Whether a number is a zero of either sign. -/
def isZero : Binary64 → Bool
  | .finite _ mantissa _ => mantissa == 0
  | _ => false

/-- The rounded product of two finite numbers of positive sign. -/
def product (x y : Binary64) : Binary64 :=
  ofRatio false (x.ratio.1 * y.ratio.1) (x.ratio.2 * y.ratio.2)

/-- The rounded quotient of two finite numbers of positive sign. -/
def quotient (x y : Binary64) : Binary64 :=
  ofRatio false (x.ratio.1 * y.ratio.2) (x.ratio.2 * y.ratio.1)

end Binary64

end LateBridge
