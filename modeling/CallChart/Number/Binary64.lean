/-! Double precision numbers as an integer times a power of two, and the double nearest to a
quotient of natural numbers. -/
namespace CallChart.Number

/-- What a bit pattern of a double stands for. -/
inductive Binary64 where
  /-- The number `± mantissa * 2 ^ exponent`. -/
  | finite (negative : Bool) (mantissa : Nat) (exponent : Int)
  | infinite (negative : Bool)
  | nan
  deriving DecidableEq, Repr

namespace Binary64

/-- One more than the largest fraction field. -/
def hidden : Nat := Nat.pow 2 52

/-- The exponent of the smallest positive double. -/
def minExponent : Int := -1074

/-- The bits of positive infinity; smaller patterns without a sign are finite. -/
def infinityBits : Nat := 2047 * Nat.pow 2 52

def ofBits (bits : Nat) : Binary64 :=
  let negative := Nat.pow 2 63 ≤ bits
  let field := bits / hidden % 2048
  let fraction := bits % hidden
  if field = 2047 then
    if fraction = 0 then infinite negative else nan
  else if field = 0 then finite negative fraction minExponent
  else finite negative (hidden + fraction) (field + (minExponent - 1))

def ofFloat (x : Float) : Binary64 := ofBits x.toBits.toNat

/-- `numerator / denominator` rounded to the nearest integer, a tie going to the even one. -/
def divideToEven (numerator denominator : Nat) : Nat :=
  let quotient := numerator / denominator
  let twice := 2 * (numerator % denominator)
  if denominator < twice || (twice == denominator && quotient % 2 == 1) then quotient + 1
  else quotient

/-- The quotient divided by `2 ^ exponent`, as a fraction of natural numbers. -/
def scaled (numerator denominator : Nat) (exponent : Int) : Nat × Nat :=
  if 0 ≤ exponent then (numerator, denominator * Nat.pow 2 exponent.toNat)
  else (numerator * Nat.pow 2 (-exponent).toNat, denominator)

/-- The exponent at which the quotient has a mantissa of 53 bits, or the least exponent. -/
def exponentOf (numerator denominator : Nat) : Int :=
  let guess : Int := (numerator.log2 : Int) - denominator.log2 - 52
  let (n, d) := scaled numerator denominator guess
  max minExponent (if n < hidden * d then guess - 1 else guess)

/-- The bits of the double nearest to `numerator / denominator`, ties going to the even mantissa
and numbers beyond the largest double to infinity. The denominator is positive. -/
def nearestBits (numerator denominator : Nat) : Nat :=
  if numerator = 0 then 0
  else
    let exponent := exponentOf numerator denominator
    let (n, d) := scaled numerator denominator exponent
    let mantissa := divideToEven n d
    if mantissa < hidden then mantissa
    else min infinityBits ((exponent - minExponent + 1).toNat * hidden + (mantissa - hidden))

def signed (negative : Bool) (bits : Nat) : Float :=
  Float.ofBits (UInt64.ofNat (if negative then Nat.pow 2 63 + bits else bits))

def ofInt (n : Int) : Float := signed (n < 0) (nearestBits n.natAbs 1)

/-- The nearest integer, a half going away from zero. -/
def roundAway (negative : Bool) (mantissa : Nat) (exponent : Int) : Int :=
  let magnitude :=
    if 0 ≤ exponent then mantissa * Nat.pow 2 exponent.toNat
    else (2 * mantissa + Nat.pow 2 (-exponent).toNat) / Nat.pow 2 ((-exponent).toNat + 1)
  if negative then -(magnitude : Int) else magnitude

end Binary64
end CallChart.Number
