import CallChart.Number.Binary64

/-! The numbers that coordinates are made of: doubles when the program runs, exact rationals when
its geometry is reasoned about. -/
namespace CallChart

/-- A number type for coordinates. Comparisons follow the type; `cell` names the grid cell of a
coordinate and `span` is the distance between two cells, as far as there is a number for it. -/
class Scalar (α : Type) extends Add α, Sub α, Mul α, Div α where
  ofNat : Nat → α
  lt : α → α → Bool
  le : α → α → Bool
  isZero : α → Bool
  isFinite : α → Bool
  /-- The smaller number; a number that is no number is passed over. -/
  lesser : α → α → α
  /-- The greater number; a number that is no number is passed over. -/
  greater : α → α → α
  /-- A total order in which no two different values are equal. -/
  order : α → α → Ordering
  /-- The nearest integer, a half going away from zero. -/
  cell : α → Int
  /-- The distance from the first cell up to the second; none where it overflows. -/
  span : Int → Int → Option α

namespace Scalar

variable {α : Type} [Scalar α]

def zero : α := ofNat 0

def one : α := ofNat 1

def two : α := ofNat 2

def half : α := (one : α) / two

end Scalar

/-- Cells are kept in 64 bits: a coordinate beyond them is put into the last one. -/
def saturate (n : Int) : Int := max (-Nat.pow 2 63) (min n (Nat.pow 2 63 - 1))

/-- An integer, if 64 bits hold it. -/
def checked (n : Int) : Option Int := if saturate n = n then some n else none

/-- The cell of a double. One that is no number has cell zero. -/
def Number.Binary64.cell : Number.Binary64 → Int
  | .nan => 0
  | .infinite negative => saturate (if negative then -Nat.pow 2 63 else Nat.pow 2 63)
  | .finite negative mantissa exponent => saturate (roundAway negative mantissa exponent)

/-- The place of a double in the total order: the bits below the sign, counted downwards for
negative numbers. -/
def Number.Binary64.rank (x : Float) : Int :=
  let bits := x.toBits.toNat
  if bits < Nat.pow 2 63 then bits else -1 - ((bits : Int) - Nat.pow 2 63)

instance : Scalar Float where
  ofNat n := Number.Binary64.ofInt n
  lt x y := x < y
  le x y := x ≤ y
  isZero x := x == 0.0
  isFinite x := x.isFinite
  lesser x y := if x.isNaN then y else if y < x then y else x
  greater x y := if x.isNaN then y else if x < y then y else x
  order x y := compare (Number.Binary64.rank x) (Number.Binary64.rank y)
  cell x := (Number.Binary64.ofFloat x).cell
  span low high := (checked (high - low)).map Number.Binary64.ofInt

/-- Cells of rationals are unbounded, and so are their distances. -/
instance : Scalar Rat where
  ofNat n := n
  lt x y := x < y
  le x y := x ≤ y
  isZero x := x == 0
  isFinite _ := true
  lesser x y := if y < x then y else x
  greater x y := if x < y then y else x
  order x y := if x < y then .lt else if y < x then .gt else .eq
  cell x := if x < 0 then -(1 / 2 - x).floor else (x + 1 / 2).floor
  span low high := some ((high - low : Int) : Rat)

end CallChart
