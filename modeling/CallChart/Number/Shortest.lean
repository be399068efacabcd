import CallChart.Number.Binary64

/-! The shortest decimal text that reads back as the same double. -/
namespace CallChart.Number

namespace Shortest

/-- The reals that round to one double, over a common denominator: those between `low` and `high`,
the ends included if `closed`. -/
structure Interval where
  low : Nat
  value : Nat
  high : Nat
  denominator : Nat
  closed : Bool

/-- The interval of `mantissa * 2 ^ exponent`. Below a power of two the next double is only half as
far away. -/
def interval (mantissa : Nat) (exponent : Int) : Interval :=
  let narrow := mantissa == Binary64.hidden && Binary64.minExponent < exponent
  let scale := if 0 ≤ exponent then Nat.pow 2 exponent.toNat else 1
  { low := (4 * mantissa - if narrow then 1 else 2) * scale
    value := 4 * mantissa * scale
    high := (4 * mantissa + 2) * scale
    denominator := 4 * if 0 ≤ exponent then 1 else Nat.pow 2 (-exponent).toNat
    closed := mantissa % 2 == 0 }

/-- Whether `digits * 10 ^ power` lies in the interval. -/
def Interval.holds (i : Interval) (digits : Nat) (power : Int) : Bool :=
  let n := if 0 ≤ power then digits * Nat.pow 10 power.toNat * i.denominator else digits * i.denominator
  let scale := if 0 ≤ power then 1 else Nat.pow 10 (-power).toNat
  if i.closed then i.low * scale ≤ n && n ≤ i.high * scale
  else i.low * scale < n && n < i.high * scale

/-- The grid of multiples of `10 ^ power` has two neighbours of the value: the one below, and
whether the one above is at least as near. -/
def Interval.neighbour (i : Interval) (power : Int) : Nat × Bool :=
  let (n, d) :=
    if 0 ≤ power then (i.value, i.denominator * Nat.pow 10 power.toNat)
    else (i.value * Nat.pow 10 (-power).toNat, i.denominator)
  (n / d, d ≤ 2 * (n % d))

/-- The number on the grid of `10 ^ power` that lies in the interval, the nearer of two. -/
def Interval.onGrid (i : Interval) (power : Int) : Option Nat :=
  let (below, upward) := i.neighbour power
  let near := if upward then below + 1 else below
  let far := if upward then below else below + 1
  if i.holds near power then some near
  else if i.holds far power then some far
  else none

/-- Tries ever finer grids, and takes the first one with a number in the interval. -/
def Interval.search (i : Interval) (power : Int) : Nat → Nat × Int
  | 0 => ((i.neighbour power).1, power)
  | fuel + 1 =>
    match i.onGrid power with
    | some digits => (digits, power)
    | none => i.search (power - 1) fuel

/-- The grids of doubles begin below the power of ten that no double reaches; seventeen digits are
always enough. -/
def coarsest : Int := 310

def gridCount : Nat := 310 + 324 + 20

/-- The fewest digits, with their power of ten, that read back as `mantissa * 2 ^ exponent`. -/
def digits (mantissa : Nat) (exponent : Int) : Nat × Int :=
  (interval mantissa exponent).search coarsest gridCount

end Shortest

/-- `digits * 10 ^ power` written out with a point and without an exponent. -/
def positional (digits : Nat) (power : Int) : String :=
  if 0 ≤ power then toString (digits * Nat.pow 10 power.toNat)
  else
    let scale := (-power).toNat
    let text := Nat.toDigits 10 digits
    let padded := List.replicate (scale + 1 - text.length) '0' ++ text
    let whole := padded.take (padded.length - scale)
    let fraction := padded.drop (padded.length - scale)
    String.ofList (whole ++ '.' :: fraction)

/-- A double as text: the fewest digits that read back, always in positional form, and a whole
number without a point. -/
def shortest (x : Float) : String :=
  match Binary64.ofFloat x with
  | .nan => "NaN"
  | .infinite negative => if negative then "-inf" else "inf"
  | .finite negative mantissa exponent =>
    let magnitude :=
      if mantissa = 0 then "0"
      else
        let (digits, power) := Shortest.digits mantissa exponent
        positional digits power
    if negative then "-" ++ magnitude else magnitude

/-- Where the point of a literal may stand, counted from before its first digit; beyond these places
an exponent is written. -/
def literalPlaces : Int × Int := (-4, 16)

/-- A double as a number literal: the fewest digits that read back, with a point or an exponent.
There is none for infinity and for no number. -/
def literal (x : Float) : Option String :=
  match Binary64.ofFloat x with
  | .nan => none
  | .infinite _ => none
  | .finite negative mantissa exponent =>
    let magnitude :=
      if mantissa = 0 then "0.0"
      else
        let (digits, power) := Shortest.digits mantissa exponent
        let text := Nat.toDigits 10 digits
        let place : Int := text.length + power
        if 0 ≤ power && place ≤ literalPlaces.2 then positional digits power ++ ".0"
        else if literalPlaces.1 ≤ place && place ≤ literalPlaces.2 then positional digits power
        else
          let tail := if text.length = 1 then [] else '.' :: text.drop 1
          String.ofList (text.take 1 ++ tail) ++ "e" ++ toString (place - 1)
    some (if negative then "-" ++ magnitude else magnitude)

end CallChart.Number
