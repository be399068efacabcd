import CallChart.Number.Binary64

/-! Decimal numbers, and how text is read as a real number. -/
namespace CallChart.Number

/-- The number `± coefficient * 10 ^ exponent`. -/
structure Decimal where
  negative : Bool
  coefficient : Nat
  exponent : Int
  deriving DecidableEq, Repr

namespace Decimal

/-- How many decimal digits a number has; zero has none. -/
def digitCount (n : Nat) : Nat := if n = 0 then 0 else (Nat.toDigits 10 n).length

/-- Decimals with more places than this before the point are beyond every double, and those with
this many zeros after the point are nearer to zero than to any other double. -/
def reach : Int := 400

def toFloat (d : Decimal) : Float :=
  let places := (digitCount d.coefficient : Int) + d.exponent
  let bits :=
    if d.coefficient = 0 || places < -reach then 0
    else if reach < places then Binary64.infinityBits
    else if 0 ≤ d.exponent then Binary64.nearestBits (d.coefficient * Nat.pow 10 d.exponent.toNat) 1
    else Binary64.nearestBits d.coefficient (Nat.pow 10 (-d.exponent).toNat)
  Binary64.signed d.negative bits

end Decimal

def isDigit (c : Char) : Bool := '0' ≤ c && c ≤ '9'

def digitValue (c : Char) : Nat := c.toNat - '0'.toNat

def ofDigits (digits : List Char) : Nat := digits.foldl (fun n c => n * 10 + digitValue c) 0

def sign : List Char → Bool × List Char
  | '-' :: rest => (true, rest)
  | '+' :: rest => (false, rest)
  | text => (false, text)

/-- The exponent part that ends a number: nothing, or a letter e with a signed run of digits. -/
def exponent? : List Char → Option Int
  | [] => some 0
  | c :: rest =>
    if c == 'e' || c == 'E' then
      let (negative, digits) := sign rest
      if digits.isEmpty || !digits.all isDigit then none
      else some (if negative then -(ofDigits digits : Int) else ofDigits digits)
    else none

/-- Digits with at most one point among them and at least one digit, then an exponent part. -/
def unsignedDecimal? (negative : Bool) (text : List Char) : Option Decimal :=
  let whole := text.takeWhile isDigit
  let rest := text.dropWhile isDigit
  let (fraction, rest) :=
    match rest with
    | '.' :: rest => (rest.takeWhile isDigit, rest.dropWhile isDigit)
    | rest => ([], rest)
  if whole.isEmpty && fraction.isEmpty then none
  else
    (exponent? rest).map fun e =>
      ⟨negative, ofDigits (whole ++ fraction), e - fraction.length⟩

def lower (c : Char) : Char :=
  if 'A' ≤ c && c ≤ 'Z' then Char.ofNat (c.toNat + 32) else c

/-- A real number as text: an optional sign, then a decimal number, `inf`, `infinity` or `nan` in
any case. -/
def real? (text : List Char) : Option Float :=
  let (negative, rest) := sign text
  let word := String.ofList (rest.map lower)
  if word == "inf" || word == "infinity" then
    some (Binary64.signed negative Binary64.infinityBits)
  else if word == "nan" then some (Float.ofBits 0x7ff8000000000000)
  else (unsignedDecimal? negative rest).map Decimal.toFloat

end CallChart.Number
