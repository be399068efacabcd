import CallChart.Number.Decimal
import CallChart.Toml.Basic

/-! TOML numbers, dates and times. -/
namespace CallChart.Toml

open Number (isDigit)

/-- Digits with single underscores between them. -/
def moreDigits (ok : Char → Bool) : List Char → Option (List Char × List Char)
  | '_' :: c :: rest =>
    if ok c then (moreDigits ok rest).map fun (digits, rest) => (c :: digits, rest) else none
  | c :: rest =>
    if ok c then (moreDigits ok rest).map fun (digits, rest) => (c :: digits, rest)
    else if c == '_' then none
    else some ([], c :: rest)
  | [] => some ([], [])

def readDigits (ok : Char → Bool) : List Char → Option (List Char × List Char)
  | c :: rest =>
    if ok c then (moreDigits ok rest).map fun (digits, rest) => (c :: digits, rest) else none
  | [] => none

/-- The whole part of a decimal number; zero stands alone. -/
def readWhole : List Char → Option (List Char × List Char)
  | '0' :: rest => some (['0'], rest)
  | cs => readDigits isDigit cs

/-- The fraction of a number: nothing, or a point and digits. -/
def readFraction : List Char → Option (Option (List Char) × List Char)
  | '.' :: rest => (readDigits isDigit rest).map fun (digits, rest) => (some digits, rest)
  | cs => some (none, cs)

/-- The exponent of a number: nothing, or a letter e and a signed number. -/
def readExponent : List Char → Option (Option Int × List Char)
  | [] => some (none, [])
  | c :: rest =>
    if c == 'e' || c == 'E' then
      let (negative, rest) := Number.sign rest
      (readDigits isDigit rest).map fun (digits, rest) =>
        let n : Int := Number.ofDigits digits
        (some (if negative then -n else n), rest)
    else some (none, c :: rest)

def minInteger : Int := -Nat.pow 2 63

def maxInteger : Int := Nat.pow 2 63 - 1

def ofInteger? (n : Int) : Option Toml :=
  if minInteger ≤ n && n ≤ maxInteger then some (integer n) else none

/-- A float. A positive one has to be finite. -/
def ofDecimal? (d : Number.Decimal) : Option Toml :=
  let x := d.toFloat
  if x.isInf && !d.negative then none else some (float x)

/-- A number in base ten whose sign has been read. -/
def readDecimal (negative : Bool) (cs : List Char) : Option (Toml × List Char) := do
  let (whole, rest) ← readWhole cs
  let (fraction, rest) ← readFraction rest
  let (exponent, rest) ← readExponent rest
  match fraction, exponent with
  | none, none =>
    let n : Int := Number.ofDigits whole
    return (← ofInteger? (if negative then -n else n), rest)
  | _, _ =>
    let fraction := fraction.getD []
    let exponent := exponent.getD 0
    let value := ⟨negative, Number.ofDigits (whole ++ fraction), exponent - fraction.length⟩
    return (← ofDecimal? value, rest)

def isHexDigit (c : Char) : Bool :=
  isDigit c || ('a' ≤ c && c ≤ 'f') || ('A' ≤ c && c ≤ 'F')

def isOctalDigit (c : Char) : Bool := '0' ≤ c && c ≤ '7'

def isBinaryDigit (c : Char) : Bool := c == '0' || c == '1'

def hexValue (c : Char) : Nat :=
  if isDigit c then c.toNat - '0'.toNat
  else if 'a' ≤ c then c.toNat - 'a'.toNat + 10
  else c.toNat - 'A'.toNat + 10

def readBased (base : Nat) (ok : Char → Bool) (cs : List Char) : Option (Toml × List Char) := do
  let (digits, rest) ← readDigits ok cs
  return (← ofInteger? (digits.foldl (fun n c => n * base + hexValue c) 0 : Nat), rest)

/-- A number that begins with a sign or a digit, or one of the words for infinity and for no
number. -/
def readNumber (cs : List Char) : Option (Toml × List Char) :=
  match cs with
  | '0' :: 'x' :: rest => readBased 16 isHexDigit rest
  | '0' :: 'o' :: rest => readBased 8 isOctalDigit rest
  | '0' :: 'b' :: rest => readBased 2 isBinaryDigit rest
  | cs =>
    let (negative, rest) := Number.sign cs
    match rest with
    | 'i' :: 'n' :: 'f' :: rest =>
      some (float (Number.Binary64.signed negative Number.Binary64.infinityBits), rest)
    | 'n' :: 'a' :: 'n' :: rest => some (float (Float.ofBits 0x7ff8000000000000), rest)
    | rest => readDecimal negative rest

/-- A number of exactly so many digits between two bounds. -/
def readFixed (width low high : Nat) (cs : List Char) : Option (Nat × List Char) :=
  let digits := cs.take width
  let n := Number.ofDigits digits
  if digits.length == width && digits.all isDigit && low ≤ n && n ≤ high then
    some (n, cs.drop width)
  else none

/-- The text after a character that has to be here. -/
def dropChar (ok : Char → Bool) : List Char → Option (List Char)
  | c :: rest => if ok c then some rest else none
  | [] => none

def daysInMonth (year month : Nat) : Nat :=
  if month == 2 then
    if year % 4 == 0 && (year % 100 != 0 || year % 400 == 0) then 29 else 28
  else if month == 4 || month == 6 || month == 9 || month == 11 then 30
  else 31

def dropDate (cs : List Char) : Option (List Char) := do
  let (year, cs) ← readFixed 4 0 9999 cs
  let cs ← dropChar (· == '-') cs
  let (month, cs) ← readFixed 2 1 12 cs
  let cs ← dropChar (· == '-') cs
  let (_, cs) ← readFixed 2 1 (daysInMonth year month) cs
  return cs

/-- The text after a fraction of a second, if there is one. -/
def dropSecondFraction (cs : List Char) : List Char :=
  match cs with
  | '.' :: rest => if (rest.takeWhile isDigit).isEmpty then cs else rest.dropWhile isDigit
  | cs => cs

def dropTime (cs : List Char) : Option (List Char) := do
  let (_, cs) ← readFixed 2 0 23 cs
  let cs ← dropChar (· == ':') cs
  let (_, cs) ← readFixed 2 0 59 cs
  let cs ← dropChar (· == ':') cs
  let (_, cs) ← readFixed 2 0 60 cs
  return dropSecondFraction cs

def dropZone (cs : List Char) : Option (List Char) := do
  match cs with
  | 'Z' :: rest => return rest
  | 'z' :: rest => return rest
  | cs =>
    let cs ← dropChar (fun c => c == '+' || c == '-') cs
    let (_, cs) ← readFixed 2 0 23 cs
    let cs ← dropChar (· == ':') cs
    let (_, cs) ← readFixed 2 0 59 cs
    return cs

/-- The text after a date, a time, or a date and a time with or without a zone. -/
def dropMoment (cs : List Char) : Option (List Char) :=
  match dropDate cs with
  | none => dropTime cs
  | some rest =>
    match (dropChar (fun c => c == 'T' || c == 't' || c == ' ') rest).bind dropTime with
    | none => some rest
    | some rest => some ((dropZone rest).getD rest)

end CallChart.Toml
