import CallChart.Json.Basic
import CallChart.Number.Decimal

/-! Reading JSON text. Every value is checked to its end, whether anything will ask for it or
not. -/
namespace CallChart.Json

def isBlank (c : Char) : Bool := c == ' ' || c == '\n' || c == '\t' || c == '\r'

def skipBlank (cs : List Char) : List Char := cs.dropWhile isBlank

def hexValue? (c : Char) : Option Nat :=
  if '0' ≤ c && c ≤ '9' then some (c.toNat - '0'.toNat)
  else if 'a' ≤ c && c ≤ 'f' then some (c.toNat - 'a'.toNat + 10)
  else if 'A' ≤ c && c ≤ 'F' then some (c.toNat - 'A'.toNat + 10)
  else none

def unescape? (c : Char) : Option Char :=
  if c = '"' || c = '\\' || c = '/' then some c
  else if c = 'b' then some '\x08'
  else if c = 'f' then some '\x0c'
  else if c = 'n' then some '\n'
  else if c = 'r' then some '\r'
  else if c = 't' then some '\t'
  else none

def code? (a b c d : Char) : Option Nat := do
  return (((← hexValue? a) * 16 + (← hexValue? b)) * 16 + (← hexValue? c)) * 16 + (← hexValue? d)

/-- The codes of a string up to its closing quote. A code written by its number may be half of a
surrogate pair; no character is. -/
def readCodes : List Char → Option (List Nat × List Char)
  | [] => none
  | '"' :: rest => some ([], rest)
  | '\\' :: 'u' :: a :: b :: c :: d :: rest => do
    let code ← code? a b c d
    let (codes, rest) ← readCodes rest
    return (code :: codes, rest)
  | '\\' :: c :: rest => do
    let c ← unescape? c
    let (codes, rest) ← readCodes rest
    return (c.toNat :: codes, rest)
  | c :: rest =>
    if c < ' ' then none
    else do
      let (codes, rest) ← readCodes rest
      return (c.toNat :: codes, rest)

def isHighHalf (code : Nat) : Bool := 0xD800 ≤ code && code < 0xDC00

def isLowHalf (code : Nat) : Bool := 0xDC00 ≤ code && code < 0xE000

/-- The characters of a string, the halves of surrogate pairs put together. -/
def characters? : List Nat → Option (List Char)
  | [] => some []
  | [code] => if isHighHalf code || isLowHalf code then none else some [Char.ofNat code]
  | code :: next :: rest =>
    if isHighHalf code && isLowHalf next then
      let c := Char.ofNat (0x10000 + (code - 0xD800) * 0x400 + (next - 0xDC00))
      (characters? rest).map (c :: ·)
    else if isHighHalf code || isLowHalf code then none
    else (characters? (next :: rest)).map (Char.ofNat code :: ·)

/-- A string whose opening quote has been read. -/
def readText (cs : List Char) : Option (Option String × List Char) := do
  let (codes, rest) ← readCodes cs
  return ((characters? codes).map String.ofList, rest)

/-- The fraction of a number, if there is one: a point with digits after it. -/
def readFraction : List Char → Option (Bool × List Char)
  | '.' :: rest =>
    if (rest.takeWhile Number.isDigit).isEmpty then none
    else some (true, rest.dropWhile Number.isDigit)
  | rest => some (false, rest)

def readExponent : List Char → Option (Bool × List Char)
  | [] => some (false, [])
  | c :: rest =>
    if c = 'e' || c = 'E' then
      let (_, digits) := Number.sign rest
      if (digits.takeWhile Number.isDigit).isEmpty then none
      else some (true, digits.dropWhile Number.isDigit)
    else some (false, c :: rest)

/-- A number whose sign has been read. It has no superfluous zeros in front. -/
def readDigits (negative : Bool) (cs : List Char) : Option (Json × List Char) := do
  let digits := cs.takeWhile Number.isDigit
  if digits.isEmpty || (digits.head? == some '0' && 1 < digits.length) then none
  else
    let (fraction, rest) ← readFraction (cs.dropWhile Number.isDigit)
    let (exponent, rest) ← readExponent rest
    let n := Number.ofDigits digits
    if fraction || exponent || (negative && n == 0) then return (real, rest)
    else return (integer (if negative then -(n : Int) else n), rest)

/-- The rest of a text after a word that it begins with. -/
def dropWord (word cs : List Char) : Option (List Char) :=
  if word.isPrefixOf cs then some (cs.drop word.length) else none

def readScalar : List Char → Option (Json × List Char)
  | '"' :: rest => (readText rest).map fun (s, rest) => (text s, rest)
  | 'n' :: rest => (dropWord "ull".toList rest).map fun rest => (null, rest)
  | 't' :: rest => (dropWord "rue".toList rest).map fun rest => (bool true, rest)
  | 'f' :: rest => (dropWord "alse".toList rest).map fun rest => (bool false, rest)
  | '-' :: rest => readDigits true rest
  | cs => readDigits false cs

def readKey (cs : List Char) : Option (Option String × List Char) :=
  match skipBlank cs with
  | '"' :: rest =>
    (readText rest).bind fun (key, rest) =>
      match skipBlank rest with
      | ':' :: rest => some (key, rest)
      | _ => none
  | _ => none

mutual

/-- Reads a value. The bound is on the number of steps; each item of an array costs one and at
least one character. -/
def readValue : Nat → List Char → Option (Json × List Char)
  | 0, _ => none
  | steps + 1, cs =>
    match skipBlank cs with
    | '[' :: rest =>
      match skipBlank rest with
      | ']' :: rest => some (array [], rest)
      | rest => (readItems steps rest).map fun (items, rest) => (array items, rest)
    | '{' :: rest =>
      match skipBlank rest with
      | '}' :: rest => some (object [], rest)
      | rest => (readMembers steps rest).map fun (members, rest) => (object members, rest)
    | rest => readScalar rest

def readItems : Nat → List Char → Option (List Json × List Char)
  | 0, _ => none
  | steps + 1, cs =>
    match readValue steps cs with
    | none => none
    | some (item, rest) =>
      match skipBlank rest with
      | ',' :: rest => (readItems steps rest).map fun (items, rest) => (item :: items, rest)
      | ']' :: rest => some ([item], rest)
      | _ => none

def readMembers : Nat → List Char → Option (List (Option String × Json) × List Char)
  | 0, _ => none
  | steps + 1, cs =>
    match readKey cs with
    | none => none
    | some (key, rest) =>
      match readValue steps rest with
      | none => none
      | some (value, rest) =>
        match skipBlank rest with
        | ',' :: rest =>
          (readMembers steps rest).map fun (members, rest) => ((key, value) :: members, rest)
        | '}' :: rest => some ([(key, value)], rest)
        | _ => none

end

/-- Reads a text that is one value with blanks around it. -/
def parse (s : String) : Option Json := do
  let cs := s.toList
  let (value, rest) ← readValue (cs.length + 1) cs
  if (skipBlank rest).isEmpty then some value else none

end CallChart.Json
