import CallChart.Json.Parse

/-! The characters of TOML: blanks, comments, keys and strings. -/
namespace CallChart.Toml

def isBlank (c : Char) : Bool := c == ' ' || c == '\t'

def skipBlank (cs : List Char) : List Char := cs.dropWhile isBlank

/-- A character that may stand in a comment or string as it is. -/
def isPlain (c : Char) : Bool := c == '\t' || (' ' ≤ c && c != '\x7f')

def dropNewline : List Char → Option (List Char)
  | '\n' :: rest => some rest
  | '\r' :: '\n' :: rest => some rest
  | _ => none

/-- The text after a comment, if there is one here. -/
def skipComment : List Char → List Char
  | '#' :: rest => rest.dropWhile isPlain
  | cs => cs

/-- The text after the end of a line, which may be the end of the text. -/
def endLine (cs : List Char) : Option (List Char) :=
  match skipComment (skipBlank cs) with
  | [] => some []
  | cs => dropNewline cs

def skipLines : Nat → List Char → List Char
  | 0, cs => cs
  | steps + 1, cs =>
    match skipBlank cs with
    | '#' :: rest => skipLines steps (rest.dropWhile isPlain)
    | cs =>
      match dropNewline cs with
      | some rest => skipLines steps rest
      | none => cs

def character? (code : Nat) : Option Char :=
  if code.isValidChar then some (Char.ofNat code) else none

def unescape? (c : Char) : Option Char :=
  if c = '"' || c = '\\' then some c
  else if c = 'b' then some '\x08'
  else if c = 'f' then some '\x0c'
  else if c = 'n' then some '\n'
  else if c = 'r' then some '\r'
  else if c = 't' then some '\t'
  else none

def wideCharacter? (high low : Option Nat) : Option Char := do
  character? ((← high) * 0x10000 + (← low))

/-- A string in double quotes, the first of which has been read. -/
def readBasic : List Char → Option (List Char × List Char)
  | [] => none
  | '"' :: rest => some ([], rest)
  | '\\' :: 'u' :: a :: b :: c :: d :: rest => do
    let c ← (Json.code? a b c d).bind character?
    let (cs, rest) ← readBasic rest
    return (c :: cs, rest)
  | '\\' :: 'U' :: a :: b :: c :: d :: e :: f :: g :: h :: rest => do
    let c ← wideCharacter? (Json.code? a b c d) (Json.code? e f g h)
    let (cs, rest) ← readBasic rest
    return (c :: cs, rest)
  | '\\' :: c :: rest => do
    let c ← unescape? c
    let (cs, rest) ← readBasic rest
    return (c :: cs, rest)
  | c :: rest =>
    if isPlain c then do
      let (cs, rest) ← readBasic rest
      return (c :: cs, rest)
    else none

/-- A string in three double quotes, the first of which have been read. One or two quotes may stand
inside and before the end. A backslash at the end of a line skips to the next text; `skipping` is
true on the way there. -/
def readLongBasic (skipping : Bool) : List Char → Option (List Char × List Char)
  | [] => none
  | '"' :: '"' :: '"' :: '"' :: '"' :: rest => some (['"', '"'], rest)
  | '"' :: '"' :: '"' :: '"' :: rest => some (['"'], rest)
  | '"' :: '"' :: '"' :: rest => some ([], rest)
  | '\\' :: 'u' :: a :: b :: c :: d :: rest => do
    let c ← (Json.code? a b c d).bind character?
    let (cs, rest) ← readLongBasic false rest
    return (c :: cs, rest)
  | '\\' :: 'U' :: a :: b :: c :: d :: e :: f :: g :: h :: rest => do
    let c ← wideCharacter? (Json.code? a b c d) (Json.code? e f g h)
    let (cs, rest) ← readLongBasic false rest
    return (c :: cs, rest)
  | '\\' :: c :: rest =>
    match unescape? c with
    | some c => do
      let (cs, rest) ← readLongBasic false rest
      return (c :: cs, rest)
    | none =>
      if (dropNewline (skipBlank (c :: rest))).isSome then
        if c == '\r' || c == '\n' || isBlank c then readLongBasic true rest else none
      else none
  | '\r' :: '\n' :: rest => do
    let (cs, rest) ← readLongBasic skipping rest
    return (if skipping then cs else '\n' :: cs, rest)
  | c :: rest =>
    if c == '\n' || isBlank c then do
      let (cs, rest) ← readLongBasic skipping rest
      return (if skipping then cs else c :: cs, rest)
    else if isPlain c then do
      let (cs, rest) ← readLongBasic false rest
      return (c :: cs, rest)
    else none

/-- A string in single quotes, the first of which has been read. Nothing is escaped. -/
def readLiteral : List Char → Option (List Char × List Char)
  | [] => none
  | '\'' :: rest => some ([], rest)
  | c :: rest =>
    if isPlain c then (readLiteral rest).map fun (cs, rest) => (c :: cs, rest) else none

/-- A string in three single quotes, the first of which have been read. -/
def readLongLiteral : List Char → Option (List Char × List Char)
  | [] => none
  | '\'' :: '\'' :: '\'' :: '\'' :: '\'' :: rest => some (['\'', '\''], rest)
  | '\'' :: '\'' :: '\'' :: '\'' :: rest => some (['\''], rest)
  | '\'' :: '\'' :: '\'' :: rest => some ([], rest)
  | '\r' :: '\n' :: rest => (readLongLiteral rest).map fun (cs, rest) => ('\n' :: cs, rest)
  | c :: rest =>
    if c == '\n' || isPlain c then
      (readLongLiteral rest).map fun (cs, rest) => (c :: cs, rest)
    else none

/-- A line end right after the opening quotes does not count. -/
def dropFirstNewline (cs : List Char) : List Char := (dropNewline cs).getD cs

def readString : List Char → Option (String × List Char)
  | '"' :: '"' :: '"' :: rest => finish (readLongBasic false (dropFirstNewline rest))
  | '"' :: rest => finish (readBasic rest)
  | '\'' :: '\'' :: '\'' :: rest => finish (readLongLiteral (dropFirstNewline rest))
  | '\'' :: rest => finish (readLiteral rest)
  | _ => none
where
  finish (result : Option (List Char × List Char)) : Option (String × List Char) :=
    result.map fun (cs, rest) => (String.ofList cs, rest)

/-- A character of a key without quotes. -/
def isBare (c : Char) : Bool :=
  ('a' ≤ c && c ≤ 'z') || ('A' ≤ c && c ≤ 'Z') || ('0' ≤ c && c ≤ '9') || c == '-' || c == '_'

def readKeyPart : List Char → Option (String × List Char)
  | '"' :: rest => (readBasic rest).map fun (cs, rest) => (String.ofList cs, rest)
  | '\'' :: rest => (readLiteral rest).map fun (cs, rest) => (String.ofList cs, rest)
  | cs =>
    let part := cs.takeWhile isBare
    if part.isEmpty then none else some (String.ofList part, cs.dropWhile isBare)

/-- A key of at most so many parts between points, and the blanks around it. The last part stands
apart from those before it. -/
def readKey : Nat → List Char → Option ((List String × String) × List Char)
  | 0, _ => none
  | parts + 1, cs => do
    let (part, rest) ← readKeyPart (skipBlank cs)
    match skipBlank rest with
    | '.' :: rest =>
      let ((path, last), rest) ← readKey parts rest
      return ((part :: path, last), rest)
    | rest => return (([], part), rest)

end CallChart.Toml
