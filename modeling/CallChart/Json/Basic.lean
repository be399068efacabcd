import CallChart.Text.Quoted

/-! JSON values and their compact text. -/
namespace CallChart

/-- A JSON value, as far as it matters here. -/
inductive Json where
  | null
  | bool (value : Bool)
  | integer (value : Int)
  /-- A number that is not written as an integer, and minus zero. Its value is never used. -/
  | real
  /-- A string. There is no text if it holds half of a surrogate pair. -/
  | text (value : Option String)
  | array (items : List Json)
  /-- Members in the order in which they are written. -/
  | object (members : List (Option String × Json))
  deriving Repr, Inhabited

namespace Json

def ofString (s : String) : Json := text (some s)

def ofNat (n : Nat) : Json := integer n

def ofMembers (members : List (String × Json)) : Json :=
  object (members.map fun member => (some member.1, member.2))

/-- One character inside quotes. Only what has to be escaped is escaped. -/
def escape (c : Char) : List Char :=
  if c = '"' then ['\\', '"']
  else if c = '\\' then ['\\', '\\']
  else if c = '\x08' then ['\\', 'b']
  else if c = '\t' then ['\\', 't']
  else if c = '\n' then ['\\', 'n']
  else if c = '\x0c' then ['\\', 'f']
  else if c = '\r' then ['\\', 'r']
  else if c < ' ' then ['\\', 'u'] ++ (Text.hex 4 c.toNat).toList
  else [c]

/-- A text in quotes. A string that is no text is written with half of a surrogate pair. -/
def quote : Option String → List Char
  | some s => '"' :: s.toList.flatMap escape ++ ['"']
  | none => "\"\\ud800\"".toList

mutual

def write : Json → List Char
  | null => "null".toList
  | bool true => "true".toList
  | bool false => "false".toList
  | integer n => (toString n).toList
  | real => "0.5".toList
  | text s => quote s
  | array [] => "[]".toList
  | array (item :: items) => '[' :: item.write ++ writeItems items
  | object [] => "\x7b\x7d".toList
  | object ((key, value) :: members) =>
    '{' :: quote key ++ ':' :: value.write ++ writeMembers members

/-- The items after the first one, and the end of the array. -/
def writeItems : List Json → List Char
  | [] => [']']
  | item :: items => ',' :: item.write ++ writeItems items

/-- The members after the first one, and the end of the object. -/
def writeMembers : List (Option String × Json) → List Char
  | [] => ['}']
  | (key, value) :: members => ',' :: quote key ++ ':' :: value.write ++ writeMembers members

end

def compact (j : Json) : String := String.ofList j.write

end Json
end CallChart
