import CallChart.Layout.Request
import CallChart.Number.Decimal
import CallChart.Text.Blank

/-! The line format in which a drawing comes back: a header with the size of the drawing, a line
for each node and each edge, and a last line that says `stop`. -/
namespace CallChart.Dot

/-- What can be wrong with a drawing. Lines count from one. -/
inductive PlainFault where
  | missingField (line : Nat)
  | notANumber (line : Nat) (field : String)
  | notFinite (line : Nat)
  | nodeBeforeHeader (line : Nat)
  | unnamedNode (line : Nat)
  | unexpectedStatement (line : Nat) (word : String)
  | noStop
  | noHeader
  deriving DecidableEq, Repr

namespace PlainFault

def atLine (line : Nat) (text : String) : String := "line " ++ toString line ++ ": " ++ text

def message : PlainFault → String
  | missingField line => atLine line "missing field"
  | notANumber line field => atLine line ("not a number: " ++ field)
  | notFinite line => atLine line "non-finite value"
  | nodeBeforeHeader line => atLine line "node before graph header"
  | unnamedNode line => atLine line "node without a name"
  | unexpectedStatement line word => atLine line ("unexpected statement " ++ word)
  | noStop => "output ended before stop"
  | noHeader => "missing graph header"

end PlainFault

/-- What has been read so far: the size of the latest header and the latest place of each node. -/
structure Plain where
  extent : Option (Extent Float)
  positions : Std.TreeMap String (Point Float)

namespace Plain

def start : Plain := ⟨none, ∅⟩

/-- The finite number in the first of some fields, and the fields after it. -/
def number (line : Nat) : List (List Char) → Except PlainFault (Float × List (List Char))
  | [] => .error (.missingField line)
  | field :: rest =>
    match Number.real? field with
    | none => .error (.notANumber line (String.ofList field))
    | some x => if x.isFinite then .ok (x, rest) else .error (.notFinite line)

/-- A header: the scale, which is not used, the width and the height. -/
def readHeader (line : Nat) (fields : List (List Char)) (p : Plain) :
    Except PlainFault Plain := do
  let (_, fields) ← number line fields
  let (width, fields) ← number line fields
  let (height, _) ← number line fields
  return { p with extent := some ⟨width, height⟩ }

/-- A node: its name without quotes around it, and its place. Heights count from the lower border
of the drawing and are turned around. -/
def readNode (line : Nat) (fields : List (List Char)) (p : Plain) :
    Except PlainFault Plain :=
  match p.extent, fields with
  | none, _ => .error (.nodeBeforeHeader line)
  | some _, [] => .error (.unnamedNode line)
  | some extent, name :: fields => do
    let (x, fields) ← number line fields
    let (y, _) ← number line fields
    let key := String.ofList (Text.strip '"' name)
    return { p with positions := p.positions.insert key ⟨x, extent.height - y⟩ }

/-- One line that is not the last one. -/
def readLine (line : Nat) (p : Plain) : List (List Char) → Except PlainFault Plain
  | [] => .ok p
  | word :: fields =>
    match String.ofList word with
    | "graph" => readHeader line fields p
    | "node" => readNode line fields p
    | "edge" => .ok p
    | other => .error (.unexpectedStatement line other)

def finish (p : Plain) : Except PlainFault (RawLayout Float) :=
  match p.extent with
  | some extent => .ok ⟨p.positions, extent⟩
  | none => .error .noHeader

/-- Reads lines, numbered from `line` on, until one says `stop`. What follows it is not read. -/
def readLines (line : Nat) (p : Plain) :
    List (List (List Char)) → Except PlainFault (RawLayout Float)
  | [] => .error .noStop
  | fields :: rest =>
    if fields.head? = some "stop".toList then finish p
    else
      match readLine line p fields with
      | .ok p => readLines (line + 1) p rest
      | .error fault => .error fault

def parse (text : String) : Except PlainFault (RawLayout Float) :=
  readLines 1 start ((Text.lines text.toList).map Text.words)

end Plain
end CallChart.Dot
