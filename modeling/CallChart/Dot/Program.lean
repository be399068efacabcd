import CallChart.Dot.Plain
import CallChart.Dot.Render
import CallChart.Layout.Request

/-! The drawing program: it reads a DOT graph and writes a drawing, or fails. -/
namespace CallChart.Dot

/-- How the program is called. -/
structure Settings where
  path : Path
  rankDir : String
  deriving Repr, Inhabited

namespace Settings

def standard : Settings := ⟨⟨"dot"⟩, "LR"⟩

end Settings

/-- What became of one run of the program. -/
inductive Outcome where
  /-- It could not be started. -/
  | notStarted (reason : String)
  /-- It ended with an exit code and wrote to its two outputs. -/
  | exited (code : Nat) (output : ByteArray) (errors : String)

/-- A drawing program: from the request it reads to what becomes of the run. -/
abbrev Program := String → Outcome

def Outcome.plain (settings : Settings) : Outcome → Except LayoutError String
  | .notStarted reason => .error (.unavailable (settings.path.text ++ ": " ++ reason))
  | .exited code output errors =>
    if code ≠ 0 then
      .error (.unavailable
        ("dot exited with exit status: " ++ toString code ++ ": " ++
          String.ofList (Text.trim errors.toList)))
    else
      match String.fromUTF8? output with
      | some text => .ok text
      | none => .error (.malformed "output is not valid UTF-8")

/-- Sends a request and reads the answer, which has to place every node that was sent. -/
def draw (settings : Settings) (program : Program) (request : LayoutRequest) :
    Except LayoutError (RawLayout Float) := do
  let text ← (program (render request settings.rankDir)).plain settings
  let raw ← (Plain.parse text).mapError fun fault => .malformed fault.message
  match request.nodes.find? fun name => !raw.positions.contains name with
  | some name => throw (.malformed ("no position for node " ++ name))
  | none => return raw

end CallChart.Dot
