import CallChart.Config.Basic
import CallChart.Toml.Parse

/-! Reading the configuration. Whatever it leaves out has its standard value, and what it says about
other things is passed over. -/
namespace CallChart

namespace Toml

/-- A number. Integers count as floats. -/
def float? : Toml → Option Float
  | float x => some x
  | integer n => some (Number.Binary64.ofInt n)
  | _ => none

def text? : Toml → Option String
  | text s => some s
  | _ => none

def bool? : Toml → Option Bool
  | bool b => some b
  | _ => none

/-- The values of a section by name. A section may also be written as an array of its values in
their order, and a date is a section that says nothing. -/
def section? (names : List String) : Toml → Option Entries
  | table _ entries => some entries
  | array items => some (names.zip items)
  | tables closed last => some (names.zip ((closed ++ [last]).map (table .header)))
  | moment => some []
  | _ => none

/-- The value at a key, or the standard value if there is none. -/
def Entries.get? {α : Type} (entries : Entries) (key : String) (read : Toml → Option α)
    (standard : α) : Option α :=
  match entries.lookup key with
  | some value => read value
  | none => some standard

def Entries.section? {α : Type} (entries : Entries) (key : String) (names : List String)
    (read : Entries → Option α) (standard : α) : Option α :=
  entries.get? key (fun value => (value.section? names).bind read) standard

end Toml

namespace Config

def layoutOf (entries : Toml.Entries) : Option (LayoutSettings Float) := do
  let standard := Config.standard.layout
  return ⟨← entries.get? "grid_size" Toml.float? standard.gridSize,
    ← entries.get? "inset" Toml.float? standard.inset,
    ← entries.get? "precision" Toml.float? standard.precision⟩

def dotOf (entries : Toml.Entries) : Option Dot.Settings := do
  let standard := Config.standard.dot
  return ⟨← entries.get? "dot_path" (fun value => value.text?.map Path.mk) standard.path,
    ← entries.get? "rank_dir" Toml.text? standard.rankDir⟩

def parallelOf (entries : Toml.Entries) : Option Bool :=
  entries.get? "parallel" Toml.bool? Config.standard.parallel

def ofDocument (entries : Toml.Entries) : Option Config := do
  let standard := Config.standard
  return ⟨← entries.section? "layout" ["grid_size", "inset", "precision"] layoutOf standard.layout,
    ← entries.section? "graphviz" ["dot_path", "rank_dir"] dotOf standard.dot,
    ← entries.section? "resolver" ["parallel"] parallelOf standard.parallel⟩

/-- Reads a configuration. Its settings have to be usable. -/
def ofText (s : String) : Except ConfigError Config :=
  match ((Toml.parse s).bind (Toml.section? [])).bind ofDocument with
  | some c => c.check
  | none => .error .malformed

def load (fs : Files) (path : Path) : Except ConfigError Config :=
  match fs.read path with
  | .ok s => ofText s
  | .error fault => .error (.unreadable path fault)

def fileName : Path := ⟨"callscope.toml"⟩

def discover (fs : Files) (root : Path) : Except ConfigError Config :=
  if fs.isFile (root.join fileName) then load fs (root.join fileName) else .ok standard

end Config
end CallChart
