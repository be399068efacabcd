import CallChart.Dot.Program
import CallChart.Files
import CallChart.Layout.Settings
import CallChart.Number.Shortest

/-! The settings of the program. -/
namespace CallChart

structure Config where
  layout : LayoutSettings Float
  dot : Dot.Settings
  /-- Whether the functions of a round are asked about at the same time. -/
  parallel : Bool
  deriving Repr

namespace Config

/-- What holds where a configuration says nothing. -/
def standard : Config := ⟨LayoutSettings.standard, Dot.Settings.standard, true⟩

end Config

/-- Why there is no configuration. -/
inductive ConfigError where
  | unreadable (path : Path) (fault : ReadFault)
  | malformed
  | invalid (fault : LayoutSettings.Fault Float)
  deriving Repr

namespace ConfigError

def rule : LayoutSettings.Fault Float → String
  | .gridSize value => "layout.grid_size must be positive, got " ++ Number.shortest value
  | .inset value => "layout.inset must be in [0, 0.5), got " ++ Number.shortest value
  | .precision value => "layout.precision must be at least 1, got " ++ Number.shortest value

def message : ConfigError → String
  | unreadable path fault => "failed to read " ++ path.text ++ ": " ++ fault.message
  | malformed => "invalid config syntax"
  | invalid fault => "invalid config value: " ++ rule fault

end ConfigError

def Config.check (c : Config) : Except ConfigError Config :=
  match c.layout.check with
  | .ok () => .ok c
  | .error fault => .error (.invalid fault)

end CallChart
