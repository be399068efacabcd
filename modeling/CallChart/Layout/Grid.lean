import CallChart.Point
import CallChart.Function
import Std.Data.TreeSet

/-! Scaling a component so that its rows and columns are one grid step apart. -/
namespace CallChart

/-- The positions of the nodes of one component, in order. -/
abbrev Blueprint (α : Type) := List (NodeId × Point α)

namespace Blueprint

variable {α : Type} [Scalar α]

def cells (precision : α) (values : List α) : Std.TreeSet Int :=
  Std.TreeSet.ofList (values.map fun v => Scalar.cell (v * precision))

/-- The average distance between distinct values; zero if there are fewer than two. There is none
where the distance between the outermost cells overflows. -/
def spacing (precision : α) (values : List α) : Option α :=
  let distinct := cells precision values
  match distinct.min?, distinct.max? with
  | some low, some high =>
    if 2 ≤ distinct.size then
      (Scalar.span low high).map fun span => span / Scalar.ofNat (distinct.size - 1) / precision
    else some Scalar.zero
  | _, _ => some Scalar.zero

/-- The factor that turns a spacing into the grid size. -/
def factor (gridSize spacing : α) : α :=
  if Scalar.isZero spacing then Scalar.one else gridSize / spacing

/-- Scales both axes, each by the factor that turns its spacing into the grid size. -/
def scale (gridSize spacingX spacingY : α) (b : Blueprint α) : Blueprint α :=
  b.map fun entry =>
    (entry.1, ⟨entry.2.x * factor gridSize spacingX, entry.2.y * factor gridSize spacingY⟩)

/-- Scales each axis so that the spacing of its values becomes the grid size. A single point is
left where it is. Without a spacing there is no result. -/
def normalize (gridSize precision : α) (b : Blueprint α) : Option (Blueprint α) :=
  if b.length < 2 then some b
  else do
    let spacingX ← spacing precision (b.map fun entry => entry.2.x)
    let spacingY ← spacing precision (b.map fun entry => entry.2.y)
    return b.scale gridSize spacingX spacingY

end Blueprint
end CallChart
