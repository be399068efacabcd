import CallChart.Graph.Placement
import CallChart.Layout.Bounds

/-! Fitting points into the unit square with a border. -/
namespace CallChart

namespace Blueprint

variable {α : Type} [Scalar α]

/-- Maps `[low, high]` to `[inset, inset + span]`; an axis without extent is mapped to 1/2. -/
def fitValue (span inset value low high : α) : α :=
  if Scalar.lt low high then (value - low) / (high - low) * span + inset else Scalar.half

/-- The points mapped to `[inset, 1 - inset]` on each axis. -/
def fit (inset : α) (b : Blueprint α) : Blueprint α :=
  match Bounds.ofPoints? (b.map Prod.snd) with
  | none => []
  | some box =>
    let span := Scalar.one - Scalar.two * inset
    b.map fun entry =>
      (entry.1,
        ⟨fitValue span inset entry.2.x box.minX box.maxX,
          fitValue span inset entry.2.y box.minY box.maxY⟩)

end Blueprint

namespace Graph

variable {F α : Type} [Handle F] [Scalar α]

/-- Shows the layout fitted into the unit square, whatever was shown before. -/
def fitToView (g : Graph F α) (inset : α) : Graph F α :=
  let layout : Blueprint α := g.nodes.toList.map fun n => (n.id, n.layoutPoint)
  g.applyPoints (Placement.ofList (layout.fit inset))

end Graph
end CallChart
