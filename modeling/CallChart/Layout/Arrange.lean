import CallChart.Layout.Fit
import CallChart.Layout.Request
import CallChart.Layout.Settings
import CallChart.Layout.Stack

/-! Laying out a graph: each component is drawn by a layout service, scaled to the grid, stacked
below the others, and the whole is fitted into the unit square. The graph changes only if every
component could be drawn. -/
namespace CallChart

/-- A layout service in a world `W`, and the wish to stop. Both may change the world. -/
structure LayoutService (W α : Type) where
  cancelled : StateM W Bool
  draw : LayoutRequest → StateM W (Except LayoutError (RawLayout α))

namespace LayoutService

variable {W F α : Type} [Handle F] [Scalar α]

/-- The positions of the answer for the nodes of a request. Each node needs a finite one. -/
def positions (raw : RawLayout α) :
    List NodeId → Except LayoutError (Blueprint α)
  | [] => .ok []
  | id :: rest =>
    match raw.positions[id.label]? with
    | none => .error (.malformed ("no position for node " ++ id.label))
    | some p =>
      if p.isFinite then (positions raw rest).map ((id, p) :: ·)
      else .error (.malformed ("non-finite position for node " ++ id.label))

def checkCancelled (service : LayoutService W α) : ExceptT LayoutError (StateM W) Unit := do
  if ← service.cancelled then throw .cancelled

/-- A drawing scaled to the grid. The layout breaks down if its spacing overflows. -/
def onGrid (settings : LayoutSettings α) (b : Blueprint α) : Except LayoutError (Blueprint α) :=
  match b.normalize settings.gridSize settings.precision with
  | some scaled => .ok scaled
  | none => .error .overflow

/-- Draws one component. A single node needs no service. -/
def drawComponent (service : LayoutService W α) (settings : LayoutSettings α) (g : Graph F α)
    (c : Component) : ExceptT LayoutError (StateM W) (Blueprint α) := do
  service.checkCancelled
  if c.nodes.length = 1 then return c.nodes.map fun id => (id, ⟨Scalar.half, Scalar.half⟩)
  else
    let raw ← ExceptT.mk (service.draw (LayoutRequest.ofComponent g c))
    let blueprint ← ExceptT.mk (pure (positions raw (LayoutRequest.order g c)))
    ExceptT.mk (pure (onGrid settings blueprint))

/-- Draws the components one after the other until one fails. -/
def drawAll (service : LayoutService W α) (settings : LayoutSettings α) (g : Graph F α) :
    List Component → ExceptT LayoutError (StateM W) (List (Blueprint α))
  | [] => return []
  | c :: rest => do
    let blueprint ← service.drawComponent settings g c
    return blueprint :: (← service.drawAll settings g rest)

def compute (service : LayoutService W α) (settings : LayoutSettings α) (g : Graph F α) :
    ExceptT LayoutError (StateM W) (Placement α) := do
  let blueprints ← service.drawAll settings g g.components
  let stacked := Blueprint.stack settings.gridSize blueprints
  return Placement.ofList (stacked.fit settings.inset)

/-- The graph with a new layout. An empty graph is left alone. -/
def arrange (service : LayoutService W α) (settings : LayoutSettings α) (g : Graph F α) :
    ExceptT LayoutError (StateM W) (Graph F α) := do
  if g.isEmpty then return g else return g.applyLayout (← service.compute settings g)

end LayoutService
end CallChart
