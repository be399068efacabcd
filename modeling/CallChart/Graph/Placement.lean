import CallChart.Graph.Basic

/-! Moving the nodes of a graph. -/
namespace CallChart

abbrev Placement (α : Type) := Std.TreeMap NodeId (Point α)

/-- The positions of a list; the last one listed for a node counts. -/
def Placement.ofList {α : Type} (points : List (NodeId × Point α)) : Placement α :=
  points.foldl (fun placed entry => placed.insert entry.1 entry.2) ∅

namespace Graph

variable {F α : Type} [Handle F] [Scalar α]

def place (g : Graph F α) (points : Placement α) (move : Node F α → Point α → Node F α) :
    Graph F α :=
  { g with
    nodes := g.nodes.map fun n =>
      match points[n.id]? with
      | some p => move n p
      | none => n }

/-- Stores a layout: the position shown and the layout's position of every node listed. -/
def applyLayout (g : Graph F α) (points : Placement α) : Graph F α :=
  g.place points fun n p => { n with point := p, layoutPoint := p }

/-- Moves what is shown and keeps the layout. -/
def applyPoints (g : Graph F α) (points : Placement α) : Graph F α :=
  g.place points fun n p => { n with point := p }

def restoreLayout (g : Graph F α) : Graph F α :=
  { g with nodes := g.nodes.map fun n => { n with point := n.layoutPoint } }

end Graph
end CallChart
