import CallChart.Graph.Component

/-! What is asked of a layout service about one component, and what it answers. -/
namespace CallChart

/-- The nodes and edges of one component by their labels, in the order in which they are sent. -/
structure LayoutRequest where
  nodes : List String
  edges : List (String × String)
  deriving DecidableEq, Repr

/-- The size of a drawing in the units of the service. -/
structure Extent (α : Type) where
  width : α
  height : α
  deriving Repr

/-- Positions by label, with y growing downward. -/
structure RawLayout (α : Type) where
  positions : Std.TreeMap String (Point α)
  extent : Extent α

/-- Why there is no layout. -/
inductive LayoutError where
  | unavailable (reason : String)
  | malformed (reason : String)
  | cancelled
  /-- The distance between two cells overflows, and the layout breaks down. -/
  | overflow
  deriving DecidableEq, Repr

def LayoutError.message : LayoutError → String
  | unavailable reason => "layout oracle unavailable: " ++ reason
  | malformed reason => "malformed layout output: " ++ reason
  | cancelled => "layout cancelled"
  | overflow => "attempt to subtract with overflow"

namespace LayoutRequest

variable {F α : Type} [Handle F] [Scalar α]

/-- A node with the short name of its function, by which nodes are sorted. -/
structure SortKey where
  name : String
  id : NodeId
  deriving DecidableEq, Repr

instance : Ord SortKey where
  compare := compareLex (compareOn SortKey.name) (compareOn SortKey.id)

instance : Std.TransOrd SortKey :=
  inferInstanceAs (Std.TransCmp (compareLex (compareOn SortKey.name) (compareOn SortKey.id)))

def sortKey (g : Graph F α) (id : NodeId) : SortKey :=
  ⟨((g.node? id).map fun n => Handle.displayName n.function).getD "", id⟩

/-- Nodes in ascending order of name and id. -/
def sorted (g : Graph F α) (ids : List NodeId) : List NodeId :=
  ((ids.map (sortKey g)).mergeSort fun a b => (compare a b).isLE).map SortKey.id

/-- The nodes of a component in the order in which they are sent. -/
def order (g : Graph F α) (c : Component) : List NodeId := sorted g c.nodes

/-- The edges that leave a node, sorted by the node they lead to. -/
def links (g : Graph F α) (id : NodeId) : List (NodeId × NodeId) :=
  (sorted g ((g.outgoing id).map Edge.target)).map fun target => (id, target)

/-- The request for a component: its nodes in order, and the links of each node in that order. -/
def ofComponent (g : Graph F α) (c : Component) : LayoutRequest :=
  let ids := order g c
  { nodes := ids.map NodeId.label
    edges := (ids.flatMap (links g)).map fun link => (link.1.label, link.2.label) }

end LayoutRequest
end CallChart
