import CallChart.Graph.Basic
import Std.Data.TreeSet

/-! Connected components, found breadth first from the nodes in their order. -/
namespace CallChart

namespace Component

def contains (c : Component) (id : NodeId) : Bool := c.nodes.contains id

end Component

namespace Graph

variable {F α : Type} [Handle F] [Scalar α]

/-- The nodes next to a node: those it calls, then those that call it, the latest call first. -/
def neighbours (g : Graph F α) (id : NodeId) : List NodeId :=
  (g.outgoing id).map Edge.target ++ (g.incoming id).map Edge.source

/-- The nodes of a list that have not been seen, each once, and the nodes seen with them. -/
def unseen (seen : Std.TreeSet NodeId) : List NodeId → List NodeId × Std.TreeSet NodeId
  | [] => ([], seen)
  | id :: rest =>
    if seen.contains id then unseen seen rest
    else
      let (found, seen) := unseen (seen.insert id) rest
      (id :: found, seen)

/-- The nodes reached from a queue in the order in which they leave it. A node enters the queue at
most once, so as many steps as there are nodes empty it. -/
def walk (g : Graph F α) : Nat → List NodeId → Std.TreeSet NodeId →
    List NodeId × Std.TreeSet NodeId
  | 0, _, seen => ([], seen)
  | _ + 1, [], seen => ([], seen)
  | steps + 1, id :: queue, seen =>
    let (found, seen) := unseen seen (g.neighbours id)
    let (rest, seen) := g.walk steps (queue ++ found) seen
    (id :: rest, seen)

/-- The sets of connected nodes that begin at the given nodes and have not been seen. -/
def connectedFrom (g : Graph F α) (seen : Std.TreeSet NodeId) : List NodeId → List (List NodeId)
  | [] => []
  | id :: rest =>
    if seen.contains id then g.connectedFrom seen rest
    else
      let (nodes, seen) := g.walk g.nodes.size [id] (seen.insert id)
      nodes :: g.connectedFrom seen rest

/-- The connected sets of nodes, each with the edges that leave its nodes. -/
def findComponents (g : Graph F α) : List Component :=
  (g.connectedFrom ∅ (g.nodes.toList.map Node.id)).map fun nodes =>
    let members := Std.TreeSet.ofList nodes
    ⟨nodes, (g.edges.toList.filter fun e => members.contains e.source).map Edge.id⟩

def components (g : Graph F α) : List Component := g.knownComponents.getD g.findComponents

/-- The graph with its components kept until the next change. -/
def remember (g : Graph F α) : Graph F α := { g with knownComponents := some g.components }

/-- The nodes of a component and those of its edges that have both ends among them. -/
def restrict (g : Graph F α) (c : Component) : Graph F α :=
  let withNodes := (c.nodes.filterMap g.node?).foldl pushNode (empty : Graph F α)
  (c.edges.filter fun id =>
      withNodes.nodeIndex.contains id.source && withNodes.nodeIndex.contains id.target).foldl
    (fun sub id => sub.pushEdge (Edge.between id.source id.target)) withNodes

end Graph
end CallChart
