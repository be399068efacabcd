import CallChart.Function
import CallChart.Point
import Std.Data.TreeMap

/-! Call graphs: one node for each function and at most one edge for each ordered pair of nodes.
Functions with one node id share a node, which keeps the handle that was added first. -/
namespace CallChart

/-- A function with its place in the drawing. -/
structure Node (F α : Type) where
  id : NodeId
  function : F
  /-- The position shown, which fitting the view may move. -/
  point : Point α
  /-- The position that the last layout gave. -/
  layoutPoint : Point α

/-- A call from `source` to `target`. Several calls between two functions are one edge. -/
structure Edge where
  id : EdgeId
  source : NodeId
  target : NodeId
  deriving DecidableEq, Repr

namespace Edge

def between (source target : NodeId) : Edge := ⟨⟨source, target⟩, source, target⟩

def isLoop (e : Edge) : Bool := e.source == e.target

end Edge

/-- A largest set of nodes that edges connect, whichever way they point. -/
structure Component where
  /-- The nodes in the order in which they are discovered. -/
  nodes : List NodeId
  /-- The edges inside of the component. -/
  edges : List EdgeId
  deriving DecidableEq, Repr

/-- An edge was to be added between functions of which one has no node. -/
inductive GraphError where
  | unknownEndpoint (function : String)
  deriving DecidableEq, Repr

def GraphError.message : GraphError → String
  | .unknownEndpoint function => "edge endpoint was never added to the graph: " ++ function

/-- Nodes and edges in the order in which they were added, the positions at which they are found,
and the components if they were asked for since the last change. -/
structure Graph (F α : Type) where
  nodes : Array (Node F α)
  edges : Array Edge
  nodeIndex : Std.TreeMap NodeId Nat
  edgeIndex : Std.TreeMap EdgeId Nat
  knownComponents : Option (List Component)

namespace Graph

variable {F α : Type} [Handle F] [Scalar α]

def empty : Graph F α := ⟨#[], #[], ∅, ∅, none⟩

def isEmpty (g : Graph F α) : Bool := g.nodes.isEmpty

def node? (g : Graph F α) (id : NodeId) : Option (Node F α) :=
  (g.nodeIndex[id]?).bind fun i => g.nodes[i]?

def edge? (g : Graph F α) (id : EdgeId) : Option Edge :=
  (g.edgeIndex[id]?).bind fun i => g.edges[i]?

def contains (g : Graph F α) (f : F) : Bool := g.nodeIndex.contains (Handle.nodeId f)

def nodeOf? (g : Graph F α) (f : F) : Option (Node F α) := g.node? (Handle.nodeId f)

/-- A node that has not been laid out. -/
def freshNode (f : F) : Node F α := ⟨Handle.nodeId f, f, Point.origin, Point.origin⟩

/-- Adds a node that has no place among the others yet. -/
def pushNode (g : Graph F α) (n : Node F α) : Graph F α :=
  if g.nodeIndex.contains n.id then g
  else
    { g with
      nodes := g.nodes.push n
      nodeIndex := g.nodeIndex.insert n.id g.nodes.size
      knownComponents := none }

/-- The graph with a node for `f`; nothing changes if its node is there. -/
def addNode (g : Graph F α) (f : F) : Graph F α := g.pushNode (freshNode f)

/-- Adds an edge between two nodes; nothing changes if it is there. -/
def pushEdge (g : Graph F α) (e : Edge) : Graph F α :=
  if g.edgeIndex.contains e.id then g
  else
    { g with
      edges := g.edges.push e
      edgeIndex := g.edgeIndex.insert e.id g.edges.size
      knownComponents := none }

/-- The id of a function's node; a function without one is not an endpoint. -/
def endpoint (g : Graph F α) (f : F) : Except GraphError NodeId :=
  if g.contains f then .ok (Handle.nodeId f)
  else .error (.unknownEndpoint (Handle.describe f))

/-- The graph with a call from `source` to `target`, and the id of its edge. -/
def addEdge (g : Graph F α) (source target : F) : Except GraphError (Graph F α × EdgeId) := do
  let e := Edge.between (← g.endpoint source) (← g.endpoint target)
  return (g.pushEdge e, e.id)

/-- The edges that leave a node, the latest first. -/
def outgoing (g : Graph F α) (id : NodeId) : List Edge :=
  (g.edges.toList.filter fun e => e.source == id).reverse

/-- The edges that enter a node, the latest first. -/
def incoming (g : Graph F α) (id : NodeId) : List Edge :=
  (g.edges.toList.filter fun e => e.target == id).reverse

/-- The calls into a function from other functions. -/
def upstream (g : Graph F α) (id : NodeId) : List Edge :=
  (g.incoming id).filter fun e => !e.isLoop

/-- The calls out of a function to other functions. -/
def downstream (g : Graph F α) (id : NodeId) : List Edge :=
  (g.outgoing id).filter fun e => !e.isLoop

def loops (g : Graph F α) : List Edge := g.edges.toList.filter Edge.isLoop

def modifyNode (g : Graph F α) (id : NodeId) (change : Node F α → Node F α) : Graph F α :=
  match g.nodeIndex[id]? with
  | some i => { g with nodes := g.nodes.modify i change }
  | none => g

def describe (g : Graph F α) : String :=
  "Graph \x7b node_count: " ++ toString g.nodes.size ++ ", edge_count: " ++
    toString g.edges.size ++ " \x7d"

end Graph
end CallChart
