import CallChart.Camera
import CallChart.Graph.Basic
import CallChart.Json.Basic
import CallChart.Number.Shortest

/-! A laid out graph as it is printed. -/
namespace CallChart

structure DrawnNode where
  id : NodeId
  function : SourceFunction
  point : Point Float
  /-- Where a viewport shows the node. -/
  device : Option (Point Float)

/-- Nodes by qualified name, and edges by the labels of their ends. -/
structure Drawing where
  nodes : List DrawnNode
  edges : List EdgeId

namespace Drawing

def node (viewport : Option (Viewport Float)) (n : Node SourceFunction Float) : DrawnNode :=
  ⟨n.id, n.function, n.point, viewport.map (Camera.start.toDevice n.point)⟩

/-- The drawing of a graph, for a viewport if there is one. -/
def ofGraph (g : Graph SourceFunction Float) (viewport : Option (Viewport Float)) : Drawing :=
  { nodes :=
      (g.nodes.toList.map (node viewport)).mergeSort fun a b =>
        a.function.qualifiedName ≤ b.function.qualifiedName
    edges := (g.edges.toList.map Edge.id).mergeSort fun a b => (compare a b).isLE }

/-- JSON text with one value on each line. -/
inductive Outline where
  | leaf (text : String)
  | list (items : List Outline)
  | record (fields : List (String × Outline))

namespace Outline

/-- Lines between brackets, of which all but the last one end in a comma. -/
def enclose (opening closing indent : String) : List String → String
  | [] => opening ++ closing
  | lines =>
    opening ++ "\n" ++ String.intercalate ",\n" (lines.map fun line => indent ++ "  " ++ line) ++
      "\n" ++ indent ++ closing

mutual

def print (indent : String) : Outline → String
  | leaf text => text
  | list items => enclose "[" "]" indent (printItems (indent ++ "  ") items)
  | record fields => enclose "\x7b" "\x7d" indent (printFields (indent ++ "  ") fields)

def printItems (indent : String) : List Outline → List String
  | [] => []
  | item :: items => item.print indent :: printItems indent items

def printFields (indent : String) : List (String × Outline) → List String
  | [] => []
  | (name, value) :: fields =>
    ((Json.ofString name).compact ++ ": " ++ value.print indent) :: printFields indent fields

end

end Outline

def textLeaf (s : String) : Outline := .leaf (Json.ofString s).compact

/-- A coordinate; there is no JSON for one that is not finite. -/
def numberLeaf (x : Float) : Outline := .leaf ((Number.literal x).getD "null")

def pointRecord (p : Point Float) : Outline :=
  .record [("x", numberLeaf p.x), ("y", numberLeaf p.y)]

def nodeRecord (n : DrawnNode) : Outline :=
  let line :=
    match n.function.line with
    | some line => toString line.toNat
    | none => "null"
  .record
    ([("id", textLeaf n.id.label), ("name", textLeaf n.function.name),
        ("qualified_name", textLeaf n.function.qualifiedName),
        ("file", textLeaf n.function.file.text), ("line", .leaf line),
        ("x", numberLeaf n.point.x), ("y", numberLeaf n.point.y)] ++
      (n.device.map fun p => ("device", pointRecord p)).toList)

def edgeRecord (id : EdgeId) : Outline :=
  .record [("source", textLeaf id.source.label), ("target", textLeaf id.target.label)]

def print (d : Drawing) : String :=
  (Outline.record
    [("nodes", .list (d.nodes.map nodeRecord)), ("edges", .list (d.edges.map edgeRecord))]).print ""

end Drawing
end CallChart
