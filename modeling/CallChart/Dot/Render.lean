import CallChart.Layout.Request

/-! Layout requests written in the DOT language. -/
namespace CallChart.Dot

/-- A quote or a backslash of a name is written after a backslash. -/
def escape (name : List Char) : List Char :=
  name.flatMap fun c => if c = '"' || c = '\\' then ['\\', c] else [c]

def quote (name : String) : String :=
  String.ofList ('"' :: escape name.toList ++ ['"'])

def nodeLine (name : String) : String := "  " ++ quote name ++ ";\n"

def linkLine (source target : String) : String :=
  "  " ++ quote source ++ " -> " ++ quote target ++ ";\n"

def block (edges : List (String × String)) (name : String) : String :=
  let links := (edges.filter fun e => e.1 == name).map fun e => linkLine name e.2
  nodeLine name ++ String.join links

/-- The request as a directed graph. Each node is followed by its links. -/
def render (request : LayoutRequest) (rankDir : String) : String :=
  "digraph callgraph \x7b\n  rankdir=" ++ rankDir ++ ";\n" ++
    String.join (request.nodes.map (block request.edges)) ++ "\x7d\n"

end CallChart.Dot
