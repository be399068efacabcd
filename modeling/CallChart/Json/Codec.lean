import CallChart.Closure
import CallChart.Graph.Basic
import CallChart.Index.Manifest
import CallChart.Json.Fields
import CallChart.Json.Parse

/-! How functions, manifests, scopes, directions and the ids of nodes and edges are written in JSON
and read back. -/
namespace CallChart

/-- A type with a JSON form. -/
class JsonCodec (α : Type) where
  encode : α → Json
  decode : Json → Option α

namespace Json

variable {α : Type} [JsonCodec α]

def print (a : α) : String := (JsonCodec.encode a).compact

def read? (s : String) : Option α := (parse s).bind JsonCodec.decode

end Json

namespace JsonCodec

def encodeLine (line : Option UInt32) : Json :=
  match line with
  | some n => .ofNat n.toNat
  | none => .null

def line? (j : Json) : Option UInt32 := (j.natBelow? (Nat.pow 2 32)).map UInt32.ofNat

def path? (j : Json) : Option Path := j.text?.map Path.mk

instance : JsonCodec NodeId where
  encode id := .ofNat id.value.toNat
  decode j := (j.natBelow? (Nat.pow 2 64)).map fun n => ⟨UInt64.ofNat n⟩

instance : JsonCodec EdgeId where
  encode id := .ofMembers [("source", encode id.source), ("target", encode id.target)]
  decode j := do
    let fields ← j.fields? ["source", "target"]
    return ⟨← fields.required "source" decode, ← fields.required "target" decode⟩

instance : JsonCodec Edge where
  encode e :=
    .ofMembers [("id", encode e.id), ("source", encode e.source), ("target", encode e.target)]
  decode j := do
    let fields ← j.fields? ["id", "source", "target"]
    return ⟨← fields.required "id" decode, ← fields.required "source" decode,
      ← fields.required "target" decode⟩

instance : JsonCodec SourceFunction where
  encode f :=
    .ofMembers
      [("qualified_name", .ofString f.qualifiedName), ("name", .ofString f.name),
        ("file_path", .ofString f.file.text), ("line", encodeLine f.line)]
  decode j := do
    let fields ← j.fields? ["qualified_name", "name", "file_path", "line"]
    return ⟨← fields.required "qualified_name" Json.text?, ← fields.required "name" Json.text?,
      ← fields.required "file_path" path?, ← fields.nullable "line" line?⟩

instance : JsonCodec FunctionEntry where
  encode e :=
    .ofMembers
      [("name", .ofString e.name), ("qualified_name", .ofString e.qualifiedName),
        ("file", .ofString e.file.text), ("line", encodeLine e.line),
        ("module", .ofString e.module), ("test", .bool e.test),
        ("calls", .array (e.calls.map .ofString))]
  decode j := do
    let fields ←
      j.fields? ["name", "qualified_name", "file", "line", "module", "test", "calls"]
    return ⟨← fields.required "name" Json.text?, ← fields.required "qualified_name" Json.text?,
      ← fields.required "file" path?, ← fields.defaulted "line" (Json.orNull? line?) none,
      ← fields.defaulted "module" Json.text? "", ← fields.defaulted "test" Json.bool? false,
      ← fields.defaulted "calls" (Json.list? Json.text?) []⟩

instance : JsonCodec Manifest where
  encode m := .ofMembers [("functions", .array (m.functions.map encode))]
  decode j := do
    let fields ← j.fields? ["functions"]
    return ⟨← fields.required "functions" (Json.list? decode)⟩

instance : JsonCodec Scope where
  encode
    | .project includeTests =>
      .ofMembers [("project", .ofMembers [("include_tests", .bool includeTests)])]
    | .module name => .ofMembers [("module", .ofString name)]
    | .directory path => .ofMembers [("directory", .ofString path.text)]
  decode j := do
    match ← j.choice? with
    | ("project", j) =>
      let fields ← j.fields? ["include_tests"]
      return .project (← fields.required "include_tests" Json.bool?)
    | ("module", j) => return .module (← j.text?)
    | ("directory", j) => return .directory (← path? j)
    | _ => none

def directionName : Direction → String
  | .upstream => "upstream"
  | .downstream => "downstream"
  | .both => "both"

def direction? : String → Option Direction
  | "upstream" => some .upstream
  | "downstream" => some .downstream
  | "both" => some .both
  | _ => none

/-- A direction is a text, or the key of an object that holds null. -/
instance : JsonCodec Direction where
  encode d := .ofString (directionName d)
  decode
    | .text (some name) => direction? name
    | .object [(some name, .null)] => direction? name
    | _ => none

end JsonCodec
end CallChart
