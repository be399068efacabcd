import CallChart.Fingerprint
import CallChart.Path
import CallChart.Text.Quoted

/-! Functions as the call graph sees them: handles that an index gives out, and their node ids. -/
namespace CallChart

/-- The 64-bit id of a node. -/
structure NodeId where
  value : UInt64
  deriving DecidableEq, Repr, Inhabited

namespace NodeId

instance : Ord NodeId where
  compare := compareOn value

instance : Std.TransOrd NodeId :=
  inferInstanceAs (Std.TransCmp (compareOn value))

instance : Std.LawfulEqOrd NodeId where
  eq_of_compare {a b} h := by
    have := Std.LawfulEqOrd.eq_of_compare (α := UInt64) h
    cases a; cases b; simp_all

/-- A letter and sixteen hexadecimal digits. -/
def label (id : NodeId) : String := "n" ++ Text.hex 16 id.value.toNat

end NodeId

/-- An ordered pair of nodes, by which an edge is known. -/
structure EdgeId where
  source : NodeId
  target : NodeId
  deriving DecidableEq, Repr, Inhabited

namespace EdgeId

instance : Ord EdgeId where
  compare := compareLex (compareOn source) (compareOn target)

instance : Std.TransOrd EdgeId :=
  inferInstanceAs (Std.TransCmp (compareLex (compareOn source) (compareOn target)))

instance : Std.LawfulEqOrd EdgeId where
  eq_of_compare {a b} h := by
    have h' : compare a.source b.source = .eq ∧ compare a.target b.target = .eq := by
      have hlex : compareLex (compareOn source) (compareOn target) a b = .eq := h
      simpa only [compareLex, compareOn, Ordering.then_eq_eq] using hlex
    have h1 := Std.LawfulEqOrd.eq_of_compare h'.1
    have h2 := Std.LawfulEqOrd.eq_of_compare h'.2
    cases a; cases b; simp_all

def label (id : EdgeId) : String := id.source.label ++ "-" ++ id.target.label

end EdgeId

/-- A handle to a function. The graph only compares handles, orders them and asks for what is
listed here; two handles that compare as equal name the same function, which stands in one file and
has one node. -/
class Handle (F : Type) extends Ord F where
  trans : Std.TransOrd F
  /-- The short name by which nodes are sorted before they are laid out. -/
  displayName : F → String
  /-- The file whose edits make what is known about the function stale. -/
  sourceFile : F → Path
  /-- The id of the function's node. -/
  nodeId : F → NodeId
  /-- The handle in words, for messages. -/
  describe : F → String
  sourceFile_congr {f g : F} : compare f g = .eq → Ord.compare (sourceFile f) (sourceFile g) = .eq
  nodeId_congr {f g : F} : compare f g = .eq → nodeId f = nodeId g

attribute [instance] Handle.trans

/-- A function of an indexed code base. -/
structure SourceFunction where
  qualifiedName : String
  name : String
  file : Path
  line : Option UInt32
  deriving Repr, Inhabited

namespace SourceFunction

instance : Ord SourceFunction where
  compare :=
    compareLex (compareOn qualifiedName)
      (compareLex (compareOn name) (compareLex (compareOn file) (compareOn line)))

instance : Std.TransOrd SourceFunction :=
  inferInstanceAs
    (Std.TransCmp
      (compareLex (compareOn qualifiedName)
        (compareLex (compareOn name) (compareLex (compareOn file) (compareOn line)))))

def label (f : SourceFunction) : String :=
  let place :=
    match f.line with
    | some line => f.file.text ++ ":" ++ toString line.toNat
    | none => f.file.text
  f.qualifiedName ++ " (" ++ place ++ ")"

def describe (f : SourceFunction) : String :=
  let line :=
    match f.line with
    | some line => "Some(" ++ toString line.toNat ++ ")"
    | none => "None"
  "FunctionRef \x7b qualified_name: " ++ Text.quoted f.qualifiedName ++ ", name: " ++
    Text.quoted f.name ++ ", file_path: " ++ Text.quoted f.file.text ++ ", line: " ++ line ++
    " \x7d"

/-- The names of the steps of a path that enter its fingerprint. The root is not one of them, so a
path and its absolute form have one fingerprint. -/
def stepNames (p : Path) : List String :=
  p.components.filterMap fun
    | .root => none
    | .here => some "."
    | .parent => some ".."
    | .named name => some name

/-- The lengths of the steps folded into one word, which tells apart steps that are cut
differently. -/
def stepLengths (names : List String) : UInt64 :=
  names.foldl
    (fun word name => Fingerprint.rotate (word + UInt64.ofNat name.utf8ByteSize) 62) 0

/-- What the fingerprint of a function is taken of. -/
def bytes (f : SourceFunction) : List UInt8 :=
  let steps := stepNames f.file
  let line :=
    match f.line with
    | some line => Fingerprint.bytesOf 8 1 ++ Fingerprint.bytesOf 4 line.toNat
    | none => Fingerprint.bytesOf 8 0
  Fingerprint.textBytes f.qualifiedName ++ Fingerprint.textBytes f.name ++
    steps.flatMap (fun step => step.toUTF8.toList) ++
    Fingerprint.bytesOf 8 (stepLengths steps).toNat ++ line

theorem compare_eq_iff {f g : SourceFunction} :
    compare f g = .eq ↔ f.qualifiedName = g.qualifiedName ∧ f.name = g.name ∧
      compare f.file g.file = .eq ∧ f.line = g.line := by
  change compareLex _ _ f g = .eq ↔ _
  simp only [compareLex, compareOn, Ordering.then_eq_eq, Std.compare_eq_iff_eq]

/-- Spellings of one path have one fingerprint. -/
theorem bytes_congr {f g : SourceFunction} (h : compare f g = .eq) : f.bytes = g.bytes := by
  obtain ⟨hqualified, hname, hfile, hline⟩ := compare_eq_iff.mp h
  have hsteps : stepNames f.file = stepNames g.file := by
    rw [stepNames, stepNames, Path.compare_eq_iff.mp hfile]
  rw [bytes, bytes, hqualified, hname, hsteps, hline]

instance : Handle SourceFunction where
  trans := inferInstance
  displayName := name
  sourceFile := file
  nodeId f := ⟨Fingerprint.ofBytes f.bytes⟩
  describe := describe
  sourceFile_congr h := (compare_eq_iff.mp h).2.2.1
  nodeId_congr h := congrArg (fun bytes => NodeId.mk (Fingerprint.ofBytes bytes)) (bytes_congr h)

end SourceFunction
end CallChart
