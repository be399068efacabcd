import CallChart.Gather
import CallChart.Index.Basic
import CallChart.Index.Manifest

/-! An index held in memory, made from a manifest. Calls to functions that the manifest does not
list are left out. -/
namespace CallChart

/-- What is known about a listed function. -/
structure Listing where
  function : SourceFunction
  module : String
  isTest : Bool
  deriving Repr

/-- Functions by qualified name, and the names of their callees and callers. Relative files begin
at the root. -/
structure Catalog where
  root : Path
  byName : Std.TreeMap String Listing
  calleesOf : Std.TreeMap String (Std.TreeSet String)
  callersOf : Std.TreeMap String (Std.TreeSet String)

namespace Catalog

/-- The last entry of a qualified name counts. -/
def listings (m : Manifest) : Std.TreeMap String Listing :=
  m.functions.foldl
    (fun byName e => byName.insert e.qualifiedName ⟨e.function, e.module, e.isTest⟩) ∅

def listedCalls (m : Manifest) (byName : Std.TreeMap String Listing) : List (String × String) :=
  m.functions.flatMap fun e =>
    (e.calls.filter byName.contains).map fun callee => (e.qualifiedName, callee)

def addTo (sets : Std.TreeMap String (Std.TreeSet String)) (key name : String) :
    Std.TreeMap String (Std.TreeSet String) :=
  sets.insert key (((sets[key]?).getD ∅).insert name)

def ofManifest (m : Manifest) (root : Path) : Catalog :=
  let byName := listings m
  let calls := listedCalls m byName
  { root := root
    byName := byName
    calleesOf := calls.foldl (fun sets call => addTo sets call.1 call.2) ∅
    callersOf := calls.foldl (fun sets call => addTo sets call.2 call.1) ∅ }

def size (c : Catalog) : Nat := c.byName.size

def inOrder (c : Catalog) : List Listing := c.byName.toList.map Prod.snd

def functions (c : Catalog) : List SourceFunction := c.inOrder.map Listing.function

/-- The function of a qualified name, or else the only one of a short name. -/
def lookup (c : Catalog) (name : String) : Except IndexError SourceFunction :=
  match c.byName[name]? with
  | some listing => .ok listing.function
  | none =>
    match c.functions.filter fun f => f.name == name with
    | [f] => .ok f
    | _ => .error (.unknownFunction name)

def relative (c : Catalog) (p : Path) : Path := p.relativeTo c.root

def select (c : Catalog) (condition : Listing → Bool) : Std.TreeSet SourceFunction :=
  Std.TreeSet.ofList ((c.inOrder.filter condition).map Listing.function)

/-- The functions of a scope. A module has to have functions; a directory without functions has to
be there. -/
def inScope (c : Catalog) (isDirectory : Path → Bool) :
    Scope → Except IndexError (Std.TreeSet SourceFunction)
  | .project includeTests => .ok (c.select fun l => includeTests || !l.isTest)
  | .module name =>
    let found := c.select fun l => l.module == name
    if found.isEmpty then .error (.moduleNotFound name) else .ok found
  | .directory path =>
    let dir := c.relative path
    let found := c.select fun l => (c.relative l.function.file).startsWith dir
    if found.isEmpty && !isDirectory (c.root.join dir) then .error (.directoryNotFound dir)
    else .ok found

/-- The functions named in a table for a listed function. -/
def neighboursIn (c : Catalog) (table : Std.TreeMap String (Std.TreeSet String))
    (f : SourceFunction) : Except IndexError (Std.TreeSet SourceFunction) :=
  if c.byName.contains f.qualifiedName then
    let names := ((table[f.qualifiedName]?).getD ∅).toList
    .ok (Std.TreeSet.ofList ((names.filterMap fun name => c.byName[name]?).map Listing.function))
  else .error (.unknownFunction f.qualifiedName)

def neighbours (c : Catalog) : Coverage → SourceFunction →
    Except IndexError (Std.TreeSet SourceFunction)
  | .callers => c.neighboursIn c.callersOf
  | .callees => c.neighboursIn c.calleesOf

/-- A function is looked up by its qualified name alone. -/
theorem neighbours_congr (c : Catalog) (coverage : Coverage) {f g : SourceFunction}
    (h : compare f g = .eq) : c.neighbours coverage f = c.neighbours coverage g := by
  have hname := (SourceFunction.compare_eq_iff.mp h).1
  cases coverage <;> simp only [neighbours, neighboursIn, hname]

theorem mem_functions {c : Catalog} {name : String} {listing : Listing}
    (h : c.byName[name]? = some listing) : listing.function ∈ c.functions := by
  have hentry : (name, listing) ∈ c.byName.toList := Std.TreeMap.mem_toList_iff_getElem?_eq_some.mpr h
  exact List.mem_map_of_mem (List.mem_map_of_mem hentry)

theorem length_functions (c : Catalog) : c.functions.length = c.size := by
  simp [functions, inOrder, size]

/-- An answer names listed functions only. -/
theorem listed_of_mem_neighbours {c : Catalog} {coverage : Coverage} {f g : SourceFunction}
    {found : Std.TreeSet SourceFunction} (h : c.neighbours coverage f = .ok found)
    (hg : g ∈ found) : ∃ name ∈ c.functions, compare name g = .eq := by
  obtain ⟨table, htable⟩ : ∃ table, c.neighboursIn table f = .ok found := by
    cases coverage
    · exact ⟨c.callersOf, h⟩
    · exact ⟨c.calleesOf, h⟩
  unfold neighboursIn at htable
  split at htable
  · obtain rfl := Except.ok.inj htable
    obtain ⟨k, hk, heq⟩ := mem_ofList_iff.mp hg
    simp only [List.mem_map, List.mem_filterMap] at hk
    obtain ⟨listing, ⟨name, -, hname⟩, rfl⟩ := hk
    exact ⟨_, mem_functions hname, heq⟩
  · cases htable

/-- The catalog as an index, given which directories there are. -/
def index (c : Catalog) (isDirectory : Path → Bool) : CallIndex SourceFunction where
  functions := c.inScope isDirectory
  neighbours := c.neighbours
  population := c.size
  neighbours_congr h hf := ⟨_, c.neighbours_congr _ h ▸ hf, fun _ => Iff.rfl⟩
  listed := ⟨c.functions, Nat.le_of_eq c.length_functions, fun _ _ _ h _ hg => listed_of_mem_neighbours h hg⟩

end Catalog
end CallChart
