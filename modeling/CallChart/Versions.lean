import CallChart.Path.Relative
import Std.Data.TreeMap

/-! How often files were edited. What is known about a function is trusted only as long as the
versions it was learned at are the versions of today. -/
namespace CallChart

/-- The versions of all files at one moment. -/
structure Versions where
  /-- The number of edits of a file. -/
  ofFile : Path → Nat
  /-- The number of edits of all files. -/
  generation : Nat
  ofFile_congr {p q : Path} : compare p q = .eq → ofFile p = ofFile q

/-- Edit counters for the files of a project. Files below the root are known by their path
relative to it. -/
structure FileVersions where
  root : Option Path
  counts : Std.TreeMap Path Nat
  generation : Nat

namespace FileVersions

def start (root : Option Path) : FileVersions := ⟨root, ∅, 0⟩

def key (v : FileVersions) (file : Path) : Path :=
  match v.root with
  | some root => file.relativeTo root
  | none => file

/-- A file that was never edited has version zero. -/
def version (v : FileVersions) (file : Path) : Nat := (v.counts[v.key file]?).getD 0

theorem key_congr (v : FileVersions) {p q : Path} (h : compare p q = .eq) :
    compare (v.key p) (v.key q) = .eq := by
  unfold key
  split
  · exact Path.relativeTo_congr h _
  · exact h

/-- Every spelling of a path has the version of its file. -/
theorem version_congr (v : FileVersions) {p q : Path} (h : compare p q = .eq) :
    v.version p = v.version q := by
  rw [version, version, Std.TreeMap.getElem?_congr (v.key_congr h)]

def bump (v : FileVersions) (file : Path) : FileVersions :=
  { v with
    counts := v.counts.insert (v.key file) (v.version file + 1)
    generation := v.generation + 1 }

def tracked (v : FileVersions) : Nat := v.counts.size

def now (v : FileVersions) : Versions := ⟨v.version, v.generation, v.version_congr⟩

end FileVersions
end CallChart
