import CallChart.Call
import CallChart.Files
import Std.Data.TreeSet

/-! What an index of a code base answers: the functions of a scope, and the callers and callees of
a function. -/
namespace CallChart

/-- A part of a code base. -/
inductive Scope where
  /-- All of it, with or without test code. -/
  | project (includeTests : Bool)
  | module (name : String)
  /-- A directory and everything below it. -/
  | directory (path : Path)
  deriving Repr

namespace Scope

def whole : Scope := project true

def label : Scope → String
  | project true => "project (with tests)"
  | project false => "project (without tests)"
  | module name => "module " ++ name
  | directory path => "directory " ++ path.text

end Scope

/-- Why an index has no answer. -/
inductive IndexError where
  | moduleNotFound (name : String)
  | directoryNotFound (path : Path)
  | unknownFunction (name : String)
  | unavailable (reason : String)
  | unreadable (fault : ReadFault)
  | malformed
  /-- The index broke down while it was asked, and who asked is lost with it. -/
  | crashed
  deriving Repr

namespace IndexError

def message : IndexError → String
  | moduleNotFound name => "module not found: " ++ name
  | directoryNotFound path => "directory not found: " ++ path.text
  | unknownFunction name => "function is not in the index: " ++ name
  | unavailable reason => "index unavailable: " ++ reason
  | unreadable fault => "failed to read index manifest: " ++ fault.message
  | malformed => "malformed index manifest"
  | crashed => "index crashed"

/-- The scope asked for is gone; it may be taken as empty. -/
def isScopeError : IndexError → Bool
  | moduleNotFound _ => true
  | directoryNotFound _ => true
  | _ => false

end IndexError

/-- An index. Callers are searched in the whole project, whatever scope is drawn. Handles of one
function have the same neighbours, and all functions named in answers can be listed. -/
structure CallIndex (F : Type) [Handle F] where
  functions : Scope → Except IndexError (Std.TreeSet F)
  /-- The neighbours of a function in one direction. -/
  neighbours : Coverage → F → Except IndexError (Std.TreeSet F)
  /-- No more than so many functions are named in answers. -/
  population : Nat
  neighbours_congr {coverage : Coverage} {f g : F} {found : Std.TreeSet F} :
    compare f g = .eq → neighbours coverage f = .ok found →
      ∃ other, neighbours coverage g = .ok other ∧ ∀ h, h ∈ found ↔ h ∈ other
  listed : ∃ names : List F, names.length ≤ population ∧
    ∀ coverage f found, neighbours coverage f = .ok found →
      ∀ g ∈ found, ∃ name ∈ names, compare name g = .eq

end CallChart
