import CallChart.Call
import CallChart.Versions
import Std.Data.TreeSet

/-! The calls discovered in one session. Each is kept with the versions of both files at its
discovery and is trusted while they are still the versions of today. Stale calls are dropped when
the cache is pruned and are not looked up again before they are needed. -/
namespace CallChart

/-- A discovered call and the versions of the files of both functions at its discovery. -/
structure Dependency (F : Type) where
  caller : F
  callee : F
  callerVersion : Nat
  calleeVersion : Nat
  deriving Repr

/-- What decides whether all neighbours of a function are still known. Its callees are in its own
file, but its callers may be anywhere. -/
def Coverage.token {F : Type} [Handle F] (coverage : Coverage) (f : F) (versions : Versions) :
    Nat :=
  match coverage with
  | .callees => versions.ofFile (Handle.sourceFile f)
  | .callers => versions.generation

namespace Dependency

variable {F : Type} [Handle F]

def capture (call : Call F) (versions : Versions) : Dependency F :=
  ⟨call.caller, call.callee, versions.ofFile (Handle.sourceFile call.caller),
    versions.ofFile (Handle.sourceFile call.callee)⟩

/-- Neither file was edited since the discovery. -/
def isFresh (d : Dependency F) (versions : Versions) : Bool :=
  versions.ofFile (Handle.sourceFile d.caller) == d.callerVersion &&
    versions.ofFile (Handle.sourceFile d.callee) == d.calleeVersion

end Dependency

/-- Counts of what happened to a cache. -/
structure CacheStats where
  entries : Nat
  hits : Nat
  misses : Nat
  pruned : Nat
  deriving DecidableEq, Repr

/-- The discovered calls, the same calls by caller and by callee, and for each direction the tokens
at which all neighbours of a function became known. -/
structure Cache (F : Type) [Handle F] where
  dependencies : Std.TreeMap (Call F) (Dependency F)
  calleesOf : Std.TreeMap F (Std.TreeSet F)
  callersOf : Std.TreeMap F (Std.TreeSet F)
  calleesToken : Std.TreeMap F Nat
  callersToken : Std.TreeMap F Nat
  hits : Nat
  misses : Nat
  pruned : Nat

namespace Cache

variable {F : Type} [Handle F]

def empty : Cache F := ⟨∅, ∅, ∅, ∅, ∅, 0, 0, 0⟩

def neighbours (c : Cache F) (coverage : Coverage) (f : F) : Std.TreeSet F :=
  match coverage with
  | .callees => (c.calleesOf[f]?).getD ∅
  | .callers => (c.callersOf[f]?).getD ∅

/-- The token at which all neighbours of a function became known. -/
def token? (c : Cache F) (coverage : Coverage) (f : F) : Option Nat :=
  match coverage with
  | .callees => c.calleesToken[f]?
  | .callers => c.callersToken[f]?

def lookup (c : Cache F) (call : Call F) (versions : Versions) : Option (Dependency F) :=
  (c.dependencies[call]?).filter fun d => d.isFresh versions

def record (c : Cache F) (call : Call F) (versions : Versions) : Cache F :=
  { c with
    dependencies := c.dependencies.insert call (Dependency.capture call versions)
    calleesOf :=
      c.calleesOf.insert call.caller ((c.neighbours .callees call.caller).insert call.callee)
    callersOf :=
      c.callersOf.insert call.callee ((c.neighbours .callers call.callee).insert call.caller) }

/-- Notes that all neighbours of a function are recorded now. -/
def markCovered (c : Cache F) (coverage : Coverage) (f : F) (versions : Versions) : Cache F :=
  match coverage with
  | .callees => { c with calleesToken := c.calleesToken.insert f (coverage.token f versions) }
  | .callers => { c with callersToken := c.callersToken.insert f (coverage.token f versions) }

/-- All neighbours of a function in ascending order, if they are known and every call to or from
them can be trusted. -/
def freshNeighbours? (c : Cache F) (coverage : Coverage) (f : F) (versions : Versions) :
    Option (List F) :=
  if c.token? coverage f = some (coverage.token f versions) then
    let known := (c.neighbours coverage f).toList
    if known.all fun g => (c.lookup (coverage.call f g) versions).isSome then some known else none
  else none

/-- The same answer, counted as a hit or a miss. -/
def cachedNeighbours (c : Cache F) (coverage : Coverage) (f : F) (versions : Versions) :
    Option (List F) × Cache F :=
  match c.freshNeighbours? coverage f versions with
  | some known => (some known, { c with hits := c.hits + 1 })
  | none => (none, { c with misses := c.misses + 1 })

def dropNeighbour (sets : Std.TreeMap F (Std.TreeSet F)) (f neighbour : F) :
    Std.TreeMap F (Std.TreeSet F) :=
  match sets[f]? with
  | some known => sets.insert f (known.erase neighbour)
  | none => sets

/-- Removes a call. The neighbours of its two ends that relied on it are no longer all known. -/
def remove (c : Cache F) (call : Call F) : Cache F :=
  { c with
    dependencies := c.dependencies.erase call
    calleesOf := dropNeighbour c.calleesOf call.caller call.callee
    callersOf := dropNeighbour c.callersOf call.callee call.caller
    calleesToken := c.calleesToken.erase call.caller
    callersToken := c.callersToken.erase call.callee }

def lists (fs : List F) (f : F) : Bool := fs.any fun g => (compare g f).isEq

/-- The recorded calls between a function and those neighbours that an answer does not list. -/
def gone (c : Cache F) (coverage : Coverage) (f : F) (answer : List F) : List (Call F) :=
  ((c.neighbours coverage f).toList.filter fun g => !lists answer g).map (coverage.call f)

/-- Replaces all neighbours of a function by those just asked for. -/
def replaceNeighbours (c : Cache F) (coverage : Coverage) (f : F) (answer : List F)
    (versions : Versions) : Cache F :=
  let kept := (c.gone coverage f answer).foldl remove c
  let added := (answer.map (coverage.call f)).foldl (fun c call => c.record call versions) kept
  added.markCovered coverage f versions

/-- Whether a call left the scope or one of its files was edited. -/
def isStale (scope : Std.TreeSet F) (versions : Versions) (call : Call F) (d : Dependency F) :
    Bool :=
  !scope.contains call.caller || !scope.contains call.callee || !d.isFresh versions

def staleCalls (c : Cache F) (scope : Std.TreeSet F) (versions : Versions) : List (Call F) :=
  (c.dependencies.toList.filter fun entry => isStale scope versions entry.1 entry.2).map Prod.fst

/-- Drops stale calls and the marks of functions that left the scope or were edited. Answers how
many calls were dropped. -/
def prune (c : Cache F) (scope : Std.TreeSet F) (versions : Versions) : Nat × Cache F :=
  let stale := c.staleCalls scope versions
  let c := stale.foldl remove c
  let current := fun (coverage : Coverage) (f : F) (token : Nat) =>
    scope.contains f && token == coverage.token f versions
  (stale.length,
    { c with
      calleesToken := c.calleesToken.filter (current .callees)
      callersToken := c.callersToken.filter (current .callers)
      calleesOf := c.calleesOf.filter fun _ known => !known.isEmpty
      callersOf := c.callersOf.filter fun _ known => !known.isEmpty
      pruned := c.pruned + stale.length })

def size (c : Cache F) : Nat := c.dependencies.size

/-- Forgets all calls. What was counted stays. -/
def clear (c : Cache F) : Cache F :=
  { c with
    dependencies := ∅
    calleesOf := ∅
    callersOf := ∅
    calleesToken := ∅
    callersToken := ∅ }

def stats (c : Cache F) : CacheStats := ⟨c.size, c.hits, c.misses, c.pruned⟩

end Cache
end CallChart
