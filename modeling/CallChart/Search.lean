import CallChart.Cache
import CallChart.Gather
import CallChart.Index.Basic

/-! One round of a search. Answers come from the cache where it can be trusted and from the index
otherwise, and the cache learns the answers of a round only when all of them have come: a failed
or cancelled round leaves nothing half known. -/
namespace CallChart

/-- Why a search has no result. -/
inductive ResolveError where
  | cancelled
  | index (error : IndexError)
  /-- More functions were found than the index said there are. This stands for the fuel of a search, and cannot
  occur for an index that names no more functions than it says (`Surroundings.AtOnce.answerBy_ne_unbounded`). -/
  | unbounded
  deriving Repr

def ResolveError.message : ResolveError → String
  | cancelled => "resolution cancelled"
  | index error => error.message
  | unbounded => "resolution found too many functions"

/-- What a search meets in a world `W`. The world may change each time it is looked at. -/
structure Surroundings (W F : Type) [Handle F] where
  /-- Whether the search is to stop. -/
  cancelled : StateM W Bool
  /-- The versions of all files. -/
  versions : StateM W Versions
  /-- The index's answer about the neighbours of a function. -/
  ask : Coverage → F → StateM W (Except IndexError (Std.TreeSet F))
  /-- Hears how many functions have been asked about. -/
  progress : Nat → StateM W Unit
  /-- The order in which the functions of a round are asked about. -/
  schedule : List F → List F
  /-- No more than so many functions are named in the index's answers. -/
  population : Nat

/-- The world, the cache and the number of functions asked about. -/
structure Search (W F : Type) [Handle F] where
  world : W
  cache : Cache F
  processed : Nat

/-- A step of a search. What it did to the world and the cache stays when it fails. -/
abbrev Searching (W F : Type) [Handle F] (α : Type) :=
  ExceptT ResolveError (StateM (Search W F)) α

abbrev Answers (F : Type) := List (F × List F)

namespace Search

variable {W F : Type} [Handle F]

def look {α : Type} (view : StateM W α) : StateM (Search W F) α := fun search =>
  let (a, world) := view.run search.world
  (a, { search with world := world })

/-- Looks at the world in a search that can fail. -/
def observe {α : Type} (view : StateM W α) : Searching W F α := ExceptT.lift (look view)

def withCache {α : Type} (today : StateM W Versions) (work : Versions → Cache F → α × Cache F) :
    StateM (Search W F) α := do
  let versions ← look today
  modifyGet fun search =>
    let (a, cache) := work versions search.cache
    (a, { search with cache := cache })

end Search

namespace Surroundings

variable {W F : Type} [Handle F] (s : Surroundings W F)

def checkCancelled : Searching W F Unit := do
  if ← Search.observe s.cancelled then throw .cancelled

def tick : StateM (Search W F) Unit := do
  let processed := (← get).processed + 1
  modify fun search => { search with processed := processed }
  Search.look (s.progress processed)

def tickIf (counted : Bool) : StateM (Search W F) Unit := if counted then s.tick else pure ()

/-- The answers that the cache has, and the functions without one. -/
def consult (coverage : Coverage) (counted : Bool) :
    List F → StateM (Search W F) (Answers F × List F)
  | [] => return ([], [])
  | f :: rest => do
    let answer ← Search.withCache s.versions fun versions cache =>
      cache.cachedNeighbours coverage f versions
    match answer with
    | some known =>
      s.tickIf counted
      let (answers, pending) ← consult coverage counted rest
      return ((f, known) :: answers, pending)
    | none =>
      let (answers, pending) ← consult coverage counted rest
      return (answers, f :: pending)

def query (coverage : Coverage) (counted : Bool) (f : F) : Searching W F (F × List F) := do
  s.checkCancelled
  match ← Search.observe (s.ask coverage f) with
  | .ok neighbours =>
    s.tickIf counted
    return (f, neighbours.toList)
  | .error error => throw (.index error)

def queryAll (coverage : Coverage) (counted : Bool) : List F → Searching W F (Answers F)
  | [] => return []
  | f :: rest => do
    let answer ← s.query coverage counted f
    return answer :: (← queryAll coverage counted rest)

def commit (coverage : Coverage) : Answers F → StateM (Search W F) Unit
  | [] => return ()
  | answer :: rest => do
    Search.withCache s.versions fun versions cache =>
      ((), cache.replaceNeighbours coverage answer.1 answer.2 versions)
    commit coverage rest

def answerRound (coverage : Coverage) (counted : Bool) (round : List F) :
    Searching W F (Answers F) := do
  s.checkCancelled
  let (known, pending) ← s.consult coverage counted round
  let learned ← s.queryAll coverage counted (s.schedule pending)
  s.commit coverage learned
  return known ++ learned

end Surroundings

end CallChart
