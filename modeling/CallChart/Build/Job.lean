import CallChart.Build.Request
import CallChart.Layout.Arrange

/-! One build: the functions asked for, the calls between them, the graph of both, and its
layout. -/
namespace CallChart

variable {W F α : Type} [Handle F] [Scalar α]

/-- The graph with a node for each function and an edge for each call. -/
def assemble (found : Resolution F) : Except GraphError (Graph F α) :=
  found.calls.toList.foldlM
    (fun g call => (g.addEdge call.caller call.callee).map Prod.fst)
    (found.functions.toList.foldl Graph.addNode .empty)

/-- What a build works with in a world `W`. -/
structure Site (W F α : Type) [Handle F] where
  /-- Whether the build is to stop. -/
  cancelled : StateM W Bool
  /-- The versions of all files. -/
  versions : StateM W Versions
  /-- The index's answer about a scope. -/
  functions : Scope → StateM W (Except IndexError (Std.TreeSet F))
  /-- The index's answer about the neighbours of a function. -/
  ask : Coverage → F → StateM W (Except IndexError (Std.TreeSet F))
  /-- No more than so many functions are named in the index's answers. -/
  population : Nat
  /-- The order in which the functions of a round are asked about. -/
  schedule : List F → List F
  /-- The layout service's answer. -/
  draw : LayoutRequest → StateM W (Except LayoutError (RawLayout α))
  /-- Tells the listeners. -/
  emit : BuildEvent → StateM W Unit

/-- A step of a build. What it did to the world and the cache stays when it fails. -/
abbrev Building (W F : Type) [Handle F] (β : Type) := ExceptT BuildError (StateM (Search W F)) β

namespace Site

variable (site : Site W F α)

def observe {β : Type} (view : StateM W β) : Building W F β := ExceptT.lift (Search.look view)

/-- A step whose failure is a failure of the build. -/
def guarded {ε β : Type} (cause : ε → BuildError) (step : StateM (Search W F) (Except ε β)) :
    Building W F β :=
  ExceptT.mk ((fun result => result.mapError cause) <$> step)

def checkCancelled : Building W F Unit := do
  if ← observe site.cancelled then throw .cancelled

/-- The functions of a scope. A scope that is gone is taken as empty, with a warning. -/
def scopeFunctions (build : Nat) (scope : Scope) : Building W F (Std.TreeSet F) := do
  match ← observe (site.functions scope) with
  | .ok functions => return functions
  | .error error =>
    if error.isScopeError then
      observe (site.emit (.warning build error))
      return ∅
    else throw (BuildError.ofResolve (.index error))

def surroundings (build : Nat) (total : Option Nat) : Surroundings W F :=
  { cancelled := site.cancelled
    versions := site.versions
    ask := site.ask
    progress := fun processed => site.emit (.progress build processed total)
    schedule := site.schedule
    population := site.population }

/-- What a request asks of a search, and how many functions will be asked about. Only a scope fixes
that beforehand. -/
def question (build : Nat) : BuildRequest F → Building W F (Question F × Option Nat)
  | .scope scope limited => do
    let functions ← site.scopeFunctions build scope
    return (.ofScope limited functions, some functions.size)
  | .focus seeds direction => return (.closure seeds direction, none)

def find (build : Nat) (request : BuildRequest F) : Building W F (Resolution F) := do
  let (question, total) ← site.question build request
  guarded BuildError.ofResolve ((site.surroundings build total).answer question).run

/-- Drops from the cache what is stale or no longer in the project. -/
def prune : Building W F Unit := do
  let project ← guarded (fun error => BuildError.ofResolve (.index error))
    (Search.look (site.functions .whole))
  ExceptT.lift
    (Search.withCache site.versions fun versions cache =>
      ((), (cache.prune project versions).2))

def arrange (settings : LayoutSettings α) (g : Graph F α) : Building W F (Graph F α) :=
  let service : LayoutService W α := ⟨site.cancelled, site.draw⟩
  guarded BuildError.ofLayout (Search.look (service.arrange settings g).run)

def run (settings : LayoutSettings α) (build : Nat) (request : BuildRequest F) :
    Building W F (Graph F α) := do
  site.checkCancelled
  observe (site.emit (.started build))
  site.prune
  let found ← site.find build request
  let g ← guarded BuildError.contract (pure (assemble found))
  site.checkCancelled
  let drawn ← site.arrange settings g
  site.checkCancelled
  return drawn

end Site
end CallChart
