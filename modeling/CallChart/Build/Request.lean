import CallChart.Closure
import CallChart.Layout.Request

/-! What can be built, what a build tells while it runs, and why it may fail. -/
namespace CallChart

/-- What is to be drawn. -/
inductive BuildRequest (F : Type) where
  /-- The functions of a scope, with all calls that touch it or only those inside of it. -/
  | scope (scope : Scope) (limited : Bool)
  /-- What calls lead to from some functions. -/
  | focus (seeds : List F) (direction : Direction)

/-- Why a build has no result. -/
inductive BuildError where
  | cancelled
  | resolve (error : ResolveError)
  | layout (error : LayoutError)
  | contract (error : GraphError)
  /-- The build broke down. -/
  | lost
  deriving Repr

namespace BuildError

def message : BuildError → String
  | cancelled => "build cancelled"
  | resolve error => "call resolution failed: " ++ error.message
  | layout error => "layout failed: " ++ error.message
  | contract error => "graph contract violated: " ++ error.message
  | lost => "build task failed"

/-- A cancelled search is a cancelled build, and an index that breaks down takes the build with
it. -/
def ofResolve : ResolveError → BuildError
  | .cancelled => cancelled
  | .index .crashed => lost
  | error => resolve error

/-- A cancelled layout is a cancelled build, and a layout that breaks down takes the build with
it. -/
def ofLayout : LayoutError → BuildError
  | .cancelled => cancelled
  | .overflow => lost
  | error => layout error

end BuildError

/-- What listeners hear about a build, by its number. -/
inductive BuildEvent where
  | started (build : Nat)
  /-- So many functions have been asked about, of a total that a scope fixes beforehand. -/
  | progress (build processed : Nat) (total : Option Nat)
  | warning (build : Nat) (cause : IndexError)
  | completed (build nodes edges : Nat)
  | cancelled (build : Nat)
  | failed (build : Nat) (cause : BuildError)
  deriving Repr

namespace BuildEvent

def build : BuildEvent → Nat
  | started build => build
  | progress build _ _ => build
  | warning build _ => build
  | completed build _ _ => build
  | cancelled build => build
  | failed build _ => build

def capacity : Nat := 256

/-- What a listener hears that was busy during some events: how many it has missed, and the
others. -/
def heard (events : List BuildEvent) : Nat × List BuildEvent :=
  (events.length - capacity, events.drop (events.length - capacity))

end BuildEvent
end CallChart
