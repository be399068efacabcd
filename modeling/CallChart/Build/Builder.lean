import CallChart.Build.Desk
import CallChart.Build.Job
import CallChart.Config.Basic

/-! Builds one after the other. A builder keeps the cache from build to build, so that a build asks
only about what it cannot know from builds before it. -/
namespace CallChart

/-- What may happen while a build asks its index or its layout service. -/
inductive Happening where
  /-- The running build is asked to stop. -/
  | cancel
  /-- Another build is registered. -/
  | register
  /-- A file is edited. -/
  | edit (file : Path)
  deriving Repr

/-- What a running build shares with everything else: the desk, the versions of files, what was
told to listeners, and a world `X` that only the services know. -/
structure Floor (X F α : Type) where
  desk : Desk (Graph F α)
  versions : FileVersions
  events : List BuildEvent
  outside : X

namespace Floor

variable {X F α : Type}

def emit (event : BuildEvent) : StateM (Floor X F α) Unit :=
  modify fun floor => { floor with events := floor.events ++ [event] }

def updateDesk (change : Desk (Graph F α) → Desk (Graph F α)) : StateM (Floor X F α) Unit :=
  modify fun floor => { floor with desk := change floor.desk }

def after (floor : Floor X F α) : Happening → Floor X F α
  | .cancel => { floor with desk := floor.desk.cancelCurrent }
  | .register => { floor with desk := floor.desk.register.2 }
  | .edit file => { floor with versions := floor.versions.bump file }

/-- Asks a service, and lets happen what happens meanwhile. -/
def serve {β : Type} (service : StateM X (β × List Happening)) : StateM (Floor X F α) β :=
  fun floor =>
    let ((answer, happenings), outside) := service.run floor.outside
    (answer, happenings.foldl after { floor with outside := outside })

end Floor

/-- An index and a layout service in a world `X`. Each of their answers comes with what has
happened meanwhile. -/
structure Services (X F α : Type) [Handle F] where
  functions : Scope → StateM X (Except IndexError (Std.TreeSet F) × List Happening)
  ask : Coverage → F → StateM X (Except IndexError (Std.TreeSet F) × List Happening)
  population : Nat
  draw : LayoutRequest → StateM X (Except LayoutError (RawLayout α) × List Happening)
  /-- What happens while a build does not ask for anything. -/
  idle : StateM X (Unit × List Happening)

namespace Services

variable {X F α : Type} [Handle F]

def answering (index : CallIndex F)
    (draw : LayoutRequest → Except LayoutError (RawLayout α)) : Services X F α :=
  { functions := fun scope => pure (index.functions scope, [])
    ask := fun coverage f => pure (index.neighbours coverage f, [])
    population := index.population
    draw := fun request => pure (draw request, [])
    idle := pure ((), []) }

def cancelled (services : Services X F α) (ticket : Ticket) : StateM (Floor X F α) Bool := do
  Floor.serve services.idle
  return (← get).desk.isCancelled ticket

def versions (services : Services X F α) : StateM (Floor X F α) Versions := do
  Floor.serve services.idle
  return (← get).versions.now

/-- What a build with a ticket works with. -/
def site (services : Services X F α) (ticket : Ticket) : Site (Floor X F α) F α :=
  { cancelled := services.cancelled ticket
    versions := services.versions
    functions := fun scope => Floor.serve (services.functions scope)
    ask := fun coverage f => Floor.serve (services.ask coverage f)
    population := services.population
    schedule := id
    draw := fun request => Floor.serve (services.draw request)
    emit := Floor.emit }

end Services

/-- The floor, the cache, and the services that the next build will use. -/
structure Builder (X F α : Type) [Handle F] where
  floor : Floor X F α
  cache : Cache F
  services : Services X F α
  settings : LayoutSettings α

namespace Builder

variable {X F α : Type} [Handle F] [Scalar α]

def start (services : Services X F α) (settings : LayoutSettings α) (versions : FileVersions)
    (outside : X) : Builder X F α :=
  ⟨⟨.empty, versions, [], outside⟩, .empty, services, settings⟩

def latest (b : Builder X F α) : Option (Graph F α) := b.floor.desk.latest

def onFloor {β : Type} (work : StateM (Floor X F α) β) : StateM (Builder X F α) β := fun b =>
  let (result, floor) := work.run b.floor
  (result, { b with floor := floor })

/-- Replaces the services. A build that runs keeps those it began with. -/
def setServices (services : Services X F α) : StateM (Builder X F α) Unit :=
  modify fun b => { b with services := services }

/-- Counts an edit of a file and answers its new version. -/
def bump (file : Path) : StateM (Builder X F α) Nat :=
  onFloor fun floor =>
    let versions := floor.versions.bump file
    (versions.version file, { floor with versions := versions })

def cancelCurrent : StateM (Builder X F α) Unit := onFloor (Floor.updateDesk Desk.cancelCurrent)

def register : StateM (Builder X F α) Ticket :=
  onFloor fun floor =>
    let (ticket, desk) := floor.desk.register
    (ticket, { floor with desk := desk })

/-- Runs a registered build. Its result is not published yet. -/
def work (services : Services X F α) (ticket : Ticket) (request : BuildRequest F) :
    StateM (Builder X F α) (Except BuildError (Graph F α)) := fun b =>
  let job := (services.site ticket).run b.settings ticket.build request
  let (result, search) := job.run.run ⟨b.floor, b.cache, 0⟩
  (result, { b with floor := search.world, cache := search.cache })

/-- Publishes a result. A build that was superseded counts as cancelled. -/
def publish (build : Nat) (g : Graph F α) (floor : Floor X F α) :
    Except BuildError (Graph F α) × Floor X F α :=
  match floor.desk.publish build g with
  | (true, desk) => (.ok g, { floor with desk := desk })
  | (false, desk) => (.error .cancelled, { floor with desk := desk })

def closingEvent (build : Nat) : Except BuildError (Graph F α) → BuildEvent
  | .ok g => .completed build g.nodes.size g.edges.size
  | .error .cancelled => .cancelled build
  | .error error => .failed build error

/-- Ends a build: it is no longer the running one, its result is published and its end is told. -/
def conclude (ticket : Ticket) (result : Except BuildError (Graph F α)) :
    StateM (Builder X F α) (Except BuildError (Graph F α)) :=
  onFloor do
    Floor.updateDesk fun desk => desk.finish ticket.flag
    let result ←
      match result with
      | .ok g => publish ticket.build g
      | .error error => pure (.error error)
    Floor.emit (closingEvent ticket.build result)
    return result

def build (request : BuildRequest F) : StateM (Builder X F α) (Except BuildError (Graph F α)) := do
  let ticket ← register
  let result ← work (← get).services ticket request
  conclude ticket result

end Builder
end CallChart
