import CallChart.Cancel

/-! Where builds are registered. One build runs at a time: a new one cancels the one before it, and
the result of a build counts only if no other build was registered since. -/
namespace CallChart

/-- The number of a build and the flag by which it is cancelled. -/
structure Ticket where
  build : Nat
  flag : CancelFlag
  deriving DecidableEq, Repr

/-- The state of all builds: the flags handed out, the flag of the running build, how many builds
were started, and the latest result with the number of its build. -/
structure Desk (G : Type) where
  flags : CancelFlags
  running : Option CancelFlag
  started : Nat
  published : Option (Nat × G)

namespace Desk

variable {G : Type}

def empty : Desk G := ⟨.empty, none, 0, none⟩

def cancelCurrent (d : Desk G) : Desk G :=
  match d.running with
  | some flag => { d with flags := d.flags.raise flag }
  | none => d

/-- Registers a build and cancels the one that was running. -/
def register (d : Desk G) : Ticket × Desk G :=
  let (flag, flags) := d.cancelCurrent.flags.create
  (⟨d.started + 1, flag⟩,
    { d with flags := flags, running := some flag, started := d.started + 1 })

/-- Notes that a build has ended. A build registered later goes on. -/
def finish (d : Desk G) (flag : CancelFlag) : Desk G :=
  if d.running = some flag then { d with running := none } else d

/-- Whether a later build was registered or has published its result. -/
def isSuperseded (d : Desk G) (build : Nat) : Bool :=
  d.started != build ||
    match d.published with
    | some (other, _) => build < other
    | none => false

/-- Stores the result of a build unless the build was superseded. -/
def publish (d : Desk G) (build : Nat) (result : G) : Bool × Desk G :=
  if d.isSuperseded build then (false, d)
  else (true, { d with published := some (build, result) })

/-- The ticket of the build that was registered last, while it runs. -/
def current? (d : Desk G) : Option Ticket := d.running.map fun flag => ⟨d.started, flag⟩

def latest (d : Desk G) : Option G := d.published.map Prod.snd

def isCancelled (d : Desk G) (ticket : Ticket) : Bool := d.flags.isRaised ticket.flag

end Desk
end CallChart
