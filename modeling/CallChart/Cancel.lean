/-! Flags by which running work is asked to stop. A flag stays raised, and its copies are the same
flag. -/
namespace CallChart

/-- The name of a flag. -/
structure CancelFlag where
  number : Nat
  deriving DecidableEq, Repr

/-- All flags that were created, by number, and those of them that were raised. -/
structure CancelFlags where
  created : Nat
  raised : List CancelFlag
  deriving Repr

namespace CancelFlags

def empty : CancelFlags := ⟨0, []⟩

/-- A flag that differs from all flags so far and is not raised. -/
def create (flags : CancelFlags) : CancelFlag × CancelFlags :=
  (⟨flags.created⟩, { flags with created := flags.created + 1 })

def raise (flags : CancelFlags) (flag : CancelFlag) : CancelFlags :=
  { flags with raised := flag :: flags.raised }

def isRaised (flags : CancelFlags) (flag : CancelFlag) : Bool := flags.raised.contains flag

theorem isRaised_raise (flags : CancelFlags) (flag other : CancelFlag) :
    (flags.raise flag).isRaised other = (other == flag || flags.isRaised other) :=
  List.contains_cons

theorem isRaised_create (flags : CancelFlags) (other : CancelFlag) :
    flags.create.2.isRaised other = flags.isRaised other := rfl

end CancelFlags
end CallChart
