import CallChart.Scalar

/-! The constants of the layout. -/
namespace CallChart

structure LayoutSettings (α : Type) where
  /-- The distance that neighbouring rows and columns get. -/
  gridSize : α
  /-- The border left free on each side of the unit square. -/
  inset : α
  /-- Coordinates closer than one part in `precision` are in one row or column. -/
  precision : α
  deriving Repr

namespace LayoutSettings

variable {α : Type} [Scalar α]

def standard : LayoutSettings α :=
  let tenth := Scalar.one / Scalar.ofNat 10
  ⟨tenth, tenth, Scalar.ofNat 1000⟩

/-- Why settings cannot be used; the value is the one refused. -/
inductive Fault (α : Type) where
  | gridSize (value : α)
  | inset (value : α)
  | precision (value : α)
  deriving Repr

/-- The grid size is positive, the inset leaves something of the square, and the precision is at
least one. The first fault in this order counts. -/
def check (s : LayoutSettings α) : Except (Fault α) Unit :=
  if !(Scalar.lt Scalar.zero s.gridSize && Scalar.isFinite s.gridSize) then
    .error (.gridSize s.gridSize)
  else if !(Scalar.le Scalar.zero s.inset && Scalar.lt s.inset Scalar.half) then
    .error (.inset s.inset)
  else if !(Scalar.le Scalar.one s.precision && Scalar.isFinite s.precision) then
    .error (.precision s.precision)
  else .ok ()

end LayoutSettings
end CallChart
