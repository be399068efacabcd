import CallChart.Scalar

/-! Positions in the plane and sizes of a drawing surface. -/
namespace CallChart

/-- A position. Drawn graphs use the unit square, with y growing downward. -/
structure Point (α : Type) where
  x : α
  y : α
  deriving Repr

namespace Point

variable {α : Type} [Scalar α]

def origin : Point α := ⟨Scalar.zero, Scalar.zero⟩

def isFinite (p : Point α) : Bool := Scalar.isFinite p.x && Scalar.isFinite p.y

end Point

/-- The size of a drawing surface in device units. -/
structure Viewport (α : Type) where
  width : α
  height : α
  deriving Repr

end CallChart
