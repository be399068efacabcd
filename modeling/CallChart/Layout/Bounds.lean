import CallChart.Layout.Grid

/-! The box around a set of points. -/
namespace CallChart

structure Bounds (α : Type) where
  minX : α
  minY : α
  maxX : α
  maxY : α
  deriving Repr

namespace Bounds

variable {α : Type} [Scalar α]

def ofPoint (p : Point α) : Bounds α := ⟨p.x, p.y, p.x, p.y⟩

def widen (b : Bounds α) (p : Point α) : Bounds α :=
  ⟨Scalar.lesser b.minX p.x, Scalar.lesser b.minY p.y, Scalar.greater b.maxX p.x,
    Scalar.greater b.maxY p.y⟩

/-- The box around some points; there is none around no point. -/
def ofPoints? : List (Point α) → Option (Bounds α)
  | [] => none
  | p :: rest => some (rest.foldl Bounds.widen (ofPoint p))

end Bounds
end CallChart
