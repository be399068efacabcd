import CallChart.Point

/-! The camera that maps positions in the unit square to a drawing surface. On each axis the device
position is the zoom times the position times the size of the surface, less the origin. -/
namespace CallChart

/-- An origin in device units and a zoom for each axis. -/
structure Camera (α : Type) where
  origin : Point α
  zoomX : α
  zoomY : α
  deriving Repr

namespace Camera

variable {α : Type} [Scalar α]

/-- The camera that shows the unit square as it is. -/
def start : Camera α := ⟨Point.origin, Scalar.one, Scalar.one⟩

def toDevice (camera : Camera α) (p : Point α) (view : Viewport α) : Point α :=
  ⟨camera.zoomX * p.x * view.width - camera.origin.x,
    camera.zoomY * p.y * view.height - camera.origin.y⟩

/-- The position shown at a device point. There is none when an axis has collapsed. -/
def toPosition? (camera : Camera α) (device : Point α) (view : Viewport α) : Option (Point α) :=
  let scaleX := camera.zoomX * view.width
  let scaleY := camera.zoomY * view.height
  if Scalar.isZero scaleX || Scalar.isZero scaleY then none
  else
    some ⟨(device.x + camera.origin.x) / scaleX, (device.y + camera.origin.y) / scaleY⟩

/-- Zooms by a factor for each axis so that the device point `anchor` stays where it is. -/
def zoomAt (camera : Camera α) (anchor : Point α) (factorX factorY : α) : Camera α :=
  { origin :=
      ⟨factorX * camera.origin.x + (factorX - Scalar.one) * anchor.x,
        factorY * camera.origin.y + (factorY - Scalar.one) * anchor.y⟩
    zoomX := camera.zoomX * factorX
    zoomY := camera.zoomY * factorY }

def panBy (camera : Camera α) (delta : Point α) : Camera α :=
  { camera with origin := ⟨camera.origin.x - delta.x, camera.origin.y - delta.y⟩ }

def wheelBase : α := Scalar.ofNat 5 / Scalar.ofNat 4

theorem natAbs_tdiv_two (n : Int) : (n.tdiv 2).natAbs = n.natAbs / 2 := Int.natAbs_tdiv n 2

/-- Multiplies `result` by a power of `base`, squaring the base once for each binary digit of the
exponent. A negative exponent is halved toward zero as well: its digits are those of its size. -/
def powerFrom (result base : α) (n : Int) : α :=
  let result := if n % 2 = 1 then result * base else result
  if n.tdiv 2 = 0 then result else powerFrom result (base * base) (n.tdiv 2)
termination_by n.natAbs
decreasing_by
  have hsize := natAbs_tdiv_two n
  omega

/-- An integer power; a negative one is the reciprocal of the positive one. -/
def power (base : α) (n : Int) : α :=
  let result := powerFrom Scalar.one base n
  if n < 0 then Scalar.one / result else result

/-- The zoom of a turn of the wheel. Turning it down zooms out. -/
def wheelFactor (rotation : Int) : α := power wheelBase (-rotation)

end Camera
end CallChart
