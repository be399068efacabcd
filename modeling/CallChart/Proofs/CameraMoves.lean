import CallChart.Camera
import Mathlib.Algebra.BigOperators.Ring.List
import Mathlib.Data.List.DropRight
import Mathlib.Tactic.Ring

/-! What an exact camera shows after any moves. Each move carries what is on the drawing surface with it: a zoom is a
similarity about its anchor, a drag is a shift. The zoom of the camera is the product of the factors since it was last
reset, so a device point has a position unless one of them was zero or the surface has no extent. -/
namespace CallChart

/-- A move of the camera. -/
inductive CameraMove (α : Type) where
  | zoomAt (anchor : Point α) (factorX factorY : α)
  | panBy (delta : Point α)
  /-- Back to the unit square as it is. -/
  | reset

namespace CameraMove

variable {α : Type}

def isReset : CameraMove α → Bool
  | reset => true
  | _ => false

/-- The moves after the last reset. -/
def sinceReset (moves : List (CameraMove α)) : List (CameraMove α) := moves.rtakeWhile fun move => !move.isReset

theorem sinceReset_concat (moves : List (CameraMove α)) (move : CameraMove α) :
    sinceReset (moves ++ [move]) = if !move.isReset then sinceReset moves ++ [move] else [] :=
  List.rtakeWhile_concat ..

variable [Scalar α]

/-- What a move multiplies the zoom of the x axis by. -/
def factorX : CameraMove α → α
  | zoomAt _ factorX _ => factorX
  | _ => Scalar.one

/-- What a move multiplies the zoom of the y axis by. -/
def factorY : CameraMove α → α
  | zoomAt _ _ factorY => factorY
  | _ => Scalar.one

/-- Where a move takes what was shown at a device point. A reset shows it where it was at first. -/
def carry (first shown : Point α) : CameraMove α → Point α
  | zoomAt anchor factorX factorY =>
    ⟨anchor.x + factorX * (shown.x - anchor.x), anchor.y + factorY * (shown.y - anchor.y)⟩
  | panBy delta => ⟨shown.x + delta.x, shown.y + delta.y⟩
  | reset => first

end CameraMove

namespace Camera

open CameraMove

section Moves

variable {α : Type} [Scalar α]

def perform (camera : Camera α) : CameraMove α → Camera α
  | .zoomAt anchor factorX factorY => camera.zoomAt anchor factorX factorY
  | .panBy delta => camera.panBy delta
  | .reset => start

/-- The camera after some moves, one after the other. -/
def after (moves : List (CameraMove α)) : Camera α := moves.foldl perform start

theorem after_concat (moves : List (CameraMove α)) (move : CameraMove α) :
    after (moves ++ [move]) = (after moves).perform move := List.foldl_concat ..

/-- What happened before a reset does not matter any more. -/
theorem after_sinceReset (moves : List (CameraMove α)) : after (sinceReset moves) = after moves := by
  induction moves using List.reverseRecOn with
  | nil => rfl
  | append_singleton moves move ih =>
    have hgoesOn : after (sinceReset moves ++ [move]) = after (moves ++ [move]) := by
      rw [after_concat, after_concat, ih]
    rw [sinceReset_concat]
    cases move with
    | zoomAt => exact hgoesOn
    | panBy => exact hgoesOn
    | reset => exact (after_concat moves .reset).symm

end Moves

variable (camera : Camera Rat) (view : Viewport Rat)

/-! ### What the moves carry -/

/-- What is shown goes with the camera: towards the anchor or away from it, or as far as the surface is dragged. -/
theorem toDevice_perform (move : CameraMove Rat) (q : Point Rat) :
    (camera.perform move).toDevice q view =
      move.carry ((start : Camera Rat).toDevice q view) (camera.toDevice q view) := by
  cases move with
  | zoomAt anchor factorX factorY =>
    have haxis (zoom p size origin anchor factor : Rat) :
        zoom * factor * p * size - (factor * origin + (factor - 1) * anchor) =
          anchor + factor * (zoom * p * size - origin - anchor) := by ring
    exact congrArg₂ Point.mk (haxis ..) (haxis ..)
  | panBy delta =>
    have haxis (shown origin delta : Rat) : shown - (origin - delta) = shown - origin + delta := by ring
    exact congrArg₂ Point.mk (haxis ..) (haxis ..)
  | reset => rfl

theorem toDevice_after (moves : List (CameraMove Rat)) (q : Point Rat) :
    (after moves).toDevice q view =
      moves.foldl (carry ((start : Camera Rat).toDevice q view)) ((start : Camera Rat).toDevice q view) := by
  induction moves using List.reverseRecOn with
  | nil => rfl
  | append_singleton moves move ih => rw [after_concat, toDevice_perform, ih, List.foldl_concat]

/-- Two zooms at one anchor are one by the product of their factors. -/
theorem zoomAt_zoomAt (anchor : Point Rat) (f₁ f₂ g₁ g₂ : Rat) :
    (camera.zoomAt anchor f₁ f₂).zoomAt anchor g₁ g₂ = camera.zoomAt anchor (f₁ * g₁) (f₂ * g₂) := by
  have horigin (origin anchor f g : Rat) :
      g * (f * origin + (f - 1) * anchor) + (g - 1) * anchor = f * g * origin + (f * g - 1) * anchor := by ring
  have hpoint := congrArg₂ Point.mk (horigin camera.origin.x anchor.x f₁ g₁) (horigin camera.origin.y anchor.y f₂ g₂)
  exact (Camera.mk.injEq ..).mpr ⟨hpoint, mul_assoc camera.zoomX f₁ g₁, mul_assoc camera.zoomY f₂ g₂⟩

/-- After any moves, a zoom by a factor on each axis is a similarity about its anchor: what is shown there stays, and
everything else is as many times as far away from it. Zooms at one anchor multiply, and a drag shifts everything shown
by as much. So each point is shown where the moves have carried it. -/
theorem similar_about_anchor (moves : List (CameraMove Rat)) :
    let camera : Camera Rat := after moves
    (∀ anchor f g q, (camera.zoomAt anchor f g).toDevice q view =
      ⟨anchor.x + f * ((camera.toDevice q view).x - anchor.x),
        anchor.y + g * ((camera.toDevice q view).y - anchor.y)⟩) ∧
    (∀ anchor f g q, camera.toDevice q view = anchor → (camera.zoomAt anchor f g).toDevice q view = anchor) ∧
    (∀ anchor f₁ f₂ g₁ g₂, (camera.zoomAt anchor f₁ f₂).zoomAt anchor g₁ g₂ =
      camera.zoomAt anchor (f₁ * g₁) (f₂ * g₂)) ∧
    (∀ delta q, (camera.panBy delta).toDevice q view =
      ⟨(camera.toDevice q view).x + delta.x, (camera.toDevice q view).y + delta.y⟩) ∧
    (∀ q, camera.toDevice q view =
      moves.foldl (carry ((start : Camera Rat).toDevice q view)) ((start : Camera Rat).toDevice q view)) := by
  intro camera
  have hzoom (anchor : Point Rat) (f g : Rat) (q : Point Rat) :=
    camera.toDevice_perform view (.zoomAt anchor f g) q
  refine ⟨hzoom, fun anchor f g q hshown => ?_, camera.zoomAt_zoomAt, fun delta => ?_, toDevice_after view moves⟩
  · refine (hzoom anchor f g q).trans ?_
    rw [hshown]
    have hstays (a factor : Rat) : a + factor * (a - a) = a := by ring
    exact congrArg₂ Point.mk (hstays ..) (hstays ..)
  · exact camera.toDevice_perform view (.panBy delta)

/-- Zoomed in and dragged, a camera is zoomed by a negative factor and by zero, and the point at the anchor stays. -/
theorem point_at_anchor_stays :
    let moves : List (CameraMove Rat) := [.zoomAt ⟨120, 80⟩ (5 / 4) (5 / 4), .panBy ⟨-30, 12⟩]
    let view : Viewport Rat := ⟨800, 600⟩
    let camera : Camera Rat := after moves
    camera.toDevice ⟨1 / 2, 1 / 4⟩ view = ⟨440, 359 / 2⟩ ∧
      (camera.zoomAt ⟨440, 359 / 2⟩ (-2) 0).toDevice ⟨1 / 2, 1 / 4⟩ view = ⟨440, 359 / 2⟩ := by
  intro moves view camera
  have hshown : camera.toDevice ⟨1 / 2, 1 / 4⟩ view = ⟨440, 359 / 2⟩ :=
    (Point.mk.injEq ..).mpr ⟨by decide +kernel, by decide +kernel⟩
  exact ⟨hshown, (similar_about_anchor view moves).2.1 _ _ _ _ hshown⟩

/-! ### Which positions are shown -/

/-- Until the next reset, the factors of the moves multiply. -/
theorem zoom_foldl {moves : List (CameraMove Rat)} (h : ∀ move ∈ moves, move.isReset = false) :
    (moves.foldl perform camera).zoomX = camera.zoomX * (moves.map factorX).prod ∧
      (moves.foldl perform camera).zoomY = camera.zoomY * (moves.map factorY).prod := by
  induction moves generalizing camera with
  | nil => exact ⟨(mul_one _).symm, (mul_one _).symm⟩
  | cons move moves ih =>
    obtain ⟨hmove, hmoves⟩ := List.forall_mem_cons.mp h
    have hfirst : (camera.perform move).zoomX = camera.zoomX * move.factorX ∧
        (camera.perform move).zoomY = camera.zoomY * move.factorY := by
      cases move with
      | zoomAt => exact ⟨rfl, rfl⟩
      | panBy => exact ⟨(mul_one _).symm, (mul_one _).symm⟩
      | reset => cases hmove
    obtain ⟨hx, hy⟩ := ih (camera.perform move) hmoves
    rw [List.foldl_cons, hx, hy, hfirst.1, hfirst.2, List.map_cons, List.map_cons, List.prod_cons, List.prod_cons,
      mul_assoc, mul_assoc]
    exact ⟨rfl, rfl⟩

/-- The zoom is the product of the factors since the last reset. -/
theorem zoom_after (moves : List (CameraMove Rat)) :
    (after moves : Camera Rat).zoomX = ((sinceReset moves).map factorX).prod ∧
      (after moves : Camera Rat).zoomY = ((sinceReset moves).map factorY).prod := by
  have hsince : ∀ move ∈ sinceReset moves, move.isReset = false := fun move hmove => by
    simpa using List.mem_rtakeWhile_imp hmove
  obtain ⟨hx, hy⟩ := zoom_foldl start hsince
  rw [← after_sinceReset]
  exact ⟨hx.trans (one_mul _), hy.trans (one_mul _)⟩

/-- An axis has collapsed if some factor since the last reset was zero. -/
theorem zoom_after_eq_zero_iff (moves : List (CameraMove Rat)) :
    (after moves : Camera Rat).zoomX = 0 ∨ (after moves : Camera Rat).zoomY = 0 ↔
      ∃ anchor f g, .zoomAt anchor f g ∈ sinceReset moves ∧ (f = 0 ∨ g = 0) := by
  obtain ⟨hx, hy⟩ := zoom_after moves
  rw [hx, hy, List.prod_eq_zero_iff, List.prod_eq_zero_iff, List.mem_map, List.mem_map]
  constructor
  · rintro (⟨move, hmove, hzero⟩ | ⟨move, hmove, hzero⟩)
    all_goals cases move with
      | zoomAt anchor f g => exact ⟨anchor, f, g, hmove, by simp_all [factorX, factorY]⟩
      | panBy => exact absurd hzero one_ne_zero
      | reset => exact absurd hzero one_ne_zero
  · rintro ⟨anchor, f, g, hmove, hzero | hzero⟩
    · exact .inl ⟨_, hmove, hzero⟩
    · exact .inr ⟨_, hmove, hzero⟩

/-- The sizes of the unit square on the surface. A device point has no position if one of them is zero. -/
theorem toPosition?_eq (device : Point Rat) :
    camera.toPosition? device view =
      if camera.zoomX * view.width = 0 ∨ camera.zoomY * view.height = 0 then none
      else some ⟨(device.x + camera.origin.x) / (camera.zoomX * view.width),
        (device.y + camera.origin.y) / (camera.zoomY * view.height)⟩ := by
  have hzero (x : Rat) : Scalar.isZero x = decide (x = 0) := rfl
  rw [toPosition?, hzero, hzero, ← Bool.decide_or]
  exact if_congr decide_eq_true_iff rfl rfl

/-- After any moves, a device point has no position exactly if the surface has no extent or some factor since the last
reset was zero. Otherwise points are where they are shown: a position is found again from the device point that shows
it, and a device point shows the position that is found there. -/
theorem position_inverts_device (moves : List (CameraMove Rat)) :
    let camera : Camera Rat := after moves
    let collapsed := view.width = 0 ∨ view.height = 0 ∨
      ∃ anchor f g, .zoomAt anchor f g ∈ sinceReset moves ∧ (f = 0 ∨ g = 0)
    (∀ device, camera.toPosition? device view = none ↔ collapsed) ∧
    (¬ collapsed →
      (∀ p, camera.toPosition? (camera.toDevice p view) view = some p) ∧
      ∀ device, ∃ p, camera.toPosition? device view = some p ∧ camera.toDevice p view = device) := by
  intro camera collapsed
  have hcollapsed : camera.zoomX * view.width = 0 ∨ camera.zoomY * view.height = 0 ↔ collapsed := by
    have hzoom : camera.zoomX = 0 ∨ camera.zoomY = 0 ↔ _ := zoom_after_eq_zero_iff moves
    change _ ↔ view.width = 0 ∨ view.height = 0 ∨ _
    rw [mul_eq_zero, mul_eq_zero, ← hzoom]
    tauto
  refine ⟨fun device => ?_, fun hopen => ?_⟩
  · rw [toPosition?_eq, ← hcollapsed]
    split
    · next hzero => exact iff_of_true rfl hzero
    · next hopen => exact iff_of_false (Option.some_ne_none _) hopen
  · rw [← hcollapsed, not_or] at hopen
    obtain ⟨hx, hy⟩ := hopen
    have hfound (device : Point Rat) := (camera.toPosition?_eq view device).trans (if_neg (not_or.mpr ⟨hx, hy⟩))
    refine ⟨fun p => (hfound _).trans ?_, fun device => ⟨_, hfound device, ?_⟩⟩
    · have haxis {zoom size : Rat} (h : zoom * size ≠ 0) (p origin : Rat) :
          (zoom * p * size - origin + origin) / (zoom * size) = p := by
        rw [sub_add_cancel, mul_right_comm, mul_div_cancel_left₀ _ h]
      exact congrArg some (congrArg₂ Point.mk (haxis hx ..) (haxis hy ..))
    · have haxis {zoom size : Rat} (h : zoom * size ≠ 0) (device origin : Rat) :
          zoom * ((device + origin) / (zoom * size)) * size - origin = device := by
        rw [mul_right_comm, mul_div_cancel₀ _ h, add_sub_cancel_right]
      exact congrArg₂ Point.mk (haxis hx ..) (haxis hy ..)

/-- A factor of zero before the last reset does no harm. -/
theorem position_after_reset :
    let moves : List (CameraMove Rat) :=
      [.zoomAt ⟨0, 0⟩ 0 1, .reset, .zoomAt ⟨120, 80⟩ (5 / 4) (-1), .panBy ⟨-30, 12⟩]
    let view : Viewport Rat := ⟨800, 600⟩
    let camera : Camera Rat := after moves
    camera.toPosition? (camera.toDevice ⟨1 / 2, 1 / 4⟩ view) view = some ⟨1 / 2, 1 / 4⟩ := by
  intro moves view camera
  have hsince : sinceReset moves = [.zoomAt ⟨120, 80⟩ (5 / 4) (-1), .panBy ⟨-30, 12⟩] := rfl
  refine ((position_inverts_device view moves).2 ?_).1 _
  rintro (hwidth | hheight | ⟨anchor, f, g, hmove, hzero⟩)
  · exact absurd hwidth (by decide +kernel)
  · exact absurd hheight (by decide +kernel)
  · rw [hsince] at hmove
    obtain hzoom | hpan := List.mem_cons.mp hmove
    · obtain ⟨-, rfl, rfl⟩ := CameraMove.zoomAt.inj hzoom
      exact hzero.elim (absurd · (by decide +kernel)) (absurd · (by decide +kernel))
    · cases List.mem_singleton.mp hpan

end Camera
end CallChart
