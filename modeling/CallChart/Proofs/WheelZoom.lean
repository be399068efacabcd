import CallChart.Proofs.CameraMoves

/-! The zoom of a wheel. Squaring the base once for each binary digit of an exponent gives the power, negative exponents
included, so turning the wheel at one point adds up: some turns do what one turn by their sum does, and turns that
cancel each other leave the camera as it was. -/
namespace CallChart.Camera

/-- A turn of the wheel at a device point. -/
def turn {α : Type} [Scalar α] (camera : Camera α) (anchor : Point α) (rotation : Int) : Camera α :=
  camera.zoomAt anchor (wheelFactor rotation) (wheelFactor rotation)

/-! ### The power by repeated squaring -/

/-- Halving an exponent toward zero drops the lowest binary digit of its size. -/
theorem pow_natAbs_halved (base : Rat) (n : Int) :
    (if n % 2 = 1 then base else 1) * (base * base) ^ (n.tdiv 2).natAbs = base ^ n.natAbs := by
  have hhalf := natAbs_tdiv_two n
  rw [← sq, ← pow_mul]
  split
  · next hodd =>
    have hsize : n.natAbs = 2 * (n.tdiv 2).natAbs + 1 := by omega
    rw [hsize, pow_succ']
  · next heven =>
    have hsize : n.natAbs = 2 * (n.tdiv 2).natAbs := by omega
    rw [one_mul, hsize]

/-- The loop keeps the product of its result and the power that is left. -/
theorem powerFrom_rat (result base : Rat) (n : Int) : powerFrom result base n = result * base ^ n.natAbs := by
  have hdigit (result base : Rat) (n : Int) :
      (if n % 2 = 1 then result * base else result) = result * if n % 2 = 1 then base else 1 := by
    rw [mul_ite, mul_one]
  fun_induction powerFrom result base n with
  | case1 result base n next hlast =>
    rw [← pow_natAbs_halved, hlast, Int.natAbs_zero, pow_zero, mul_one]
    exact hdigit ..
  | case2 result base n next hmore ih =>
    rw [← pow_natAbs_halved, ih, ← mul_assoc]
    exact congrArg (· * _) (hdigit ..)

theorem power_rat (base : Rat) (n : Int) : power base n = base ^ n := by
  have hsize : powerFrom Scalar.one base n = base ^ n.natAbs := (powerFrom_rat ..).trans (one_mul _)
  rw [power, hsize]
  split
  · next hneg =>
    have hn : n = -(n.natAbs : Int) := by omega
    conv_rhs => rw [hn, zpow_neg, zpow_natCast]
    exact one_div _
  · next hnonneg =>
    have hn : n = (n.natAbs : Int) := by omega
    conv_rhs => rw [hn, zpow_natCast]

theorem wheelFactor_rat (rotation : Int) : (wheelFactor rotation : Rat) = (5 / 4) ^ (-rotation) := power_rat ..

/-! ### Turns at one point -/

theorem wheelFactor_mul (r s : Int) : (wheelFactor r * wheelFactor s : Rat) = wheelFactor (r + s) := by
  rw [wheelFactor_rat, wheelFactor_rat, wheelFactor_rat, neg_add, zpow_add₀ (by norm_num)]

variable (camera : Camera Rat) (anchor : Point Rat)

theorem turn_turn (r s : Int) : (camera.turn anchor r).turn anchor s = camera.turn anchor (r + s) := by
  rw [turn, turn, zoomAt_zoomAt, wheelFactor_mul, turn]

theorem turn_zero : camera.turn anchor 0 = camera := by
  have hfactor : (wheelFactor 0 : Rat) = 1 := by rw [wheelFactor_rat, neg_zero, zpow_zero]
  have horigin (origin anchor : Rat) : 1 * origin + (1 - 1) * anchor = origin := by ring
  rw [turn, hfactor]
  exact (Camera.mk.injEq ..).mpr ⟨congrArg₂ Point.mk (horigin ..) (horigin ..), mul_one _, mul_one _⟩

/-- Turns at one point, one after the other, do what one turn by their sum does. -/
theorem foldl_turn (rotations : List Int) :
    rotations.foldl (fun camera rotation => camera.turn anchor rotation) camera = camera.turn anchor rotations.sum := by
  induction rotations generalizing camera with
  | nil => exact (camera.turn_zero anchor).symm
  | cons rotation rotations ih => rw [List.foldl_cons, ih, turn_turn, List.sum_cons]

/-- A turn of the wheel zooms by a power of the base, and turns at one point do what one turn by the sum of their
rotations does. So turns that add up to nothing leave the camera as it was. Rotations are any integers here; those of a
wheel have 32 bits, and so that they can be negated, they are not the least such number. -/
theorem turns_add_up :
    (∀ rotation : Int, (wheelFactor rotation : Rat) = (5 / 4) ^ (-rotation)) ∧
    ∀ (camera : Camera Rat) (anchor : Point Rat) (rotations : List Int),
      rotations.foldl (fun camera rotation => camera.turn anchor rotation) camera =
        camera.turn anchor rotations.sum ∧
      (rotations.sum = 0 → rotations.foldl (fun camera rotation => camera.turn anchor rotation) camera = camera) := by
  refine ⟨wheelFactor_rat, fun camera anchor rotations => ⟨foldl_turn .., fun hzero => ?_⟩⟩
  rw [foldl_turn, hzero, turn_zero]

/-- Zoomed out, in and out again by as much. -/
theorem turns_cancel :
    let camera : Camera Rat := ⟨⟨30, 20⟩, 5 / 4, -2⟩
    ([3, -5, 2] : List Int).foldl (fun camera rotation => camera.turn ⟨120, 80⟩ rotation) camera = camera :=
  (turns_add_up.2 _ _ _).2 (by decide)

end CallChart.Camera
