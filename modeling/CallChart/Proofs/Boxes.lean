import CallChart.Layout.Fit
import CallChart.Layout.Settings
import Mathlib.Algebra.Order.Field.Basic
import Mathlib.Algebra.Order.Field.Rat
import Mathlib.Order.Monotone.Basic
import Mathlib.Tactic.Linarith

/-! Boxes around exact points, and how what is in a box is fitted into the unit square. -/
namespace CallChart

/-! ### Exact numbers -/

namespace Scalar

@[simp]
theorem zero_rat : (zero : Rat) = 0 := rfl

@[simp]
theorem one_rat : (one : Rat) = 1 := rfl

@[simp]
theorem half_rat : (half : Rat) = 1 / 2 := rfl

@[simp]
theorem lt_rat (x y : Rat) : lt x y = decide (x < y) := rfl

@[simp]
theorem le_rat (x y : Rat) : le x y = decide (x ≤ y) := rfl

@[simp]
theorem isFinite_rat (x : Rat) : isFinite x = true := rfl

theorem lesser_rat (x y : Rat) : lesser x y = min x y := by
  change (if y < x then y else x) = min x y
  split
  · next h => exact (min_eq_right h.le).symm
  · next h => exact (min_eq_left (not_lt.mp h)).symm

theorem greater_rat (x y : Rat) : greater x y = max x y := by
  change (if x < y then y else x) = max x y
  split
  · next h => exact (max_eq_right h.le).symm
  · next h => exact (max_eq_left (not_lt.mp h)).symm

end Scalar

namespace LayoutSettings

theorem check_eq_ok {α : Type} [Scalar α] {settings : LayoutSettings α} :
    settings.check = .ok () ↔
      (Scalar.lt Scalar.zero settings.gridSize = true ∧ Scalar.isFinite settings.gridSize = true) ∧
        (Scalar.le Scalar.zero settings.inset = true ∧ Scalar.lt settings.inset Scalar.half = true) ∧
        Scalar.le Scalar.one settings.precision = true ∧ Scalar.isFinite settings.precision = true := by
  simp only [← Bool.and_eq_true]
  unfold check
  cases Scalar.lt Scalar.zero settings.gridSize && Scalar.isFinite settings.gridSize
  · exact iff_of_false nofun nofun
  cases Scalar.le Scalar.zero settings.inset && Scalar.lt settings.inset Scalar.half
  · exact iff_of_false nofun nofun
  cases Scalar.le Scalar.one settings.precision && Scalar.isFinite settings.precision
  · exact iff_of_false nofun nofun
  · exact iff_of_true rfl rfl

/-- Settings that can be used leave room for a border on each side and keep rows and columns apart. -/
theorem check_ok_iff {settings : LayoutSettings Rat} :
    settings.check = .ok () ↔
      0 < settings.gridSize ∧ (0 ≤ settings.inset ∧ settings.inset < 1 / 2) ∧ 1 ≤ settings.precision := by
  rw [check_eq_ok]
  simp only [Scalar.zero_rat, Scalar.one_rat, Scalar.half_rat, Scalar.lt_rat, Scalar.le_rat, Scalar.isFinite_rat,
    decide_eq_true_iff, and_true]

theorem check_standard : (standard : LayoutSettings Rat).check = .ok () :=
  check_ok_iff.mpr ⟨by decide +kernel, by decide +kernel, by decide +kernel⟩

end LayoutSettings

/-! ### Boxes -/

/-- The least and the greatest of some values. -/
structure Spans (values : List Rat) (low high : Rat) : Prop where
  low_mem : low ∈ values
  high_mem : high ∈ values
  low_le {v : Rat} : v ∈ values → low ≤ v
  le_high {v : Rat} : v ∈ values → v ≤ high

theorem spans_singleton (v : Rat) : Spans [v] v v where
  low_mem := List.mem_singleton_self v
  high_mem := List.mem_singleton_self v
  low_le h := (List.mem_singleton.mp h).ge
  le_high h := (List.mem_singleton.mp h).le

theorem Spans.concat {values : List Rat} {low high : Rat} (h : Spans values low high) (v : Rat) :
    Spans (values ++ [v]) (Scalar.lesser low v) (Scalar.greater high v) := by
  rw [Scalar.lesser_rat, Scalar.greater_rat]
  refine ⟨?_, ?_, fun {u} hu => ?_, fun {u} hu => ?_⟩
  · rcases min_choice low v with hmin | hmin
    · rw [hmin]
      exact List.mem_append_left _ h.low_mem
    · rw [hmin]
      exact List.mem_append_right _ (List.mem_singleton_self v)
  · rcases max_choice high v with hmax | hmax
    · rw [hmax]
      exact List.mem_append_left _ h.high_mem
    · rw [hmax]
      exact List.mem_append_right _ (List.mem_singleton_self v)
  · rcases List.mem_append.mp hu with hold | hnew
    · exact (min_le_left _ _).trans (h.low_le hold)
    · exact List.mem_singleton.mp hnew ▸ min_le_right _ _
  · rcases List.mem_append.mp hu with hold | hnew
    · exact (h.le_high hold).trans (le_max_left _ _)
    · exact List.mem_singleton.mp hnew ▸ le_max_right _ _

/-- The distance between the least and the greatest of some values. -/
def extent (values : List Rat) : Rat := values.max?.getD 0 - values.min?.getD 0

theorem Spans.extent_eq {values : List Rat} {low high : Rat} (h : Spans values low high) :
    extent values = high - low := by
  have hmax : values.max? = some high := List.max?_eq_some_iff.mpr ⟨h.high_mem, fun _ hv => h.le_high hv⟩
  have hmin : values.min? = some low := List.min?_eq_some_iff.mpr ⟨h.low_mem, fun _ hv => h.low_le hv⟩
  rw [extent, hmax, hmin]
  rfl

namespace Bounds

/-- The box ends where points are, and no point is outside of it. -/
structure Around (box : Bounds Rat) (ps : List (Point Rat)) : Prop where
  x : Spans (ps.map Point.x) box.minX box.maxX
  y : Spans (ps.map Point.y) box.minY box.maxY

theorem around_ofPoint (p : Point Rat) : (ofPoint p).Around [p] := ⟨spans_singleton p.x, spans_singleton p.y⟩

theorem Around.widen {box : Bounds Rat} {ps : List (Point Rat)} (h : box.Around ps) (p : Point Rat) :
    (box.widen p).Around (ps ++ [p]) := by
  refine ⟨?_, ?_⟩
  · rw [List.map_append]
    exact h.x.concat p.x
  · rw [List.map_append]
    exact h.y.concat p.y

theorem ofPoints?_around {ps : List (Point Rat)} {box : Bounds Rat} (h : ofPoints? ps = some box) :
    box.Around ps := by
  have hfold (rest seen : List (Point Rat)) (box : Bounds Rat) (hseen : box.Around seen) :
      (rest.foldl Bounds.widen box).Around (seen ++ rest) := by
    induction rest generalizing seen box with
    | nil => rwa [List.append_nil]
    | cons p rest ih =>
      have hnext := ih _ _ (hseen.widen p)
      rwa [List.append_assoc] at hnext
  cases ps with
  | nil => cases h
  | cons p rest =>
    cases h
    exact hfold rest [p] (ofPoint p) (around_ofPoint p)

end Bounds

/-! ### Fitting one axis -/

/-- Values on one axis that keep a border and reach it on both sides, unless they are all in the middle. -/
structure Bordered (inset : Rat) (values : List Rat) : Prop where
  within {v : Rat} : v ∈ values → inset ≤ v ∧ v ≤ 1 - inset
  reached : (∃ v ∈ values, ∃ u ∈ values, v ≠ u) → inset ∈ values ∧ 1 - inset ∈ values
  centred : (∀ v ∈ values, ∀ u ∈ values, v = u) → ∀ v ∈ values, v = 1 / 2

namespace Blueprint

theorem exists_box {α : Type} [Scalar α] {b : Blueprint α} (h : b ≠ []) :
    ∃ box, Bounds.ofPoints? (b.map Prod.snd) = some box := by
  cases b with
  | nil => exact absurd rfl h
  | cons entry rest => exact ⟨_, rfl⟩

variable {inset low high : Rat}

theorem fitValue_of_lt (h : low < high) (span inset v : Rat) :
    fitValue span inset v low high = (v - low) / (high - low) * span + inset := by
  rw [fitValue, Scalar.lt_rat, decide_eq_true h]
  rfl

theorem fitValue_of_le (h : high ≤ low) (span inset v : Rat) : fitValue span inset v low high = 1 / 2 := by
  rw [fitValue, Scalar.lt_rat, decide_eq_false (not_lt.mpr h)]
  rfl

theorem fitValue_low (h : low < high) (span inset : Rat) : fitValue span inset low low high = inset := by
  rw [fitValue_of_lt h, sub_self, zero_div, zero_mul, zero_add]

theorem fitValue_high (h : low < high) (inset : Rat) : fitValue (1 - 2 * inset) inset high low high = 1 - inset := by
  rw [fitValue_of_lt h, div_self (sub_ne_zero.mpr h.ne')]
  linarith

theorem fitValue_strictMono (h : low < high) (hinset : inset < 1 / 2) :
    StrictMono fun v => fitValue (1 - 2 * inset) inset v low high := by
  intro v u hvu
  have hspan : 0 < 1 - 2 * inset := by linarith
  dsimp only
  rw [fitValue_of_lt h, fitValue_of_lt h]
  gcongr

/-- What was smaller stays smaller. -/
theorem fitValue_strictMonoOn {values : List Rat} (hspans : Spans values low high) (hinset : inset < 1 / 2) :
    StrictMonoOn (fun v => fitValue (1 - 2 * inset) inset v low high) {v | v ∈ values} := by
  intro v hv u hu hvu
  have hlow : low < high := (hspans.low_le hv).trans_lt (hvu.trans_le (hspans.le_high hu))
  exact fitValue_strictMono hlow hinset hvu

theorem bordered_fitValue {values : List Rat} (hspans : Spans values low high) (hinset : 0 ≤ inset ∧ inset < 1 / 2) :
    Bordered inset (values.map fun v => fitValue (1 - 2 * inset) inset v low high) := by
  rcases lt_or_ge low high with hlt | hle
  · have hlow : inset ∈ values.map fun v => fitValue (1 - 2 * inset) inset v low high :=
      List.mem_map.mpr ⟨low, hspans.low_mem, fitValue_low hlt _ _⟩
    have hhigh : 1 - inset ∈ values.map fun v => fitValue (1 - 2 * inset) inset v low high :=
      List.mem_map.mpr ⟨high, hspans.high_mem, fitValue_high hlt _⟩
    have hmono := (fitValue_strictMono hlt hinset.2).monotone
    refine ⟨fun {u} hu => ?_, fun _ => ⟨hlow, hhigh⟩, fun hsame => ?_⟩
    · obtain ⟨v, hv, rfl⟩ := List.mem_map.mp hu
      refine ⟨?_, ?_⟩
      · exact (fitValue_low hlt _ _).ge.trans (hmono (hspans.low_le hv))
      · exact (hmono (hspans.le_high hv)).trans (fitValue_high hlt _).le
    · have hends := hsame _ hlow _ hhigh
      linarith [hinset.2]
  · have hmiddle : ∀ u ∈ values.map fun v => fitValue (1 - 2 * inset) inset v low high, u = 1 / 2 := by
      intro u hu
      obtain ⟨v, -, rfl⟩ := List.mem_map.mp hu
      exact fitValue_of_le hle _ _ _
    refine ⟨fun {u} hu => ?_, ?_, fun _ => hmiddle⟩
    · rw [hmiddle u hu]
      constructor <;> linarith [hinset.2]
    · rintro ⟨v, hv, u, hu, hne⟩
      exact absurd ((hmiddle v hv).trans (hmiddle u hu).symm) hne

end Blueprint
end CallChart
