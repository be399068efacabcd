import CallChart.Proofs.Tiers
import Mathlib.Data.Finset.Max
import Mathlib.Tactic.FieldSimp
import Mathlib.Tactic.LinearCombination

/-! How large an exact drawing is after its axes have been scaled. The distances between its rows and columns are
measured on rounded coordinates, while the coordinates that are scaled are not rounded. So the size that the number of
rows and columns asks for is met up to what rounding can add, and is met exactly where there is nothing to round. -/
namespace CallChart

/-! ### Rounding -/

namespace Scalar

theorem cell_of_neg {x : Rat} (h : x < 0) : cell x = -(1 / 2 - x).floor := if_pos h

theorem cell_of_nonneg {x : Rat} (h : 0 ≤ x) : cell x = (x + 1 / 2).floor := if_neg (not_lt.mpr h)

/-- A number is at most a half away from its cell. -/
theorem abs_cell_sub_le (x : Rat) : |(cell x : Rat) - x| ≤ 1 / 2 := by
  rcases lt_or_ge x 0 with hneg | hnonneg
  · have hle := Rat.floor_le (1 / 2 - x)
    have hlt := Rat.lt_floor_add_one (1 / 2 - x)
    rw [Int.cast_add, Int.cast_one] at hlt
    rw [cell_of_neg hneg, Int.cast_neg, abs_le]
    constructor <;> linarith
  · have hle := Rat.floor_le (x + 1 / 2)
    have hlt := Rat.lt_floor_add_one (x + 1 / 2)
    rw [Int.cast_add, Int.cast_one] at hlt
    rw [cell_of_nonneg hnonneg, abs_le]
    constructor <;> linarith

theorem cell_nonpos {x : Rat} (h : x < 0) : cell x ≤ 0 := by
  have hfloor : (0 : Int) ≤ (1 / 2 - x).floor := by
    rw [Rat.le_floor_iff, Int.cast_zero]
    linarith
  rw [cell_of_neg h]
  omega

theorem cell_nonneg {x : Rat} (h : 0 ≤ x) : 0 ≤ cell x := by
  rw [cell_of_nonneg h, Rat.le_floor_iff, Int.cast_zero]
  linarith

theorem cell_le_cell {x y : Rat} (hxy : x ≤ y) : cell x ≤ cell y := by
  rcases lt_or_ge y 0 with hy | hy
  · rw [cell_of_neg (hxy.trans_lt hy), cell_of_neg hy, neg_le_neg_iff]
    exact Rat.floor_monotone (sub_le_sub_left hxy _)
  · rcases lt_or_ge x 0 with hx | hx
    · exact (cell_nonpos hx).trans (cell_nonneg hy)
    · rw [cell_of_nonneg hx, cell_of_nonneg hy]
      exact Rat.floor_monotone (by linarith)

/-- An integer is its own cell. -/
theorem cell_intCast (k : Int) : cell (k : Rat) = k := by
  have hnear : |((cell (k : Rat) - k : Int) : Rat)| < 1 := by
    rw [Int.cast_sub]
    exact (abs_cell_sub_le _).trans_lt (by norm_num)
  rw [← Int.cast_abs, ← Int.cast_one, Int.cast_lt, Int.abs_lt_one_iff] at hnear
  exact sub_eq_zero.mp hnear

end Scalar

/-! ### Rows and columns -/

/-- The distance between the ends is stretched as the values are. -/
theorem Spans.map_mul {values : List Rat} {low high c : Rat} (h : Spans values low high) (hc : 0 ≤ c) :
    Spans (values.map (· * c)) (low * c) (high * c) where
  low_mem := List.mem_map_of_mem h.low_mem
  high_mem := List.mem_map_of_mem h.high_mem
  low_le hu := by
    obtain ⟨v, hv, rfl⟩ := List.mem_map.mp hu
    exact mul_le_mul_of_nonneg_right (h.low_le hv) hc
  le_high hu := by
    obtain ⟨v, hv, rfl⟩ := List.mem_map.mp hu
    exact mul_le_mul_of_nonneg_right (h.le_high hv) hc

theorem exists_spans {values : List Rat} (h : values ≠ []) : ∃ low high, Spans values low high := by
  obtain ⟨low, hlow⟩ := Option.isSome_iff_exists.mp (List.isSome_min?_of_ne_nil h)
  obtain ⟨high, hhigh⟩ := Option.isSome_iff_exists.mp (List.isSome_max?_of_ne_nil h)
  obtain ⟨hlow, hleast⟩ := List.min?_eq_some_iff.mp hlow
  obtain ⟨hhigh, hgreatest⟩ := List.max?_eq_some_iff.mp hhigh
  exact ⟨low, high, hlow, hhigh, fun {v} hv => hleast v hv, fun {v} hv => hgreatest v hv⟩

namespace Blueprint

variable {gridSize precision gap low high : Rat} {values : List Rat}

/-- The cells that values lie in. A cell is a row or a column of the drawing. -/
def levels (precision : Rat) (values : List Rat) : Finset Int :=
  (values.map fun v => Scalar.cell (v * precision)).toFinset

theorem mem_levels {k : Int} : k ∈ levels precision values ↔ ∃ v ∈ values, Scalar.cell (v * precision) = k := by
  rw [levels, List.mem_toFinset, List.mem_map]

theorem toFinset_cells (precision : Rat) (values : List Rat) :
    (cells precision values).toList.toFinset = levels precision values := by
  ext k
  rw [List.mem_toFinset, Std.TreeSet.mem_toList, mem_cells_iff, mem_levels]

theorem size_cells (precision : Rat) (values : List Rat) :
    (cells precision values).size = (levels precision values).card := by
  rw [← card_toFinset_cells, toFinset_cells]

theorem steps_pos (htwo : 2 ≤ (levels precision values).card) : (0 : Rat) < (levels precision values).card - 1 :=
  sub_pos.mpr (Nat.one_lt_cast.mpr htwo)

theorem card_levels_le (precision : Rat) (values : List Rat) : (levels precision values).card ≤ values.length :=
  (List.toFinset_card_le _).trans_eq (List.length_map _)

/-- The least value lies in the first cell. -/
theorem isLeast_levels (hprecision : 0 < precision) (h : Spans values low high) :
    IsLeast (levels precision values : Set Int) (Scalar.cell (low * precision)) := by
  refine ⟨mem_levels.mpr ⟨low, h.low_mem, rfl⟩, fun k hk => ?_⟩
  obtain ⟨v, hv, rfl⟩ := mem_levels.mp hk
  exact Scalar.cell_le_cell (mul_le_mul_of_nonneg_right (h.low_le hv) hprecision.le)

/-- The greatest value lies in the last cell. -/
theorem isGreatest_levels (hprecision : 0 < precision) (h : Spans values low high) :
    IsGreatest (levels precision values : Set Int) (Scalar.cell (high * precision)) := by
  refine ⟨mem_levels.mpr ⟨high, h.high_mem, rfl⟩, fun k hk => ?_⟩
  obtain ⟨v, hv, rfl⟩ := mem_levels.mp hk
  exact Scalar.cell_le_cell (mul_le_mul_of_nonneg_right (h.le_high hv) hprecision.le)

/-! ### The distance between rows -/

theorem spacing_of_two_le {first last : Int} (hfirst : IsLeast (levels precision values : Set Int) first)
    (hlast : IsGreatest (levels precision values : Set Int) last) (htwo : 2 ≤ (levels precision values).card) :
    spacing precision values =
      some (((last - first : Int) : Rat) / ((levels precision values).card - 1) / precision) := by
  have hcount : (Scalar.ofNat ((levels precision values).card - 1) : Rat) = (levels precision values).card - 1 := by
    change (((levels precision values).card - 1 : Nat) : Rat) = _
    rw [Nat.cast_sub (by omega), Nat.cast_one]
  rw [← toFinset_cells, coe_toFinset_cells] at hfirst hlast
  rw [spacing_eq hfirst hlast (htwo.trans_eq (size_cells _ _).symm), size_cells, hcount]
  rfl

theorem spacing_of_card_lt (h : (levels precision values).card < 2) : spacing precision values = some 0 :=
  spacing_eq_zero ((size_cells _ _).trans_lt h)

/-! ### Scaling one axis -/

def scaled (gridSize gap : Rat) (values : List Rat) : List Rat := values.map (· * factor gridSize gap)

theorem factor_of_card_lt (hgap : spacing precision values = some gap) (h : (levels precision values).card < 2) :
    factor gridSize gap = 1 := by
  obtain rfl := Option.some.inj ((spacing_of_card_lt h).symm.trans hgap)
  rfl

theorem factor_of_spacing_pos (h : 0 < gap) : factor gridSize gap = gridSize / gap :=
  if_neg fun hzero => h.ne' (beq_iff_eq.mp hzero)

theorem scaled_of_card_lt (hgap : spacing precision values = some gap) (h : (levels precision values).card < 2) :
    scaled gridSize gap values = values := by
  rw [scaled, factor_of_card_lt hgap h]
  simp

section

variable (hgap : spacing precision values = some gap) (hprecision : 0 < precision) (h : Spans values low high)
  (htwo : 2 ≤ (levels precision values).card)

include hgap hprecision h htwo

theorem spacing_eq_cells : gap = ((Scalar.cell (high * precision) - Scalar.cell (low * precision) : Int) : Rat) /
    ((levels precision values).card - 1) / precision := by
  have hspacing := spacing_of_two_le (isLeast_levels hprecision h) (isGreatest_levels hprecision h) htwo
  exact Option.some.inj (hgap.symm.trans hspacing)

theorem spacing_pos : 0 < gap := by
  have hspan : (0 : Rat) < ((Scalar.cell (high * precision) - Scalar.cell (low * precision) : Int) : Rat) :=
    Int.cast_pos.mpr (Int.sub_pos.mpr
      (first_lt_last (isLeast_levels hprecision h) (isGreatest_levels hprecision h) htwo))
  rw [spacing_eq_cells hgap hprecision h htwo]
  exact div_pos (div_pos hspan (steps_pos htwo)) hprecision

/-- The size of the scaled axis is off by what the ends are from their cells. -/
theorem extent_scaled_sub (hgrid : 0 < gridSize) :
    extent (scaled gridSize gap values) - ((levels precision values).card - 1) * gridSize =
      ((Scalar.cell (low * precision) - low * precision) - (Scalar.cell (high * precision) - high * precision)) *
        (gridSize / (gap * precision)) := by
  have hpos := spacing_pos hgap hprecision h htwo
  have hfactor : 0 ≤ gridSize / gap := (div_pos hgrid hpos).le
  have hsteps := steps_pos htwo
  have hspan : gap * precision * ((levels precision values).card - 1) =
      Scalar.cell (high * precision) - Scalar.cell (low * precision) := by
    rw [spacing_eq_cells hgap hprecision h htwo, Int.cast_sub]
    field_simp
  rw [scaled, factor_of_spacing_pos hpos, (h.map_mul hfactor).extent_eq]
  field_simp
  linear_combination -hspan

/-- Both ends together are at most one cell off. -/
theorem abs_extent_scaled_sub_le (hgrid : 0 < gridSize) :
    |extent (scaled gridSize gap values) - ((levels precision values).card - 1) * gridSize| ≤
      gridSize / (gap * precision) := by
  have hstep : 0 ≤ gridSize / (gap * precision) :=
    (div_pos hgrid (mul_pos (spacing_pos hgap hprecision h htwo) hprecision)).le
  have hround := abs_sub (Scalar.cell (low * precision) - low * precision)
    (Scalar.cell (high * precision) - high * precision)
  rw [extent_scaled_sub hgap hprecision h htwo hgrid, abs_mul, abs_of_nonneg hstep]
  refine mul_le_of_le_one_left hstep ?_
  linarith [Scalar.abs_cell_sub_le (low * precision), Scalar.abs_cell_sub_le (high * precision)]

/-- Where no value has to be rounded, no end is off. -/
theorem extent_scaled_of_multiples (hgrid : 0 < gridSize) (hmultiple : ∀ v ∈ values, ∃ k : Int, v = k / precision) :
    extent (scaled gridSize gap values) = ((levels precision values).card - 1) * gridSize := by
  have hround {v : Rat} (hv : v ∈ values) : (Scalar.cell (v * precision) : Rat) - v * precision = 0 := by
    obtain ⟨k, rfl⟩ := hmultiple v hv
    rw [div_mul_cancel₀ _ hprecision.ne', Scalar.cell_intCast, sub_self]
  rw [← sub_eq_zero, extent_scaled_sub hgap hprecision h htwo hgrid, hround h.low_mem, hround h.high_mem, sub_self,
    zero_mul]

end

/-- Values on an axis, the distance between their rows, and the values beside them in the scaled drawing. -/
structure Gridded (gridSize precision gap : Rat) (values values' : List Rat) : Prop where
  length : values'.length = values.length
  gap_eq : spacing precision values = some gap
  /-- Where there is only one row, nothing is scaled. -/
  flat : (levels precision values).card < 2 → values' = values
  /-- The distance between rows is the mean of those between neighbouring cells. -/
  apart : 2 ≤ (levels precision values).card → 0 < gap ∧
    ∃ first last : Int, IsLeast (levels precision values : Set Int) first ∧
      IsGreatest (levels precision values : Set Int) last ∧
      gap = ((last - first : Int) : Rat) / ((levels precision values).card - 1) / precision
  near : 2 ≤ (levels precision values).card →
    |extent values' - ((levels precision values).card - 1) * gridSize| ≤ gridSize / (gap * precision)
  exact : 2 ≤ (levels precision values).card → (∀ v ∈ values, ∃ k : Int, v = k / precision) →
    extent values' = ((levels precision values).card - 1) * gridSize
  ordered : ∀ e ∈ values.zip values', ∀ e' ∈ values.zip values',
    (e.2 < e'.2 ↔ e.1 < e'.1) ∧ (e.2 = e'.2 ↔ e.1 = e'.1)

theorem gridded_scaled (hgrid : 0 < gridSize) (hprecision : 0 < precision)
    (hgap : spacing precision values = some gap) :
    Gridded gridSize precision gap values (scaled gridSize gap values) := by
  have hspans (htwo : 2 ≤ (levels precision values).card) : ∃ low high, Spans values low high := by
    refine exists_spans ?_
    rintro rfl
    cases htwo
  refine ⟨List.length_map _, hgap, scaled_of_card_lt hgap, fun htwo => ?_, fun htwo => ?_, fun htwo hmultiple => ?_, ?_⟩
  · obtain ⟨low, high, h⟩ := hspans htwo
    exact ⟨spacing_pos hgap hprecision h htwo, _, _, isLeast_levels hprecision h, isGreatest_levels hprecision h,
      spacing_eq_cells hgap hprecision h htwo⟩
  · obtain ⟨low, high, h⟩ := hspans htwo
    exact abs_extent_scaled_sub_le hgap hprecision h htwo hgrid
  · obtain ⟨low, high, h⟩ := hspans htwo
    exact extent_scaled_of_multiples hgap hprecision h htwo hgrid hmultiple
  · have hfactor : 0 < factor gridSize gap := factor_pos hgrid (spacing_nonneg hprecision hgap)
    have hstretched {e : Rat × Rat} (he : e ∈ values.zip (scaled gridSize gap values)) :
        e.2 = e.1 * factor gridSize gap := by
      rw [scaled, ← List.map_prod_left_eq_zip] at he
      obtain ⟨v, -, rfl⟩ := List.mem_map.mp he
      rfl
    intro e he e' he'
    rw [hstretched he, hstretched he', mul_lt_mul_iff_left₀ hfactor, mul_left_inj' hfactor.ne']
    exact ⟨Iff.rfl, Iff.rfl⟩

/-! ### Scaling a drawing -/

/-- A drawing is scaled on both axes; a single point is where it would be then, as one value is one row. -/
theorem normalize_eq_scale {gapX gapY : Rat} {b : Blueprint Rat}
    (hx : spacing precision (b.map (·.2.x)) = some gapX) (hy : spacing precision (b.map (·.2.y)) = some gapY) :
    b.normalize gridSize precision = some (b.scale gridSize gapX gapY) := by
  rcases Nat.lt_or_ge b.length 2 with hshort | hlong
  · have hone {gap : Rat} {axis : NodeId × Point Rat → Rat} (h : spacing precision (b.map axis) = some gap) :
        factor gridSize gap = 1 := by
      refine factor_of_card_lt h ((card_levels_le precision _).trans_lt ?_)
      rwa [List.length_map]
    rw [normalize_of_short hshort, scale, hone hx, hone hy]
    simp only [mul_one]
    exact congrArg some (List.map_id b).symm
  · exact (normalize_eq_some_iff hlong).mpr ⟨gapX, gapY, hx, hy, rfl⟩

/-- Exact drawings can be scaled. A scaled drawing has the same nodes in the same order, and each of its axes is as
large as its rows or columns ask for, up to what rounding can add. -/
theorem normalize_gridded (hgrid : 0 < gridSize) (hprecision : 0 < precision) (b : Blueprint Rat) :
    ∃ b' gapX gapY, b.normalize gridSize precision = some b' ∧ b'.map Prod.fst = b.map Prod.fst ∧
      Gridded gridSize precision gapX (b.map (·.2.x)) (b'.map (·.2.x)) ∧
      Gridded gridSize precision gapY (b.map (·.2.y)) (b'.map (·.2.y)) := by
  obtain ⟨gapX, hx, -⟩ := exists_spacing hprecision (b.map (·.2.x))
  obtain ⟨gapY, hy, -⟩ := exists_spacing hprecision (b.map (·.2.y))
  refine ⟨b.scale gridSize gapX gapY, gapX, gapY, normalize_eq_scale hx hy, ids_scale _ _ _ b, ?_, ?_⟩
  · have hscaled : (b.scale gridSize gapX gapY).map (·.2.x) = scaled gridSize gapX (b.map (·.2.x)) := by
      rw [scale, scaled, List.map_map, List.map_map]
      rfl
    exact hscaled ▸ gridded_scaled hgrid hprecision hx
  · have hscaled : (b.scale gridSize gapX gapY).map (·.2.y) = scaled gridSize gapY (b.map (·.2.y)) := by
      rw [scale, scaled, List.map_map, List.map_map]
      rfl
    exact hscaled ▸ gridded_scaled hgrid hprecision hy

/-- Four nodes in one row, two of them so close to each other that they are in one column. -/
theorem close_columns_scaled :
    let b : Blueprint Rat := [(⟨0⟩, ⟨-36, 5⟩), (⟨1⟩, ⟨1 / 2500, 5⟩), (⟨2⟩, ⟨0, 5⟩), (⟨3⟩, ⟨36 + 1 / 2500, 5⟩)]
    (0 : Rat) < 1 / 10 ∧ (0 : Rat) < 1000 ∧ (levels 1000 (b.map (·.2.x))).card = 3 ∧
      spacing 1000 (b.map (·.2.x)) = some 36 ∧ ∃ b', b.normalize (1 / 10) 1000 = some b' ∧
        |extent (b'.map (·.2.x)) - 2 * (1 / 10)| ≤ 1 / 10 / (36 * 1000) ∧
        b'.map (·.2.y) = [5, 5, 5, 5] ∧ b'.map Prod.fst = [⟨0⟩, ⟨1⟩, ⟨2⟩, ⟨3⟩] := by
  intro b
  have hgrid : (0 : Rat) < 1 / 10 := by norm_num
  have hprecision : (0 : Rat) < 1000 := by norm_num
  have hcolumns : levels 1000 (b.map (·.2.x)) = {-36000, 0, 36000} := by decide +kernel
  have hrows : (levels 1000 (b.map (·.2.y))).card < 2 := by decide +kernel
  have hthree : (levels 1000 (b.map (·.2.x))).card = 3 := by rw [hcolumns]; rfl
  have htwo : 2 ≤ (levels 1000 (b.map (·.2.x))).card := by omega
  have hspacing : spacing 1000 (b.map (·.2.x)) = some 36 := by
    have hfirst : IsLeast (levels 1000 (b.map (·.2.x)) : Set Int) (-36000) := by
      rw [hcolumns]
      exact ⟨by simp, by simp [lowerBounds]⟩
    have hlast : IsGreatest (levels 1000 (b.map (·.2.x)) : Set Int) 36000 := by
      rw [hcolumns]
      exact ⟨by simp, by simp [upperBounds]⟩
    rw [spacing_of_two_le hfirst hlast htwo, hthree]
    norm_num
  obtain ⟨b', gapX, gapY, hscaled, hids, hx, hy⟩ := normalize_gridded hgrid hprecision b
  have hsteps : ((3 : Nat) : Rat) - 1 = 2 := by norm_num
  obtain rfl : 36 = gapX := Option.some.inj (hspacing.symm.trans hx.gap_eq)
  have hnear := hx.near htwo
  rw [hthree, hsteps] at hnear
  exact ⟨hgrid, hprecision, hthree, hspacing, b', hscaled, hnear, hy.flat hrows, hids⟩

end Blueprint
end CallChart
