import CallChart.Proofs.Boxes
import CallChart.Proofs.NearestBits
import CallChart.Proofs.Spacing
import Mathlib.Data.Int.Interval

/-! Which way round an axis of doubles comes out of scaling. The distance between its first and its last cell has to fit
in 64 bits, as both of them do. Where it fits, the axis keeps its direction; where it does not, it overflows. -/
namespace CallChart

namespace Number

variable {x : Float} {v : Rat}

/-! ### Zero and one -/

theorem isFinite_zero : (Scalar.zero : Float).isFinite = true := (ofInt_isNearest 0).isFinite (by norm_num)

theorem value_zero : value (Scalar.zero : Float) = 0 := (ofInt_isNearest 0).2.trans nearest_zero

theorem one_le_value_one : 1 ≤ value (Scalar.one : Float) :=
  (one_le_nearest (by norm_num)).trans_eq (ofInt_isNearest 1).2.symm

theorem isZero_iff (h : x.isFinite = true) : Scalar.isZero x = true ↔ value x = 0 := by
  have hzero : Binary64.ofFloat 0.0 = .finite false 0 Binary64.minExponent := by decide +kernel
  have hvalue : value 0.0 = 0 := by
    rw [value, hzero]
    exact (congrArg (· * _) Nat.cast_zero).trans (zero_mul _)
  have hnan : Binary64.ofFloat 0.0 ≠ .nan := ne_nan_of_isFinite (isFinite_iff.mpr ⟨_, _, _, hzero⟩)
  rw [← hvalue]
  exact beq_iff.trans ⟨fun h => h.2.2, fun hx => ⟨ne_nan_of_isFinite h, hnan, hx⟩⟩

/-! ### A distance divided twice -/

/-- What is left of a distance when it is divided by a number of steps and by the precision, rounded each time. -/
def stepLength (distance steps precision : Rat) : Rat :=
  nearest (nearest (nearest distance / nearest steps) / precision)

/-- A distance is not lost in the divisions if the steps are no more than it. -/
theorem stepLength_pos {distance steps precision : Rat} (hsteps : 1 ≤ steps)
    (hprecision : 1 ≤ precision ∧ precision ≤ beyond) (h : steps ≤ distance) :
    0 < stepLength distance steps precision := by
  -- What is left after the precision, less than 2¹⁰²⁴, must not be below the least double, 2⁻¹⁰⁷⁴.
  have hmin : Binary64.minExponent = -1074 := rfl
  have hstep : 2 ^ (0 : Int) ≤ nearest (nearest distance / nearest steps) := by
    refine two_zpow_le_nearest (by omega) (by omega) ?_
    rw [zpow_zero, le_div_iff₀ (one_pos.trans_le (one_le_nearest hsteps)), one_mul]
    exact nearest_mono h
  have hrest : 2 ^ (-1024 : Int) ≤ nearest (nearest distance / nearest steps) / precision := by
    rw [← zero_sub (1024 : Int), zpow_sub₀ two_ne_zero]
    exact div_le_div₀ ((two_zpow_pos 0).le.trans hstep) hstep (one_pos.trans_le hprecision.1) hprecision.2
  exact (two_zpow_pos _).trans_le (two_zpow_le_nearest (by omega) (by omega) hrest)

theorem abs_div_le {u b : Rat} (hu : |u| ≤ b) (hv : 1 ≤ v) : |u / v| ≤ b := by
  rw [abs_div, abs_of_pos (one_pos.trans_le hv)]
  exact (div_le_self (abs_nonneg u) hv).trans hu

/-- Doubles that are divided so stay finite. -/
theorem value_divided {distance steps : Int} {precision : Float} (hdistance : |(distance : Rat)| ≤ 2 ^ (64 : Int))
    (hsteps : 1 ≤ (steps : Rat) ∧ (steps : Rat) ≤ 2 ^ (64 : Int)) (hfinite : precision.isFinite = true)
    (hprecision : 1 ≤ value precision) :
    let divided := Binary64.ofInt distance / Binary64.ofInt steps / precision
    divided.isFinite = true ∧ value divided = stepLength distance steps (value precision) := by
  have hd := ofInt_isNearest distance
  have hn := ofInt_isNearest steps
  have hone : 1 ≤ value (Binary64.ofInt steps) := (one_le_nearest hsteps.1).trans_eq hn.2.symm
  have hdfinite := hd.isFinite hdistance
  have hnfinite := hn.isFinite ((abs_of_pos (one_pos.trans_le hsteps.1)).trans_le hsteps.2)
  have hbound {v : Rat} (h : |v| ≤ 2 ^ (64 : Int)) : |nearest v| ≤ 2 ^ (64 : Int) :=
    abs_nearest_le (by decide) (by norm_num) h
  have hstep := div_isNearest hdfinite hnfinite (one_pos.trans_le hone).ne'
  have hstep_le : |value (Binary64.ofInt distance) / value (Binary64.ofInt steps)| ≤ 2 ^ (64 : Int) :=
    abs_div_le (hd.2 ▸ hbound hdistance) hone
  have hrest := div_isNearest (hstep.isFinite hstep_le) hfinite (one_pos.trans_le hprecision).ne'
  have hrest_le := abs_div_le (hstep.2 ▸ hbound hstep_le) hprecision
  refine ⟨hrest.isFinite hrest_le, ?_⟩
  rw [hrest.2, hstep.2, hd.2, hn.2]
  rfl

end Number

open Number

/-! ### Cells in 64 bits -/

def firstCell : Int := -2 ^ 63

def lastCell : Int := 2 ^ 63 - 1

theorem saturate_eq_self_iff (n : Int) : saturate n = n ↔ firstCell ≤ n ∧ n ≤ lastCell := by
  have hpow : Nat.pow 2 63 = 2 ^ 63 := rfl
  unfold saturate firstCell lastCell
  rw [hpow]
  omega

theorem checked_of_fits {n : Int} (hfirst : firstCell ≤ n) (hlast : n ≤ lastCell) : checked n = some n :=
  if_pos ((saturate_eq_self_iff n).mpr ⟨hfirst, hlast⟩)

theorem checked_of_overflow {n : Int} (h : lastCell < n) : checked n = none :=
  if_neg fun heq => ((saturate_eq_self_iff n).mp heq).2.not_gt h

namespace Blueprint

variable {gridSize precision : Float} {values : List Float} {first last : Int}

/-! ### The spacing -/

/-- The distance between the first and the last cell is more than 64 bits hold. -/
def Overflows (precision : Float) (values : List Float) : Prop :=
  ∃ first last : Int, IsLeast {k | k ∈ cells precision values} first ∧
    IsGreatest {k | k ∈ cells precision values} last ∧ lastCell < last - first

theorem size_cells_le (hfirst : IsLeast {k | k ∈ cells precision values} first)
    (hlast : IsGreatest {k | k ∈ cells precision values} last) :
    ((cells precision values).size : Int) ≤ last + 1 - first := by
  have hsub : (cells precision values).toList.toFinset ⊆ Finset.Icc first last := fun k hk => by
    rw [List.mem_toFinset, Std.TreeSet.mem_toList] at hk
    exact Finset.mem_Icc.mpr ⟨hfirst.2 hk, hlast.2 hk⟩
  have hcard := Finset.card_le_card hsub
  rw [card_toFinset_cells, Int.card_Icc] at hcard
  have := hfirst.2 hlast.1
  omega

theorem not_overflows_of_size_lt (h : (cells precision values).size < 2) : ¬ Overflows precision values := by
  rintro ⟨first, last, hfirst, hlast, hover⟩
  have hsame : first = last := by
    rw [← card_toFinset_cells, Nat.lt_succ_iff, Finset.card_le_one] at h
    refine h _ ?_ _ ?_
    · exact List.mem_toFinset.mpr (Std.TreeSet.mem_toList.mpr hfirst.1)
    · exact List.mem_toFinset.mpr (Std.TreeSet.mem_toList.mpr hlast.1)
  unfold lastCell at hover
  omega

section

variable (hfirst : IsLeast {k | k ∈ cells precision values} first)
  (hlast : IsGreatest {k | k ∈ cells precision values} last)

include hfirst hlast

theorem overflows_iff : Overflows precision values ↔ lastCell < last - first := by
  constructor
  · rintro ⟨first', last', hfirst', hlast', hover⟩
    rwa [hfirst.unique hfirst', hlast.unique hlast']
  · exact fun hover => ⟨first, last, hfirst, hlast, hover⟩

variable (htwo : 2 ≤ (cells precision values).size)

include htwo

theorem spacing_of_overflow (hover : lastCell < last - first) : spacing precision values = none := by
  rw [spacing_eq hfirst hlast htwo]
  change ((checked (last - first)).map _).map _ = none
  rw [checked_of_overflow hover]
  rfl

variable (hfits : last - first ≤ lastCell)

include hfits

theorem spacing_of_fits : spacing precision values = some (Binary64.ofInt (last - first) /
    Binary64.ofInt ((cells precision values).size - 1 : Nat) / precision) := by
  have hle := hfirst.2 hlast.1
  rw [spacing_eq hfirst hlast htwo]
  change ((checked (last - first)).map _).map _ = _
  rw [checked_of_fits (by unfold firstCell; omega) hfits]
  rfl

/-- A distance that fits is at least as much as the number of steps in it, so the divisions leave something of it. -/
theorem exists_spacing_pos (hfinite : precision.isFinite = true) (hprecision : 1 ≤ value precision) :
    ∃ gap, spacing precision values = some gap ∧ gap.isFinite = true ∧ 0 < value gap := by
  have hsize := size_cells_le hfirst hlast
  have hbeyond := (le_abs_self _).trans (abs_value_lt hfinite).le
  have hsteps : ((((cells precision values).size - 1 : Nat) : Int) : Rat) ≤ (last - first : Int) := by
    exact_mod_cast (by omega : (((cells precision values).size - 1 : Nat) : Int) ≤ last - first)
  have hone : (1 : Rat) ≤ (((cells precision values).size - 1 : Nat) : Int) := by
    exact_mod_cast (by omega : (1 : Int) ≤ ((cells precision values).size - 1 : Nat))
  have hdistance : ((last - first : Int) : Rat) ≤ 2 ^ (64 : Int) := by
    unfold lastCell at hfits
    exact_mod_cast (by omega : last - first ≤ 2 ^ 64)
  obtain ⟨hgap, hvalue⟩ := value_divided
    ((abs_of_pos (one_pos.trans_le (hone.trans hsteps))).trans_le hdistance) ⟨hone, hsteps.trans hdistance⟩ hfinite
    hprecision
  refine ⟨_, spacing_of_fits hfirst hlast htwo hfits, hgap, ?_⟩
  rw [hvalue]
  exact stepLength_pos hone ⟨hprecision, hbeyond⟩ hsteps

end

/-- What spacing values have: none if their distance overflows, else zero or a positive one. -/
inductive Spaced (precision : Float) (values : List Float) : Option Float → Prop where
  | overflow : Overflows precision values → Spaced precision values none
  | flat : (cells precision values).size < 2 → Spaced precision values (some Scalar.zero)
  | apart {gap : Float} : 2 ≤ (cells precision values).size → ¬ Overflows precision values → gap.isFinite = true →
      Scalar.zero < gap → Spaced precision values (some gap)

theorem spaced_spacing (hfinite : precision.isFinite = true) (hprecision : 1 ≤ value precision)
    (values : List Float) : Spaced precision values (spacing precision values) := by
  rcases Nat.lt_or_ge (cells precision values).size 2 with hfew | htwo
  · rw [spacing_eq_zero hfew]
    exact .flat hfew
  · obtain ⟨first, last, hfirst, hlast, -⟩ := exists_first_last htwo
    rcases lt_or_ge lastCell (last - first) with hover | hfits
    · rw [spacing_of_overflow hfirst hlast htwo hover]
      exact .overflow ((overflows_iff hfirst hlast).mpr hover)
    · obtain ⟨gap, hspacing, hgap, hpos⟩ := exists_spacing_pos hfirst hlast htwo hfits hfinite hprecision
      rw [hspacing]
      exact .apart htwo (mt (overflows_iff hfirst hlast).mp hfits.not_gt) hgap
        (lt_of_value_lt isFinite_zero hgap (value_zero.trans_lt hpos))

theorem Spaced.eq_none_iff {gap : Option Float} (h : Spaced precision values gap) :
    gap = none ↔ Overflows precision values := by
  cases h with
  | overflow hover => exact iff_of_true rfl hover
  | flat hfew => exact iff_of_false (Option.some_ne_none _) (not_overflows_of_size_lt hfew)
  | apart _ hfits => exact iff_of_false (Option.some_ne_none _) hfits

theorem Spaced.nonneg {gap : Float} (h : Spaced precision values (some gap)) :
    gap.isFinite = true ∧ 0 ≤ value gap := by
  cases h with
  | flat => exact ⟨isFinite_zero, value_zero.ge⟩
  | apart _ _ hfinite hpos => exact ⟨hfinite, (value_zero.symm.trans_lt (lt_iff.mp hpos).2.2).le⟩

theorem ends_of_toList (hcells : (cells precision values).toList = [first, last]) (hle : first ≤ last) :
    IsLeast {k | k ∈ cells precision values} first ∧ IsGreatest {k | k ∈ cells precision values} last := by
  have hmem (k : Int) : k ∈ cells precision values ↔ k = first ∨ k = last := by
    rw [← Std.TreeSet.mem_toList, hcells]
    simp
  refine ⟨⟨(hmem _).mpr (.inl rfl), fun k hk => ?_⟩, (hmem _).mpr (.inr rfl), fun k hk => ?_⟩
  · rcases (hmem k).mp hk with rfl | rfl
    · exact le_rfl
    · exact hle
  · rcases (hmem k).mp hk with rfl | rfl
    · exact hle
    · exact le_rfl

/-- Neither of two values is beyond 64 bits, and yet they are too far apart. -/
theorem cells_far : (cells (LayoutSettings.standard : LayoutSettings Float).precision [-5e15, 5e15]).toList =
    [-5 * 10 ^ 18, 5 * 10 ^ 18] := by decide +kernel

theorem spacing_far : spacing (LayoutSettings.standard : LayoutSettings Float).precision [-5e15, 5e15] = none := by
  obtain ⟨hfirst, hlast⟩ := ends_of_toList cells_far (by decide)
  exact spacing_of_overflow hfirst hlast (by decide +kernel) (by decide)

/-! ### Scaling -/

theorem value_factor_nonneg {gap : Float} (hgrid : gridSize.isFinite = true) (hpos : 0 ≤ value gridSize)
    (hgap : gap.isFinite = true) (h : 0 ≤ value gap) : 0 ≤ value (factor gridSize gap) := by
  unfold factor
  split
  · exact zero_le_one.trans one_le_value_one
  · next hne =>
    rw [(div_isNearest hgrid hgap (mt (isZero_iff hgap).mpr hne)).2]
    exact nearest_nonneg (div_nonneg hpos h)

/-- No value falls behind one that was smaller. Different values can be scaled to equal ones, or to no number. -/
def KeepsOrder (values values' : List Float) : Prop :=
  ∀ e ∈ values.zip values', ∀ e' ∈ values.zip values', e.1 < e'.1 → ¬ e'.2 < e.2

theorem keepsOrder_map_mul {f : Float} (hfinite : ∀ v ∈ values, v.isFinite = true) (hf : 0 ≤ value f) :
    KeepsOrder values (values.map (· * f)) := by
  have hscaled {e : Float × Float} (h : e ∈ values.zip (values.map (· * f))) : e.1 ∈ values ∧ e.2 = e.1 * f := by
    rw [← List.map_prod_left_eq_zip] at h
    obtain ⟨v, hv, rfl⟩ := List.mem_map.mp h
    exact ⟨hv, rfl⟩
  intro e he e' he' hlt
  obtain ⟨hv, heq⟩ := hscaled he
  obtain ⟨hv', heq'⟩ := hscaled he'
  rw [heq, heq']
  exact not_mul_lt_mul (hfinite _ hv) (hfinite _ hv') hf hlt

theorem keepsOrder_self (values : List Float) : KeepsOrder values values := by
  have hsame {e : Float × Float} (he : e ∈ values.zip values) : e.1 = e.2 := by
    have hzip : (values.map fun v => (v, v)) = values.zip values := by
      rw [List.map_prod_left_eq_zip, List.map_id']
    obtain ⟨v, -, rfl⟩ := List.mem_map.mp (hzip ▸ he)
    rfl
  intro e he e' he' hlt hgt
  rw [← hsame he, ← hsame he'] at hgt
  exact (lt_iff.mp hlt).2.2.asymm (lt_iff.mp hgt).2.2

variable {settings : LayoutSettings Float} {b : Blueprint Float}

/-- Of finite positions and settings in use: an axis has a spacing unless the distance between its first and its last
cell overflows, and then the drawing is not scaled at all. The spacing is zero if there is one cell, and positive if
there are more. A drawing that is scaled keeps its nodes, and no axis is mirrored. -/
theorem normalize_oriented (hsettings : settings.check = .ok ()) (hfinite : ∀ entry ∈ b, entry.2.isFinite = true) :
    let xs := b.map (·.2.x)
    let ys := b.map (·.2.y)
    Spaced settings.precision xs (spacing settings.precision xs) ∧
      Spaced settings.precision ys (spacing settings.precision ys) ∧
      (b.normalize settings.gridSize settings.precision = none ↔
        Overflows settings.precision xs ∨ Overflows settings.precision ys) ∧
      ∀ b', b.normalize settings.gridSize settings.precision = some b' → b'.map Prod.fst = b.map Prod.fst ∧
        KeepsOrder xs (b'.map (·.2.x)) ∧ KeepsOrder ys (b'.map (·.2.y)) := by
  intro xs ys
  obtain ⟨⟨hgrid, hgridFinite⟩, -, hprecision, hprecisionFinite⟩ := LayoutSettings.check_eq_ok.mp hsettings
  have hpos : 0 ≤ value settings.gridSize :=
    (value_zero.symm.trans_lt (lt_iff.mp (of_decide_eq_true hgrid)).2.2).le
  have hone : 1 ≤ value settings.precision := one_le_value_one.trans (le_iff.mp (of_decide_eq_true hprecision)).2.2
  have hx := spaced_spacing hprecisionFinite hone xs
  have hy := spaced_spacing hprecisionFinite hone ys
  rcases Nat.lt_or_ge b.length 2 with hshort | hlong
  · have hfits (axis : NodeId × Point Float → Float) : ¬ Overflows settings.precision (b.map axis) :=
      not_overflows_of_size_lt
        ((Std.TreeSet.size_ofList_le.trans_eq (List.length_map _)).trans_lt ((List.length_map _).trans_lt hshort))
    rw [normalize_of_short hshort]
    refine ⟨hx, hy, iff_of_false (Option.some_ne_none b) (not_or_intro (hfits _) (hfits _)), ?_⟩
    rintro b' ⟨⟩
    exact ⟨rfl, keepsOrder_self _, keepsOrder_self _⟩
  · refine ⟨hx, hy, ?_, fun b' hscaled => ⟨ids_normalize hscaled, ?_⟩⟩
    · rw [← hx.eq_none_iff, ← hy.eq_none_iff, normalize_eq_none_iff hlong]
    · obtain ⟨gapX, gapY, hgapX, hgapY, rfl⟩ := (normalize_eq_some_iff hlong).mp hscaled
      have haxis (axis : Point Float → Float) (hcoordinate : ∀ p, p.isFinite = true → (axis p).isFinite = true)
          {gap : Float} (hgap : gap.isFinite = true ∧ 0 ≤ value gap) :
          KeepsOrder (b.map fun entry => axis entry.2)
            ((b.map fun entry => axis entry.2).map (· * factor settings.gridSize gap)) := by
        refine keepsOrder_map_mul (fun v hv => ?_) (value_factor_nonneg hgridFinite hpos hgap.1 hgap.2)
        obtain ⟨entry, hentry, rfl⟩ := List.mem_map.mp hv
        exact hcoordinate _ (hfinite entry hentry)
      have hxs := haxis Point.x (fun p hp => (Bool.and_eq_true _ _ ▸ hp).1) (hgapX ▸ hx).nonneg
      have hys := haxis Point.y (fun p hp => (Bool.and_eq_true _ _ ▸ hp).2) (hgapY ▸ hy).nonneg
      rw [List.map_map] at hxs hys
      rw [scale, List.map_map, List.map_map]
      exact ⟨hxs, hys⟩

/-- Two nodes 9 · 10¹⁵ apart, whose distance fits. -/
theorem near_nodes_oriented :
    let settings : LayoutSettings Float := .standard
    let b : Blueprint Float := [(⟨0⟩, ⟨-4e15, 0⟩), (⟨1⟩, ⟨5e15, 0⟩)]
    settings.check = .ok () ∧ (∀ entry ∈ b, entry.2.isFinite = true) ∧
      ∃ b', b.normalize settings.gridSize settings.precision = some b' ∧ b'.map Prod.fst = [⟨0⟩, ⟨1⟩] ∧
        KeepsOrder [-4e15, 5e15] (b'.map (·.2.x)) := by
  intro settings b
  have hsettings : settings.check = .ok () := LayoutSettings.check_eq_ok.mpr (by decide +kernel)
  have hfinite : ∀ entry ∈ b, entry.2.isFinite = true := by decide +kernel
  have hcells : (cells settings.precision [-4e15, 5e15]).toList = [-4 * 10 ^ 18, 5 * 10 ^ 18] := by decide +kernel
  have hrow : (cells settings.precision [0, 0]).size < 2 := by decide +kernel
  obtain ⟨hfirst, hlast⟩ := ends_of_toList hcells (by decide)
  obtain ⟨-, -, hnone, hsome⟩ := normalize_oriented hsettings hfinite
  have hfits : ¬ Overflows settings.precision [-4e15, 5e15] := mt (overflows_iff hfirst hlast).mp (by decide)
  obtain ⟨b', hscaled⟩ := Option.ne_none_iff_exists'.mp
    (mt hnone.mp (not_or_intro hfits (not_overflows_of_size_lt hrow)))
  obtain ⟨hids, hx, -⟩ := hsome b' hscaled
  exact ⟨hsettings, hfinite, b', hscaled, hids, hx⟩

/-- Two nodes 10¹⁶ apart cannot be scaled, although neither end of the 64 bits is reached. -/
theorem far_nodes_overflow :
    let settings : LayoutSettings Float := .standard
    let b : Blueprint Float := [(⟨0⟩, ⟨-5e15, 0⟩), (⟨1⟩, ⟨5e15, 0⟩)]
    settings.check = .ok () ∧ (∀ entry ∈ b, entry.2.isFinite = true) ∧
      (cells settings.precision (b.map (·.2.x))).toList = [-5 * 10 ^ 18, 5 * 10 ^ 18] ∧
      (firstCell < -5 * 10 ^ 18 ∧ 5 * 10 ^ 18 < lastCell ∧ lastCell < 5 * 10 ^ 18 - -5 * 10 ^ 18) ∧
      spacing settings.precision (b.map (·.2.x)) = none ∧
      b.normalize settings.gridSize settings.precision = none := by
  intro settings b
  have hsettings : settings.check = .ok () := LayoutSettings.check_eq_ok.mpr (by decide +kernel)
  exact ⟨hsettings, by decide +kernel, cells_far, by decide, spacing_far,
    (normalize_eq_none_iff (by decide)).mpr (.inl spacing_far)⟩

end Blueprint
end CallChart
