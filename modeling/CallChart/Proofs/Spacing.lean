import CallChart.Gather
import CallChart.Layout.Grid
import Mathlib.Data.Finset.Max

/-! The spacing of values, and what a drawing comes to that is scaled by it. The distance between the outermost cells
may overflow, and then there is neither. -/
namespace CallChart
namespace Blueprint

variable {α : Type} [Scalar α] {gridSize precision : α} {values : List α} {first last : Int} {b b' : Blueprint α}

/-! ### Cells -/

theorem mem_cells_iff {k : Int} : k ∈ cells precision values ↔ ∃ v ∈ values, Scalar.cell (v * precision) = k := by
  rw [cells, mem_ofList_iff]
  simp [Listed]

/-- The cells as a finite set, of which the number of elements is the size. -/
theorem card_toFinset_cells (precision : α) (values : List α) :
    (cells precision values).toList.toFinset.card = (cells precision values).size := by
  have hnodup : (cells precision values).toList.Nodup :=
    Std.TreeSet.distinct_toList.imp fun h heq => h (compare_eq_iff_eq.mpr heq)
  rw [List.toFinset_card_of_nodup hnodup, Std.TreeSet.length_toList]

theorem coe_toFinset_cells (precision : α) (values : List α) :
    ((cells precision values).toList.toFinset : Set Int) = {k | k ∈ cells precision values} := by
  ext k
  rw [Finset.mem_coe, List.mem_toFinset, Std.TreeSet.mem_toList, Set.mem_ofPred_eq]

theorem size_cells_lt_two (h : ∀ u ∈ values, ∀ v ∈ values, u = v) : (cells precision values).size < 2 := by
  rw [← card_toFinset_cells, Nat.lt_succ_iff, Finset.card_le_one]
  intro j hj k hk
  rw [List.mem_toFinset, Std.TreeSet.mem_toList, mem_cells_iff] at hj hk
  obtain ⟨u, hu, rfl⟩ := hj
  obtain ⟨v, hv, rfl⟩ := hk
  rw [h u hu v hv]

theorem first_lt_last {cells : Finset Int} (hfirst : IsLeast (cells : Set Int) first)
    (hlast : IsGreatest (cells : Set Int) last) (htwo : 2 ≤ cells.card) : first < last := by
  obtain ⟨a, ha, b, hb, hne⟩ := Finset.one_lt_card.mp htwo
  have ha' := And.intro (hfirst.2 ha) (hlast.2 ha)
  have hb' := And.intro (hfirst.2 hb) (hlast.2 hb)
  omega

theorem exists_first_last (htwo : 2 ≤ (cells precision values).size) :
    ∃ first last : Int, IsLeast {k | k ∈ cells precision values} first ∧
      IsGreatest {k | k ∈ cells precision values} last ∧ first < last := by
  rw [← card_toFinset_cells] at htwo
  have hnonempty := Finset.card_pos.mp (Nat.lt_of_lt_of_le Nat.zero_lt_two htwo)
  have hfirst := Finset.isLeast_min' _ hnonempty
  have hlast := Finset.isGreatest_max' _ hnonempty
  rw [← coe_toFinset_cells]
  exact ⟨_, _, hfirst, hlast, first_lt_last hfirst hlast htwo⟩

/-! ### The distance between neighbours -/

theorem spacing_eq (hfirst : IsLeast {k | k ∈ cells precision values} first)
    (hlast : IsGreatest {k | k ∈ cells precision values} last) (htwo : 2 ≤ (cells precision values).size) :
    spacing precision values =
      (Scalar.span first last).map (· / Scalar.ofNat ((cells precision values).size - 1) / precision) := by
  have hmin : (cells precision values).min? = some first :=
    Std.TreeSet.min?_eq_some_iff_mem_and_forall.mpr ⟨hfirst.1, fun _ hk => Std.isLE_compare.mpr (hfirst.2 hk)⟩
  have hmax : (cells precision values).max? = some last :=
    Std.TreeSet.max?_eq_some_iff_mem_and_forall.mpr ⟨hlast.1, fun _ hk => Std.isLE_compare.mpr (hlast.2 hk)⟩
  unfold spacing
  simp only [hmin, hmax, if_pos htwo]

theorem spacing_eq_zero (h : (cells precision values).size < 2) : spacing precision values = some Scalar.zero := by
  unfold spacing
  simp only [if_neg (not_le.mpr h)]
  split <;> rfl

/-! ### Scaling -/

theorem ids_scale (gridSize spacingX spacingY : α) (b : Blueprint α) :
    (b.scale gridSize spacingX spacingY).map Prod.fst = b.map Prod.fst := List.map_map

theorem normalize_of_short (h : b.length < 2) : b.normalize gridSize precision = some b := if_pos h

/-- A drawing of two nodes is scaled if both axes have a spacing. -/
theorem normalize_eq_some_iff (h : 2 ≤ b.length) : b.normalize gridSize precision = some b' ↔
    ∃ spacingX spacingY, spacing precision (b.map (·.2.x)) = some spacingX ∧
      spacing precision (b.map (·.2.y)) = some spacingY ∧ b' = b.scale gridSize spacingX spacingY := by
  rw [normalize, if_neg (not_lt.mpr h)]
  constructor
  · intro hscaled
    obtain ⟨spacingX, hx, hrest⟩ := Option.bind_eq_some_iff.mp hscaled
    obtain ⟨spacingY, hy, hdone⟩ := Option.bind_eq_some_iff.mp hrest
    exact ⟨spacingX, spacingY, hx, hy, (Option.some.inj hdone).symm⟩
  · rintro ⟨spacingX, spacingY, hx, hy, rfl⟩
    rw [hx, hy]
    rfl

theorem normalize_eq_none_iff (h : 2 ≤ b.length) : b.normalize gridSize precision = none ↔
    spacing precision (b.map (·.2.x)) = none ∨ spacing precision (b.map (·.2.y)) = none := by
  rw [normalize, if_neg (not_lt.mpr h)]
  cases spacing precision (b.map (·.2.x)) with
  | none => exact iff_of_true rfl (.inl rfl)
  | some spacingX =>
    cases spacing precision (b.map (·.2.y)) with
    | none => exact iff_of_true rfl (.inr rfl)
    | some spacingY =>
      exact iff_of_false (Option.some_ne_none _) (not_or_intro (Option.some_ne_none _) (Option.some_ne_none _))

/-- Scaling keeps the nodes and their order. -/
theorem ids_normalize (h : b.normalize gridSize precision = some b') : b'.map Prod.fst = b.map Prod.fst := by
  rcases Nat.lt_or_ge b.length 2 with hshort | hlong
  · obtain rfl := Option.some.inj ((normalize_of_short hshort).symm.trans h)
    rfl
  · obtain ⟨spacingX, spacingY, -, -, rfl⟩ := (normalize_eq_some_iff hlong).mp h
    exact ids_scale _ _ _ _

/-- Nodes that are all at one point are scaled without any distance. -/
theorem exists_normalize_of_pinned (gridSize precision : α) {p : Point α} (h : ∀ entry ∈ b, entry.2 = p) :
    ∃ b', b.normalize gridSize precision = some b' := by
  have hone (axis : Point α → α) : spacing precision (b.map fun entry => axis entry.2) = some Scalar.zero := by
    refine spacing_eq_zero (size_cells_lt_two ?_)
    have hall : ∀ v ∈ b.map fun entry => axis entry.2, v = axis p := by
      rintro _ hv
      obtain ⟨entry, hentry, rfl⟩ := List.mem_map.mp hv
      exact congrArg axis (h entry hentry)
    exact fun u hu v hv => (hall u hu).trans (hall v hv).symm
  rcases Nat.lt_or_ge b.length 2 with hshort | hlong
  · exact ⟨b, normalize_of_short hshort⟩
  · exact ⟨_, (normalize_eq_some_iff hlong).mpr ⟨_, _, hone Point.x, hone Point.y, rfl⟩⟩

end Blueprint
end CallChart
