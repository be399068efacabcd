import CallChart.Proofs.AnyOrder
import Mathlib.Data.Prod.Lex
import Mathlib.Order.Bounds.Basic
import Mathlib.Tactic.Ring

/-! How exact drawings are stacked. The tallest comes first, and of equally large ones the one that was first before.
Each is moved as a whole to the left border, one grid step below the one before it, and the leftmost point of the first
one comes to lie in the middle. -/
namespace CallChart

/-! ### Sorting -/

/-- Elements that are tied keep their order when a list is sorted. -/
theorem filter_mergeSort {β : Type} {le : β → β → Bool}
    (htrans : ∀ a b c, le a b = true → le b c = true → le a c = true) (htotal : ∀ a b, (le a b || le b a) = true) {xs : List β} {p : β → Bool}
    (htied : ∀ a ∈ xs, ∀ b ∈ xs, p a = true → p b = true → le a b = true) :
    (xs.mergeSort le).filter p = xs.filter p := by
  have hordered : (xs.filter p).Pairwise fun a b => le a b = true := by
    refine List.pairwise_iff_forall_sublist.mpr fun {a b} hab => ?_
    obtain ⟨ha, hpa⟩ := List.mem_filter.mp (hab.subset List.mem_cons_self)
    obtain ⟨hb, hpb⟩ := List.mem_filter.mp (hab.subset (List.mem_cons_of_mem a List.mem_cons_self))
    exact htied a ha b hb hpa hpb
  have hsublist : (xs.filter p).Sublist ((xs.mergeSort le).filter p) := by
    have hkept := (List.sublist_mergeSort htrans htotal hordered List.filter_sublist).filter p
    simpa only [List.filter_filter, Bool.and_self] using hkept
  exact (hsublist.eq_of_length ((List.mergeSort_perm xs le).filter p).length_eq.symm).symm

/-- To compare by one number and then by another is to compare the pairs. -/
theorem Scalar.isLE_then_iff {a b c d : Rat} :
    ((order a b).then (order c d)).isLE = true ↔ toLex (a, c) ≤ toLex (b, d) := by
  rw [Prod.Lex.toLex_le_toLex, order_rat]
  rcases lt_trichotomy a b with h | h | h
  · simp [compare_lt_iff_lt.mpr h, h]
  · simp [h, Ordering.isLE_iff_ne_gt, compare_gt_iff_gt]
  · simp [compare_gt_iff_gt.mpr h, h.not_gt, h.ne']

theorem Scalar.isLT_then_iff {a b c d : Rat} :
    ((order a b).then (order c d)).isLT = true ↔ toLex (a, c) < toLex (b, d) := by
  rw [Prod.Lex.toLex_lt_toLex, order_rat]
  rcases lt_trichotomy a b with h | h | h
  · simp [compare_lt_iff_lt.mpr h, h]
  · simp [h, compare_lt_iff_lt]
  · simp [compare_gt_iff_gt.mpr h, h.not_gt, h.ne']

namespace Blueprint

/-! ### The size of a drawing -/

/-- The height and the width of a drawing. Drawings are compared by their heights, and by their widths only if they
are equally high. -/
def size (b : Blueprint Rat) : Lex (Rat × Rat) := toLex (extent (b.map (·.2.y)), extent (b.map (·.2.x)))

/-- The coordinates of the points of a drawing on one axis. -/
def along (axis : Point Rat → Rat) (b : Blueprint Rat) : Set Rat := {v | ∃ entry ∈ b, axis entry.2 = v}

end Blueprint

theorem Spans.isLeast {axis : Point Rat → Rat} {b : Blueprint Rat} {low high : Rat}
    (h : Spans ((b.map Prod.snd).map axis) low high) : IsLeast (b.along axis) low := by
  rw [List.map_map] at h
  refine ⟨List.mem_map.mp h.low_mem, ?_⟩
  rintro v hv
  exact h.low_le (List.mem_map.mpr hv)

theorem Spans.isGreatest {axis : Point Rat → Rat} {b : Blueprint Rat} {low high : Rat}
    (h : Spans ((b.map Prod.snd).map axis) low high) : IsGreatest (b.along axis) high := by
  rw [List.map_map] at h
  refine ⟨List.mem_map.mp h.high_mem, ?_⟩
  rintro v hv
  exact h.le_high (List.mem_map.mpr hv)

/-! ### Components that are moved -/

/-- Points are compared from left to right, and from above to below only if they are equally far left. -/
def Point.key (p : Point Rat) : Lex (Rat × Rat) := toLex (p.x, p.y)

/-- A component and how far all of its points are moved. -/
structure Tier where
  component : Blueprint Rat
  shift : Point Rat

namespace Tier

def points (tier : Tier) : Blueprint Rat :=
  tier.component.map fun entry => (entry.1, ⟨entry.2.x + tier.shift.x, entry.2.y + tier.shift.y⟩)

/-- The leftmost point of a component, and the upper one of those that are equally far left, has a certain height. -/
def LeftmostAt (tier : Tier) (y : Rat) : Prop :=
  ∃ entry ∈ tier.points, entry.2.y = y ∧
    ∀ other ∈ tier.points, entry.2.key ≤ other.2.key

/-- The coordinates on an axis are all moved by the same distance. -/
theorem along_points (tier : Tier) (axis : Point Rat → Rat) {c : Rat}
    (h : ∀ p, axis ⟨p.x + tier.shift.x, p.y + tier.shift.y⟩ = axis p + c) :
    tier.points.along axis = (· + c) '' tier.component.along axis := by
  ext v
  constructor
  · rintro ⟨_, hmoved, rfl⟩
    obtain ⟨entry, hentry, rfl⟩ := List.mem_map.mp hmoved
    exact ⟨_, ⟨entry, hentry, rfl⟩, (h entry.2).symm⟩
  · rintro ⟨_, ⟨entry, hentry, rfl⟩, rfl⟩
    exact ⟨_, List.mem_map_of_mem hentry, h entry.2⟩

end Tier

/-- Drawings stacked below each other. Those that have points are each moved as a whole. They come by size, equally
large ones as they came before. Each begins one step below the one before it, all begin at the left border, and the
leftmost point of the first one is in the middle. -/
structure Stacked (gridSize : Rat) (bs : List (Blueprint Rat)) (drawing : Blueprint Rat) (tiers : List Tier) :
    Prop where
  flat : drawing = tiers.flatMap Tier.points
  once : (tiers.map Tier.component).Perm (bs.filter fun b => !b.isEmpty)
  bySize : (tiers.map Tier.component).Pairwise fun b b' => b'.size ≤ b.size
  inOrder (size : Lex (Rat × Rat)) :
    (tiers.map Tier.component).filter (fun b => b.size = size) =
      (bs.filter fun b => !b.isEmpty).filter fun b => b.size = size
  spaced : tiers.IsChain fun tier next =>
    ∃ y, IsGreatest (tier.points.along Point.y) y ∧ IsLeast (next.points.along Point.y) (y + gridSize)
  aligned : ∀ tier ∈ tiers, IsLeast (tier.points.along Point.x) (1 / 2)
  centred : ∀ tier ∈ tiers.head?, tier.LeftmostAt (1 / 2)

namespace SizedBlueprint

variable {gridSize central offset : Rat} {b : Blueprint Rat} {s t : SizedBlueprint Rat} {ss : List (SizedBlueprint Rat)}

/-- The measured size is that of the drawing and one grid step more on each axis. -/
theorem size_of_ofBlueprint? (h : ofBlueprint? gridSize b = some s) :
    b.size = toLex (s.height - gridSize, s.width - gridSize) := by
  obtain ⟨box, hbox, rfl⟩ := Option.map_eq_some_iff.mp h
  obtain ⟨hx, hy⟩ := Bounds.ofPoints?_around hbox
  rw [List.map_map] at hx hy
  have hheight := hy.extent_eq
  have hwidth := hx.extent_eq
  change toLex (extent (b.map (Point.y ∘ Prod.snd)), extent (b.map (Point.x ∘ Prod.snd))) = _
  rw [hheight, hwidth, add_sub_cancel_right, add_sub_cancel_right]

theorem above_iff : above s t = true ↔ toLex (t.height, t.width) ≤ toLex (s.height, s.width) := Scalar.isLE_then_iff

/-- A drawing may stand above another one if it is not smaller. -/
theorem above_iff_size_le {c : Blueprint Rat} (hb : ofBlueprint? gridSize b = some s)
    (hc : ofBlueprint? gridSize c = some t) : above s t = true ↔ c.size ≤ b.size := by
  rw [above_iff, size_of_ofBlueprint? hb, size_of_ofBlueprint? hc, Prod.Lex.toLex_le_toLex, Prod.Lex.toLex_le_toLex,
    sub_lt_sub_iff_right, sub_left_inj, sub_le_sub_iff_right]

theorem above_trans (r s t : SizedBlueprint Rat) (hrs : above r s = true) (hst : above s t = true) : above r t = true :=
  above_iff.mpr ((above_iff.mp hst).trans (above_iff.mp hrs))

theorem above_total (s t : SizedBlueprint Rat) : (above s t || above t s) = true := by
  rw [Bool.or_eq_true, above_iff, above_iff]
  exact le_total _ _

/-! ### The leftmost point -/

private theorem leftmost_foldl (rest seen : List (Point Rat)) {best : Point Rat} (hbest : best ∈ seen)
    (hleast : ∀ q ∈ seen, best.key ≤ q.key) :
    ∃ p ∈ seen ++ rest, (rest.foldl (fun best q =>
      if ((Scalar.order q.x best.x).then (Scalar.order q.y best.y)).isLT then q else best) best) = p ∧
        ∀ q ∈ seen ++ rest, p.key ≤ q.key := by
  induction rest generalizing seen best with
  | nil =>
    rw [List.append_nil]
    exact ⟨best, hbest, rfl, hleast⟩
  | cons q rest ih =>
    rw [List.append_cons, List.foldl_cons]
    have hadded {p : Point Rat} (hold : ∀ r ∈ seen, p.key ≤ r.key) (hnew : p.key ≤ q.key) :
        ∀ r ∈ seen ++ [q], p.key ≤ r.key :=
      List.forall_mem_append.mpr ⟨hold, List.forall_mem_singleton.mpr hnew⟩
    split
    · next hlt =>
      have hless : q.key < best.key := Scalar.isLT_then_iff.mp hlt
      exact ih _ (List.mem_append_right _ (List.mem_singleton_self q))
        (hadded (fun r hr => hless.le.trans (hleast r hr)) le_rfl)
    · next hnot =>
      have hle : best.key ≤ q.key := not_lt.mp fun hless => hnot (Scalar.isLT_then_iff.mpr hless)
      exact ih _ (List.mem_append_left _ hbest) (hadded hleast hle)

theorem exists_anchor (hb : b ≠ []) :
    ∃ entry ∈ b, anchor? b = some entry.2 ∧ ∀ other ∈ b, entry.2.key ≤ other.2.key := by
  cases b with
  | nil => exact absurd rfl hb
  | cons first rest =>
    obtain ⟨p, hp, hanchor, hleast⟩ :=
      leftmost_foldl (rest.map Prod.snd) [first.2] (List.mem_singleton_self _) (List.forall_mem_singleton.mpr le_rfl)
    have hmem : p ∈ (first :: rest).map Prod.snd := hp
    obtain ⟨entry, hentry, rfl⟩ := List.mem_map.mp hmem
    exact ⟨entry, hentry, congrArg some hanchor, fun other hother =>
      hleast _ (List.mem_map_of_mem (f := Prod.snd) hother)⟩

/-! ### Places below each other -/

/-- A component that begins at a certain line. -/
def tier (central offset : Rat) (s : SizedBlueprint Rat) : Tier :=
  ⟨s.blueprint, 1 / 2 - s.bounds.minX, offset - central + 1 / 2 - s.bounds.minY⟩

/-- Components below each other. -/
def tiersFrom (central offset : Rat) : List (SizedBlueprint Rat) → List Tier
  | [] => []
  | s :: rest => s.tier central offset :: tiersFrom central (offset + s.height) rest

theorem placed_eq_points (s : SizedBlueprint Rat) : s.placed central offset = (s.tier central offset).points := by
  refine List.map_congr_left fun entry _ => ?_
  simp only [tier, Scalar.half_rat, Prod.mk.injEq, Point.mk.injEq, true_and]
  constructor <;> ring

theorem map_points_tiersFrom (central offset : Rat) (ss : List (SizedBlueprint Rat)) :
    (tiersFrom central offset ss).map Tier.points = tiers central offset ss := by
  induction ss generalizing offset with
  | nil => rfl
  | cons s rest ih => rw [tiersFrom, List.map_cons, ih, tiers, placed_eq_points]

theorem placeFrom_eq_flatMap (central offset : Rat) (ss : List (SizedBlueprint Rat)) :
    placeFrom central offset ss = (tiersFrom central offset ss).flatMap Tier.points := by
  rw [flatten_tiers, ← map_points_tiersFrom, List.flatMap_def]

theorem map_component_tiersFrom (central offset : Rat) (ss : List (SizedBlueprint Rat)) :
    (tiersFrom central offset ss).map Tier.component = ss.map blueprint := by
  induction ss generalizing offset with
  | nil => rfl
  | cons s rest ih =>
    rw [tiersFrom, List.map_cons, ih, List.map_cons]
    rfl

theorem Exact.isLeast_x (h : s.Exact gridSize) : IsLeast ((s.tier central offset).points.along Point.x) (1 / 2) := by
  have hplace : s.bounds.minX + (s.tier central offset).shift.x = 1 / 2 := add_sub_cancel _ _
  rw [(s.tier central offset).along_points Point.x fun _ => rfl, ← hplace]
  exact add_left_mono.map_isLeast h.around.x.isLeast

theorem Exact.isLeast_y (h : s.Exact gridSize) :
    IsLeast ((s.tier central offset).points.along Point.y) (offset - central + 1 / 2) := by
  have hplace : s.bounds.minY + (s.tier central offset).shift.y = offset - central + 1 / 2 := add_sub_cancel _ _
  rw [(s.tier central offset).along_points Point.y fun _ => rfl, ← hplace]
  exact add_left_mono.map_isLeast h.around.y.isLeast

theorem Exact.isGreatest_y (h : s.Exact gridSize) :
    IsGreatest ((s.tier central offset).points.along Point.y) (offset + s.height - gridSize - central + 1 / 2) := by
  have hplace : s.bounds.maxY + (s.tier central offset).shift.y =
      offset + s.height - gridSize - central + 1 / 2 := by
    rw [h.height, tier]
    ring
  rw [(s.tier central offset).along_points Point.y fun _ => rfl, ← hplace]
  exact add_left_mono.map_isGreatest h.around.y.isGreatest

/-- Each component begins one grid step below the end of the one before it. -/
theorem spaced_tiersFrom (hss : ∀ s ∈ ss, s.Exact gridSize) :
    (tiersFrom central offset ss).IsChain fun tier next =>
      ∃ y, IsGreatest (tier.points.along Point.y) y ∧ IsLeast (next.points.along Point.y) (y + gridSize) := by
  induction ss generalizing offset with
  | nil => exact .nil
  | cons s rest ih =>
    obtain ⟨hs, hrest⟩ := List.forall_mem_cons.mp hss
    cases rest with
    | nil => exact .singleton _
    | cons next rest =>
      have hbegin : offset + s.height - gridSize - central + 1 / 2 + gridSize =
          offset + s.height - central + 1 / 2 := by
        ring
      refine .cons_cons ⟨_, hs.isGreatest_y, ?_⟩ (ih hrest)
      rw [hbegin]
      exact (hrest next List.mem_cons_self).isLeast_y

theorem aligned_tiersFrom (hss : ∀ s ∈ ss, s.Exact gridSize) :
    ∀ tier ∈ tiersFrom central offset ss, IsLeast (tier.points.along Point.x) (1 / 2) := by
  induction ss generalizing offset with
  | nil => nofun
  | cons s rest ih =>
    obtain ⟨hs, hrest⟩ := List.forall_mem_cons.mp hss
    exact List.forall_mem_cons.mpr ⟨hs.isLeast_x, ih hrest⟩

/-- The line of the first component is so chosen that its leftmost point is in the middle. -/
theorem leftmostAt_tier (hs : s.blueprint ≠ []) : (s.tier (centralLine (s :: ss)) 0).LeftmostAt (1 / 2) := by
  obtain ⟨entry, hentry, hanchor, hleast⟩ := exists_anchor hs
  refine ⟨_, List.mem_map_of_mem hentry, ?_, ?_⟩
  · have hline : centralLine (s :: ss) = entry.2.y - s.bounds.minY := by rw [centralLine, hanchor]
    rw [hline, tier]
    ring
  · intro moved hmoved
    obtain ⟨other, hother, rfl⟩ := List.mem_map.mp hmoved
    have hle := hleast other hother
    rw [Point.key, Point.key, Prod.Lex.toLex_le_toLex] at hle ⊢
    simpa using hle

end SizedBlueprint

namespace Blueprint

variable {gridSize : Rat} {bs : List (Blueprint Rat)}

/-- Only drawings that have points are measured. -/
theorem map_blueprint_filterMap (gridSize : Rat) (bs : List (Blueprint Rat)) :
    (bs.filterMap (SizedBlueprint.ofBlueprint? gridSize)).map SizedBlueprint.blueprint =
      bs.filter fun b => !b.isEmpty := by
  induction bs with
  | nil => rfl
  | cons b rest ih =>
    cases b with
    | nil => exact ih
    | cons entry others => exact congrArg (List.cons (entry :: others)) ih

theorem perm_sized (gridSize : Rat) (bs : List (Blueprint Rat)) :
    ((sized gridSize bs).map SizedBlueprint.blueprint).Perm (bs.filter fun b => !b.isEmpty) := by
  rw [← map_blueprint_filterMap gridSize]
  exact (List.mergeSort_perm _ _).map _

theorem blueprint_ne_nil {s : SizedBlueprint Rat} (hs : s ∈ sized gridSize bs) : s.blueprint ≠ [] := by
  have hmem := (perm_sized gridSize bs).mem_iff.mp (List.mem_map_of_mem hs)
  intro hnil
  rw [hnil] at hmem
  cases (List.mem_filter.mp hmem).2

theorem measured {s : SizedBlueprint Rat} (hs : s ∈ bs.filterMap (SizedBlueprint.ofBlueprint? gridSize)) :
    SizedBlueprint.ofBlueprint? gridSize s.blueprint = some s := by
  obtain ⟨b, -, hb⟩ := List.mem_filterMap.mp hs
  rwa [(SizedBlueprint.exact_of_ofBlueprint? hb).2]

theorem pairwise_sized (gridSize : Rat) (bs : List (Blueprint Rat)) :
    ((sized gridSize bs).map SizedBlueprint.blueprint).Pairwise fun b b' => b'.size ≤ b.size := by
  have habove := List.pairwise_mergeSort SizedBlueprint.above_trans SizedBlueprint.above_total
    (bs.filterMap (SizedBlueprint.ofBlueprint? gridSize))
  refine List.pairwise_map.mpr (habove.imp_of_mem fun {s t} hs ht hst => ?_)
  have hs' := measured (List.mem_mergeSort.mp hs)
  have ht' := measured (List.mem_mergeSort.mp ht)
  exact (SizedBlueprint.above_iff_size_le hs' ht').mp hst

/-- Equally large drawings are left in their order. -/
theorem filter_sized (gridSize : Rat) (bs : List (Blueprint Rat)) (size : Lex (Rat × Rat)) :
    ((sized gridSize bs).map SizedBlueprint.blueprint).filter (fun b => b.size = size) =
      (bs.filter fun b => !b.isEmpty).filter fun b => b.size = size := by
  rw [← map_blueprint_filterMap gridSize, List.filter_map, List.filter_map]
  refine congrArg (List.map _) (filter_mergeSort SizedBlueprint.above_trans SizedBlueprint.above_total ?_)
  intro s hs t ht hsize hsize'
  rw [SizedBlueprint.above_iff_size_le (measured hs) (measured ht)]
  exact ((of_decide_eq_true hsize').trans (of_decide_eq_true hsize).symm).le

/-- Whatever the drawings and the grid size are, the drawings are stacked. -/
theorem exists_stacked (gridSize : Rat) (bs : List (Blueprint Rat)) :
    ∃ tiers, Stacked gridSize bs (stack gridSize bs) tiers := by
  have hexact : ∀ s ∈ sized gridSize bs, s.Exact gridSize := fun s hs => exact_of_mem_sized hs
  let central := SizedBlueprint.centralLine (sized gridSize bs)
  have hcomponents := SizedBlueprint.map_component_tiersFrom central 0 (sized gridSize bs)
  refine ⟨SizedBlueprint.tiersFrom central 0 (sized gridSize bs), SizedBlueprint.placeFrom_eq_flatMap _ _ _, ?_, ?_,
    fun size => ?_, SizedBlueprint.spaced_tiersFrom hexact, SizedBlueprint.aligned_tiersFrom hexact, ?_⟩
  · rw [hcomponents]
    exact perm_sized gridSize bs
  · rw [hcomponents]
    exact pairwise_sized gridSize bs
  · rw [hcomponents]
    exact filter_sized gridSize bs size
  · intro tier htier
    cases hsized : sized gridSize bs with
    | nil =>
      rw [hsized] at htier
      cases htier
    | cons first rest =>
      have hfirst : first.blueprint ≠ [] := blueprint_ne_nil (hsized ▸ List.mem_cons_self)
      have hline : (first.tier (SizedBlueprint.centralLine (first :: rest)) 0).LeftmostAt (1 / 2) :=
        SizedBlueprint.leftmostAt_tier hfirst
      rw [← hsized] at hline
      rw [hsized] at htier
      obtain rfl := Option.some.inj htier
      exact hline

end Blueprint
end CallChart
