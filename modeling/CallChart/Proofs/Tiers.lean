import CallChart.Layout.Stack
import CallChart.Proofs.Boxes
import CallChart.Proofs.Spacing
import Mathlib.Data.List.Nodup

/-! Components that are scaled, placed below each other and fitted. On each axis every component keeps the
order of its nodes, and no component reaches into another one. -/
namespace CallChart

namespace Blueprint

/-! ### The order of the nodes -/

/-- The same nodes, with both axes stretched: what was further right or further down still is. -/
def Redrawn (b b' : Blueprint Rat) : Prop :=
  ∃ f g : Rat → Rat, StrictMonoOn f {v | v ∈ b.map (·.2.x)} ∧ StrictMonoOn g {v | v ∈ b.map (·.2.y)} ∧
    b' = b.map fun entry => (entry.1, ⟨f entry.2.x, g entry.2.y⟩)

theorem Redrawn.refl (b : Blueprint Rat) : b.Redrawn b :=
  ⟨id, id, strictMonoOn_id, strictMonoOn_id, (List.map_id b).symm⟩

theorem Redrawn.trans {b₁ b₂ b₃ : Blueprint Rat} (h : b₁.Redrawn b₂) (h' : b₂.Redrawn b₃) : b₁.Redrawn b₃ := by
  obtain ⟨f, g, hf, hg, rfl⟩ := h
  obtain ⟨f', g', hf', hg', rfl⟩ := h'
  refine ⟨f' ∘ f, g' ∘ g, hf'.comp hf fun v hv => ?_, hg'.comp hg fun v hv => ?_, List.map_map⟩
  · obtain ⟨entry, hentry, rfl⟩ := List.mem_map.mp hv
    exact List.mem_map.mpr ⟨_, List.mem_map_of_mem hentry, rfl⟩
  · obtain ⟨entry, hentry, rfl⟩ := List.mem_map.mp hv
    exact List.mem_map.mpr ⟨_, List.mem_map_of_mem hentry, rfl⟩

theorem Redrawn.ids {b b' : Blueprint Rat} (h : b.Redrawn b') : b'.map Prod.fst = b.map Prod.fst := by
  obtain ⟨f, g, -, -, rfl⟩ := h
  exact List.map_map

/-- Two nodes stand to each other as they did before, on each axis. -/
theorem Redrawn.lt_iff {b b' : Blueprint Rat} (h : b.Redrawn b') (honce : (b.map Prod.fst).Nodup)
    {i j : NodeId} {p q p' q' : Point Rat} (hp : (i, p) ∈ b) (hq : (j, q) ∈ b) (hp' : (i, p') ∈ b')
    (hq' : (j, q') ∈ b') : (p'.x < q'.x ↔ p.x < q.x) ∧ (p'.y < q'.y ↔ p.y < q.y) := by
  have hids := h.ids
  obtain ⟨f, g, hf, hg, rfl⟩ := h
  have hmoved {i : NodeId} {p p' : Point Rat} (hp : (i, p) ∈ b)
      (hp' : (i, p') ∈ b.map fun entry => (entry.1, (⟨f entry.2.x, g entry.2.y⟩ : Point Rat))) :
      p' = ⟨f p.x, g p.y⟩ := by
    have hnew := List.mem_map_of_mem (f := fun entry => (entry.1, (⟨f entry.2.x, g entry.2.y⟩ : Point Rat))) hp
    exact congrArg Prod.snd (List.inj_on_of_nodup_map (hids ▸ honce) hp' hnew rfl)
  rw [hmoved hp hp', hmoved hq hq']
  exact ⟨hf.lt_iff_lt (List.mem_map_of_mem (f := fun entry => entry.2.x) hp)
    (List.mem_map_of_mem (f := fun entry => entry.2.x) hq),
    hg.lt_iff_lt (List.mem_map_of_mem (f := fun entry => entry.2.y) hp)
    (List.mem_map_of_mem (f := fun entry => entry.2.y) hq)⟩

/-- A part of a drawing is redrawn by what redraws the whole. -/
theorem redrawn_of_subset {b whole : Blueprint Rat} (hsub : b ⊆ whole) {f g : Rat → Rat}
    (hf : StrictMonoOn f {v | v ∈ whole.map (·.2.x)}) (hg : StrictMonoOn g {v | v ∈ whole.map (·.2.y)}) :
    b.Redrawn (b.map fun entry => (entry.1, ⟨f entry.2.x, g entry.2.y⟩)) :=
  ⟨f, g, hf.mono fun _ hv => List.map_subset _ hsub hv, hg.mono fun _ hv => List.map_subset _ hsub hv, rfl⟩

/-- What lay at different heights still does. -/
theorem Redrawn.exists_lt {b b' : Blueprint Rat} (h : b.Redrawn b') {e e' : NodeId × Point Rat} (he : e ∈ b)
    (he' : e' ∈ b) (hlt : e.2.y < e'.2.y) : ∃ u ∈ b', ∃ v ∈ b', u.2.y < v.2.y := by
  obtain ⟨f, g, -, hg, rfl⟩ := h
  exact ⟨_, List.mem_map_of_mem he, _, List.mem_map_of_mem he',
    hg (List.mem_map.mpr ⟨e, he, rfl⟩) (List.mem_map.mpr ⟨e', he', rfl⟩) hlt⟩

/-! ### Scaling -/

/-- Exact distances do not overflow. -/
theorem exists_spacing {precision : Rat} (hprecision : 0 < precision) (values : List Rat) :
    ∃ gap, spacing precision values = some gap ∧ 0 ≤ gap := by
  rcases Nat.lt_or_ge (cells precision values).size 2 with hfew | htwo
  · exact ⟨0, spacing_eq_zero hfew, le_refl 0⟩
  · obtain ⟨first, last, hfirst, hlast, hlt⟩ := exists_first_last htwo
    have hspan : (0 : Rat) ≤ ((last - first : Int) : Rat) := Int.cast_nonneg (Int.sub_nonneg.mpr hlt.le)
    exact ⟨_, spacing_eq hfirst hlast htwo, div_nonneg (div_nonneg hspan (Nat.cast_nonneg _)) hprecision.le⟩

theorem spacing_nonneg {precision gap : Rat} {values : List Rat} (hprecision : 0 < precision)
    (h : spacing precision values = some gap) : 0 ≤ gap := by
  obtain ⟨_, hspacing, hnonneg⟩ := exists_spacing hprecision values
  exact Option.some.inj (hspacing.symm.trans h) ▸ hnonneg

theorem factor_pos {gridSize gap : Rat} (hgrid : 0 < gridSize) (hgap : 0 ≤ gap) : 0 < factor gridSize gap := by
  unfold factor
  split
  · exact one_pos
  · next hne =>
    have hgap' : gap ≠ 0 := fun heq => hne (beq_iff_eq.mpr heq)
    exact div_pos hgrid (lt_of_le_of_ne hgap hgap'.symm)

theorem exists_normalize {gridSize precision : Rat} (hgrid : 0 < gridSize) (hprecision : 0 < precision)
    (b : Blueprint Rat) : ∃ b', b.normalize gridSize precision = some b' ∧ b.Redrawn b' := by
  rcases Nat.lt_or_ge b.length 2 with hshort | hlong
  · exact ⟨b, normalize_of_short hshort, .refl b⟩
  · obtain ⟨gapX, hx, hx_nonneg⟩ := exists_spacing hprecision (b.map (·.2.x))
    obtain ⟨gapY, hy, hy_nonneg⟩ := exists_spacing hprecision (b.map (·.2.y))
    have hscale {gap : Rat} (hgap : 0 ≤ gap) : StrictMono fun v => v * factor gridSize gap :=
      strictMono_mul_right_of_pos (factor_pos hgrid hgap)
    exact ⟨_, (normalize_eq_some_iff hlong).mpr ⟨gapX, gapY, hx, hy, rfl⟩, _, _, (hscale hx_nonneg).strictMonoOn _,
      (hscale hy_nonneg).strictMonoOn _, rfl⟩

theorem redrawn_normalize {gridSize precision : Rat} (hgrid : 0 < gridSize) (hprecision : 0 < precision)
    {b b' : Blueprint Rat} (h : b.normalize gridSize precision = some b') : b.Redrawn b' := by
  obtain ⟨scaled, hscaled, hredrawn⟩ := exists_normalize hgrid hprecision b
  exact Option.some.inj (hscaled.symm.trans h) ▸ hredrawn

end Blueprint

/-! ### Placing below each other -/

namespace SizedBlueprint

/-- A component at its place. -/
def placed {α : Type} [Scalar α] (central offset : α) (s : SizedBlueprint α) : Blueprint α :=
  s.blueprint.map fun entry =>
    (entry.1,
      ⟨entry.2.x - s.bounds.minX + Scalar.half, entry.2.y - s.bounds.minY + offset - central + Scalar.half⟩)

/-- Each component at its place. -/
def tiers {α : Type} [Scalar α] (central offset : α) : List (SizedBlueprint α) → List (Blueprint α)
  | [] => []
  | s :: rest => s.placed central offset :: tiers central (offset + s.height) rest

theorem flatten_tiers {α : Type} [Scalar α] (central offset : α) (ss : List (SizedBlueprint α)) :
    placeFrom central offset ss = (tiers central offset ss).flatten := by
  induction ss generalizing offset with
  | nil => rfl
  | cons s rest ih =>
    rw [placeFrom, ih]
    rfl

/-- The box is the one around the points, and the size leaves a gap below. -/
structure Exact (gridSize : Rat) (s : SizedBlueprint Rat) : Prop where
  around : s.bounds.Around (s.blueprint.map Prod.snd)
  height : s.height = s.bounds.maxY - s.bounds.minY + gridSize

theorem exact_of_ofBlueprint? {gridSize : Rat} {b : Blueprint Rat} {s : SizedBlueprint Rat}
    (h : ofBlueprint? gridSize b = some s) : s.Exact gridSize ∧ s.blueprint = b := by
  obtain ⟨box, hbox, rfl⟩ := Option.map_eq_some_iff.mp h
  exact ⟨⟨Bounds.ofPoints?_around hbox, rfl⟩, rfl⟩

variable {gridSize central offset : Rat} {s : SizedBlueprint Rat} {ss : List (SizedBlueprint Rat)}

theorem redrawn_placed (s : SizedBlueprint Rat) : s.blueprint.Redrawn (s.placed central offset) := by
  refine ⟨fun v => v - s.bounds.minX + 1 / 2, fun v => v - s.bounds.minY + offset - central + 1 / 2, ?_, ?_, rfl⟩
  · exact fun v _ u _ h => by dsimp only; linarith
  · exact fun v _ u _ h => by dsimp only; linarith

theorem redrawn_of_mem_tiers (hs : s ∈ ss) : ∃ row ∈ tiers central offset ss, s.blueprint.Redrawn row := by
  induction ss generalizing offset with
  | nil => cases hs
  | cons first rest ih =>
    rcases List.mem_cons.mp hs with rfl | hrest
    · exact ⟨_, List.mem_cons_self, redrawn_placed s⟩
    · obtain ⟨row, hrow, hredrawn⟩ := ih hrest
      exact ⟨row, List.mem_cons_of_mem _ hrow, hredrawn⟩

/-- A component at its place lies between the line at which it begins and one grid step above its end. -/
theorem Exact.placed_between (h : s.Exact gridSize) {entry : NodeId × Point Rat}
    (hentry : entry ∈ s.placed central offset) :
    offset - central + 1 / 2 ≤ entry.2.y ∧ entry.2.y ≤ offset + s.height - gridSize - central + 1 / 2 := by
  obtain ⟨⟨id, p⟩, hp, rfl⟩ := List.mem_map.mp hentry
  have hy : p.y ∈ (s.blueprint.map Prod.snd).map Point.y := List.mem_map_of_mem (List.mem_map_of_mem (f := Prod.snd) hp)
  have hlow := h.around.y.low_le hy
  have hhigh := h.around.y.le_high hy
  have hheight := h.height
  change offset - central + 1 / 2 ≤ p.y - s.bounds.minY + offset - central + 1 / 2 ∧
    p.y - s.bounds.minY + offset - central + 1 / 2 ≤ offset + s.height - gridSize - central + 1 / 2
  constructor <;> linarith

theorem Exact.gridSize_le_height (h : s.Exact gridSize) : gridSize ≤ s.height := by
  have hbox := h.around.y.low_le h.around.y.high_mem
  linarith [h.height]

/-- What has two points one below the other is higher than one grid step. -/
theorem Exact.gridSize_lt_height (h : s.Exact gridSize) {e e' : NodeId × Point Rat} (he : e ∈ s.blueprint)
    (he' : e' ∈ s.blueprint) (hlt : e.2.y < e'.2.y) : gridSize < s.height := by
  have hy {e : NodeId × Point Rat} (he : e ∈ s.blueprint) : e.2.y ∈ (s.blueprint.map Prod.snd).map Point.y :=
    List.mem_map_of_mem (List.mem_map_of_mem he)
  linarith [h.height, h.around.y.low_le (hy he), h.around.y.le_high (hy he')]

/-- Everything lies below the line at which the first component begins. -/
theorem le_of_mem_tiers (hgrid : 0 < gridSize) (hss : ∀ s ∈ ss, s.Exact gridSize) {row : Blueprint Rat}
    (hrow : row ∈ tiers central offset ss) {entry : NodeId × Point Rat} (hentry : entry ∈ row) :
    offset - central + 1 / 2 ≤ entry.2.y := by
  induction ss generalizing offset with
  | nil => cases hrow
  | cons s rest ih =>
    obtain ⟨hs, hrest⟩ := List.forall_mem_cons.mp hss
    rcases List.mem_cons.mp hrow with rfl | hlater
    · exact (hs.placed_between hentry).1
    · have hbelow := ih hrest hlater
      linarith [hs.gridSize_le_height]

/-- One drawing lies above another one. -/
def Over (row row' : Blueprint Rat) : Prop := ∀ entry ∈ row, ∀ entry' ∈ row', entry.2.y < entry'.2.y

/-- Each component lies above all later ones. -/
theorem tiers_over (hgrid : 0 < gridSize) (hss : ∀ s ∈ ss, s.Exact gridSize) :
    (tiers central offset ss).Pairwise Over := by
  induction ss generalizing offset with
  | nil => exact .nil
  | cons s rest ih =>
    obtain ⟨hs, hrest⟩ := List.forall_mem_cons.mp hss
    refine .cons (fun row hrow entry hentry entry' hentry' => ?_) (ih hrest)
    have habove := (hs.placed_between hentry).2
    have hbelow := le_of_mem_tiers hgrid hrest hrow hentry'
    linarith

end SizedBlueprint

/-! ### Fitting -/

namespace Blueprint

variable {inset : Rat} {b : Blueprint Rat}

/-- Fitted points keep the border and their order. -/
theorem exists_fit (hb : b ≠ []) (hinset : 0 ≤ inset ∧ inset < 1 / 2) :
    ∃ f g : Rat → Rat, (StrictMonoOn f {v | v ∈ b.map (·.2.x)} ∧ StrictMonoOn g {v | v ∈ b.map (·.2.y)}) ∧
      b.fit inset = b.map (fun entry => (entry.1, ⟨f entry.2.x, g entry.2.y⟩)) ∧
      Bordered inset ((b.fit inset).map (·.2.x)) ∧ Bordered inset ((b.fit inset).map (·.2.y)) := by
  obtain ⟨box, hbox⟩ := exists_box hb
  obtain ⟨hx, hy⟩ := Bounds.ofPoints?_around hbox
  rw [List.map_map] at hx hy
  have hfit : b.fit inset = b.map fun entry =>
      (entry.1, ⟨fitValue (1 - 2 * inset) inset entry.2.x box.minX box.maxX,
        fitValue (1 - 2 * inset) inset entry.2.y box.minY box.maxY⟩) := by
    rw [fit, hbox]
    rfl
  refine ⟨_, _, ⟨fitValue_strictMonoOn hx hinset.2, fitValue_strictMonoOn hy hinset.2⟩, hfit, ?_, ?_⟩
  · have hbordered := bordered_fitValue hx hinset
    rw [List.map_map] at hbordered
    rw [hfit, List.map_map]
    exact hbordered
  · have hbordered := bordered_fitValue hy hinset
    rw [List.map_map] at hbordered
    rw [hfit, List.map_map]
    exact hbordered

/-! ### The whole drawing -/

theorem exists_sized {gridSize : Rat} {bs : List (Blueprint Rat)} (hb : b ∈ bs) (hne : b ≠ []) :
    ∃ s ∈ sized gridSize bs, s.blueprint = b := by
  obtain ⟨box, hbox⟩ := exists_box hne
  have hsized : SizedBlueprint.ofBlueprint? gridSize b =
      some ⟨b, box, box.maxY - box.minY + gridSize, box.maxX - box.minX + gridSize⟩ := by
    rw [SizedBlueprint.ofBlueprint?, hbox]
    rfl
  exact ⟨_, List.mem_mergeSort.mpr (List.mem_filterMap.mpr ⟨b, hb, hsized⟩), rfl⟩

theorem exact_of_mem_sized {gridSize : Rat} {bs : List (Blueprint Rat)} {s : SizedBlueprint Rat}
    (hs : s ∈ sized gridSize bs) : s.Exact gridSize := by
  obtain ⟨b, -, hb⟩ := List.mem_filterMap.mp (List.mem_mergeSort.mp hs)
  exact (SizedBlueprint.exact_of_ofBlueprint? hb).1

/-- The components are stacked in rows. Each is redrawn in one of them, and each row is above all later ones. -/
theorem exists_rows {gridSize : Rat} (hgrid : 0 < gridSize) (bs : List (Blueprint Rat)) :
    ∃ rows : List (Blueprint Rat), stack gridSize bs = rows.flatten ∧
      (∀ b ∈ bs, b ≠ [] → ∃ row ∈ rows, b.Redrawn row) ∧ rows.Pairwise SizedBlueprint.Over := by
  refine ⟨_, SizedBlueprint.flatten_tiers _ _ _, fun b hb hne => ?_, ?_⟩
  · obtain ⟨s, hs, rfl⟩ : ∃ s ∈ sized gridSize bs, s.blueprint = b := exists_sized hb hne
    exact SizedBlueprint.redrawn_of_mem_tiers hs
  · exact SizedBlueprint.tiers_over hgrid fun s hs => exact_of_mem_sized hs

/-- The drawing is made up of rows of which each is above all later ones. Every component is redrawn in a
row, and the whole keeps the border. -/
structure Tiered (inset : Rat) (bs : List (Blueprint Rat)) (drawing : Blueprint Rat)
    (rows : List (Blueprint Rat)) : Prop where
  flat : drawing = rows.flatten
  redrawn {b : Blueprint Rat} : b ∈ bs → b ≠ [] → ∃ row ∈ rows, b.Redrawn row
  apart : rows.Pairwise SizedBlueprint.Over
  x : Bordered inset (drawing.map (·.2.x))
  y : Bordered inset (drawing.map (·.2.y))

theorem exists_tiered {gridSize : Rat} (hgrid : 0 < gridSize) (hinset : 0 ≤ inset ∧ inset < 1 / 2)
    {bs : List (Blueprint Rat)} (hb : b ∈ bs) (hne : b ≠ []) :
    ∃ rows, Tiered inset bs ((stack gridSize bs).fit inset) rows := by
  obtain ⟨rows, hstack, hredrawn, hover⟩ := exists_rows hgrid bs
  rw [hstack]
  have hin {row : Blueprint Rat} (hrow : row ∈ rows) : row ⊆ rows.flatten :=
    fun entry hentry => List.mem_flatten.mpr ⟨row, hrow, hentry⟩
  have hsome : rows.flatten ≠ [] := by
    obtain ⟨row, hrow, hb'⟩ := hredrawn b hb hne
    intro hnil
    have hempty : row.map Prod.fst = [] := by rw [List.flatten_eq_nil_iff.mp hnil row hrow, List.map_nil]
    exact hne (List.map_eq_nil_iff.mp (hb'.ids.symm.trans hempty))
  obtain ⟨f, g, ⟨hf, hg⟩, hfit, hx, hy⟩ := exists_fit hsome hinset
  let moved (entry : NodeId × Point Rat) : NodeId × Point Rat := (entry.1, ⟨f entry.2.x, g entry.2.y⟩)
  refine ⟨rows.map (List.map moved), hfit.trans List.map_flatten, fun {b} hb hne => ?_, ?_, hx, hy⟩
  · obtain ⟨row, hrow, hb'⟩ := hredrawn b hb hne
    exact ⟨row.map moved, List.mem_map_of_mem hrow, hb'.trans (redrawn_of_subset (hin hrow) hf hg)⟩
  · refine List.pairwise_map.mpr (hover.imp_of_mem fun {row row'} hrow hrow' hbelow => ?_)
    intro entry hentry entry' hentry'
    obtain ⟨e, he, rfl⟩ := List.mem_map.mp hentry
    obtain ⟨e', he', rfl⟩ := List.mem_map.mp hentry'
    exact hg (List.mem_map.mpr ⟨e, hin hrow he, rfl⟩) (List.mem_map.mpr ⟨e', hin hrow' he', rfl⟩) (hbelow e he e' he')

end Blueprint
end CallChart
