import CallChart.Proofs.Viewport
import CallChart.Proofs.Wiring
import Mathlib.Tactic.Ring

/-! Fitting exact points into the unit square as a normal form: it forgets where a drawing was and how large each of
its axes was, and what has been fitted stays where it is. So a layout is found again by fitting, whatever was shown
since. -/
namespace CallChart

/-! ### One axis -/

/-- Of two values the smaller one stays smaller, and equal ones stay equal. -/
def OrderedAs (values values' : List Rat) : Prop :=
  ∀ e ∈ values.zip values', ∀ e' ∈ values.zip values', (e.2 < e'.2 ↔ e.1 < e'.1) ∧ (e.2 = e'.2 ↔ e.1 = e'.1)

theorem orderedAs_map {values : List Rat} {f : Rat → Rat} (hf : StrictMonoOn f {v | v ∈ values}) :
    OrderedAs values (values.map f) := by
  intro e he e' he'
  rw [← List.map_prod_left_eq_zip] at he he'
  obtain ⟨v, hv, rfl⟩ := List.mem_map.mp he
  obtain ⟨u, hu, rfl⟩ := List.mem_map.mp he'
  exact ⟨hf.lt_iff_lt hv hu, hf.injOn.eq_iff hv hu⟩

/-- Values have one least and one greatest value. -/
theorem Spans.unique {values : List Rat} {low high low' high' : Rat} (h : Spans values low high)
    (h' : Spans values low' high') : low = low' ∧ high = high' :=
  ⟨le_antisymm (h.low_le h'.low_mem) (h'.low_le h.low_mem), le_antisymm (h'.le_high h.high_mem) (h.le_high h'.high_mem)⟩

theorem Spans.reframe {values : List Rat} {low high : Rat} (h : Spans values low high) {factor : Rat}
    (hfactor : 0 < factor) (shift : Rat) :
    Spans (values.map fun v => v * factor + shift) (low * factor + shift) (high * factor + shift) where
  low_mem := List.mem_map_of_mem h.low_mem
  high_mem := List.mem_map_of_mem h.high_mem
  low_le hu := by
    obtain ⟨v, hv, rfl⟩ := List.mem_map.mp hu
    have hle := h.low_le hv
    gcongr
  le_high hu := by
    obtain ⟨v, hv, rfl⟩ := List.mem_map.mp hu
    have hle := h.le_high hv
    gcongr

namespace Blueprint

variable {inset low high : Rat} {b : Blueprint Rat}

/-- A value is fitted by its place between the ends, which no shift and no factor changes. -/
theorem fitValue_reframe {factor : Rat} (hfactor : 0 < factor) (shift span inset v low high : Rat) :
    fitValue span inset (v * factor + shift) (low * factor + shift) (high * factor + shift) =
      fitValue span inset v low high := by
  rcases lt_or_ge low high with hlt | hle
  · have hlt' : low * factor + shift < high * factor + shift := by gcongr
    have hplace : (v * factor + shift - (low * factor + shift)) / (high * factor + shift - (low * factor + shift)) =
        (v - low) / (high - low) := by
      rw [add_sub_add_right_eq_sub, add_sub_add_right_eq_sub, ← sub_mul, ← sub_mul, mul_div_mul_right _ _ hfactor.ne']
    rw [fitValue_of_lt hlt, fitValue_of_lt hlt', hplace]
  · have hle' : high * factor + shift ≤ low * factor + shift := by gcongr
    rw [fitValue_of_le hle, fitValue_of_le hle']

/-- Values that keep the border and reach it are fitted already: either the ends are the borders, or there is only the
middle. -/
theorem fitValue_of_bordered {values : List Rat} (h : Bordered inset values) (hspans : Spans values low high) {v : Rat}
    (hv : v ∈ values) : fitValue (1 - 2 * inset) inset v low high = v := by
  rcases lt_or_ge low high with hlt | hle
  · obtain ⟨hleft, hright⟩ := h.reached ⟨low, hspans.low_mem, high, hspans.high_mem, hlt.ne⟩
    obtain rfl : low = inset := le_antisymm (hspans.low_le hleft) (h.within hspans.low_mem).1
    obtain rfl : high = 1 - low := le_antisymm (h.within hspans.high_mem).2 (hspans.le_high hright)
    have hspan : 1 - low - low ≠ 0 := (sub_pos.mpr hlt).ne'
    have hsame : 1 - 2 * low = 1 - low - low := by ring
    rw [fitValue_of_lt hlt, hsame, div_mul_cancel₀ _ hspan, sub_add_cancel]
  · have hsame : ∀ u ∈ values, ∀ u' ∈ values, u = u' := by
      intro u hu u' hu'
      have hu := And.intro (hspans.low_le hu) (hspans.le_high hu)
      have hu' := And.intro (hspans.low_le hu') (hspans.le_high hu')
      linarith
    rw [fitValue_of_le hle, h.centred hsame v hv]

/-! ### Both axes -/

/-- A drawing that is stretched along each axis and then moved. -/
def reframe (factor shift : Point Rat) (b : Blueprint Rat) : Blueprint Rat :=
  b.map fun entry => (entry.1, ⟨entry.2.x * factor.x + shift.x, entry.2.y * factor.y + shift.y⟩)

/-- The ends of the axes of a drawing are those of its box. -/
theorem exists_ends (hb : b ≠ []) : ∃ box, Bounds.ofPoints? (b.map Prod.snd) = some box ∧
    Spans (b.map (·.2.x)) box.minX box.maxX ∧ Spans (b.map (·.2.y)) box.minY box.maxY := by
  obtain ⟨box, hbox⟩ := exists_box hb
  obtain ⟨hx, hy⟩ := Bounds.ofPoints?_around hbox
  rw [List.map_map] at hx hy
  exact ⟨box, hbox, hx, hy⟩

/-- What is fitted depends on the ends of the axes, in whatever way they are found. -/
theorem fit_eq_map {left right top bottom : Rat} (hx : Spans (b.map (·.2.x)) left right)
    (hy : Spans (b.map (·.2.y)) top bottom) (inset : Rat) :
    b.fit inset = b.map fun entry =>
      (entry.1, ⟨fitValue (1 - 2 * inset) inset entry.2.x left right,
        fitValue (1 - 2 * inset) inset entry.2.y top bottom⟩) := by
  have hne : b ≠ [] := by
    rintro rfl
    exact List.not_mem_nil hx.low_mem
  obtain ⟨box, hbox, hboxX, hboxY⟩ := exists_ends hne
  obtain ⟨rfl, rfl⟩ := hx.unique hboxX
  obtain ⟨rfl, rfl⟩ := hy.unique hboxY
  rw [fit, hbox]
  rfl

theorem xs_reframe (factor shift : Point Rat) (b : Blueprint Rat) :
    (b.reframe factor shift).map (·.2.x) = (b.map (·.2.x)).map fun v => v * factor.x + shift.x := by
  rw [reframe, List.map_map, List.map_map]
  rfl

theorem ys_reframe (factor shift : Point Rat) (b : Blueprint Rat) :
    (b.reframe factor shift).map (·.2.y) = (b.map (·.2.y)).map fun v => v * factor.y + shift.y := by
  rw [reframe, List.map_map, List.map_map]
  rfl

/-- Neither where a drawing is nor how large its axes are shows after fitting. -/
theorem fit_reframe {factor : Point Rat} (hx : 0 < factor.x) (hy : 0 < factor.y) (shift : Point Rat) (inset : Rat)
    (b : Blueprint Rat) : (b.reframe factor shift).fit inset = b.fit inset := by
  rcases eq_or_ne b [] with rfl | hne
  · rfl
  · obtain ⟨box, -, hspansX, hspansY⟩ := exists_ends hne
    have hframedX := hspansX.reframe hx shift.x
    have hframedY := hspansY.reframe hy shift.y
    rw [← xs_reframe factor shift] at hframedX
    rw [← ys_reframe factor shift] at hframedY
    rw [fit_eq_map hspansX hspansY, fit_eq_map hframedX hframedY, reframe, List.map_map]
    refine List.map_congr_left fun entry _ => ?_
    simp only [Function.comp_apply, fitValue_reframe hx, fitValue_reframe hy]

theorem bordered_fit (hinset : 0 ≤ inset ∧ inset < 1 / 2) (b : Blueprint Rat) :
    Bordered inset ((b.fit inset).map (·.2.x)) ∧ Bordered inset ((b.fit inset).map (·.2.y)) := by
  rcases eq_or_ne b [] with rfl | hne
  · have hnone : Bordered inset [] := ⟨nofun, nofun, fun _ => nofun⟩
    exact ⟨hnone, hnone⟩
  · obtain ⟨-, -, -, -, hx, hy⟩ := exists_fit hne hinset
    exact ⟨hx, hy⟩

/-- A drawing that keeps the border and reaches it is fitted already. -/
theorem fit_of_bordered (hx : Bordered inset (b.map (·.2.x))) (hy : Bordered inset (b.map (·.2.y))) :
    b.fit inset = b := by
  rcases eq_or_ne b [] with rfl | hne
  · rfl
  · obtain ⟨box, -, hspansX, hspansY⟩ := exists_ends hne
    rw [fit_eq_map hspansX hspansY]
    refine (List.map_congr_left fun entry hentry => ?_).trans (List.map_id b)
    rw [fitValue_of_bordered hx hspansX (List.mem_map_of_mem hentry),
      fitValue_of_bordered hy hspansY (List.mem_map_of_mem hentry)]
    rfl

theorem fit_fit (hinset : 0 ≤ inset ∧ inset < 1 / 2) (b : Blueprint Rat) : (b.fit inset).fit inset = b.fit inset :=
  fit_of_bordered (bordered_fit hinset b).1 (bordered_fit hinset b).2

theorem orderedAs_fit (hinset : 0 ≤ inset ∧ inset < 1 / 2) (b : Blueprint Rat) :
    OrderedAs (b.map (·.2.x)) ((b.fit inset).map (·.2.x)) ∧ OrderedAs (b.map (·.2.y)) ((b.fit inset).map (·.2.y)) := by
  rcases eq_or_ne b [] with rfl | hne
  · exact ⟨nofun, nofun⟩
  · obtain ⟨f, g, ⟨hf, hg⟩, hfit, -, -⟩ := exists_fit hne hinset
    have hx : (b.fit inset).map (·.2.x) = (b.map (·.2.x)).map f := by
      rw [hfit, List.map_map, List.map_map]
      rfl
    have hy : (b.fit inset).map (·.2.y) = (b.map (·.2.y)).map g := by
      rw [hfit, List.map_map, List.map_map]
      rfl
    rw [hx, hy]
    exact ⟨orderedAs_map hf, orderedAs_map hg⟩

end Blueprint

/-! ### Layouts -/

/-- Nothing is added and no layout is stored. What is shown may move. -/
def GraphOperation.KeepsLayout {F α : Type} : GraphOperation F α → Prop
  | addNode _ => False
  | applyLayout _ => False
  | _ => True

namespace Graph

variable {W F : Type} [Handle F] {g g' : Graph F Rat} {inset : Rat}

omit [Handle F] in
theorem restoreLayout_nodes_place (g : Graph F Rat) (points : Placement Rat) :
    (g.applyPoints points).restoreLayout.nodes = g.restoreLayout.nodes := by
  rw [restoreLayout, applyPoints, place, restoreLayout]
  dsimp only
  rw [Array.map_map]
  refine Array.map_congr_left fun n _ => ?_
  rw [Function.comp_apply]
  split <;> rfl

omit [Handle F] in
theorem restoreLayout_nodes_setPoint (g : Graph F Rat) (id : NodeId) (p : Point Rat) :
    (g.modifyNode id fun n => { n with point := p }).restoreLayout.nodes = g.restoreLayout.nodes := by
  unfold modifyNode
  split
  · refine Array.ext_getElem? fun i => ?_
    simp only [restoreLayout, Array.getElem?_map, Array.getElem?_modify]
    split
    · cases g.nodes[i]? <;> rfl
    · rfl
  · rfl

/-- What is shown has no part in where the layout is. -/
theorem restoreLayout_nodes_change {move : GraphOperation F Rat} (hmove : move.KeepsLayout) (g : Graph F Rat) :
    (move.change g).restoreLayout.nodes = g.restoreLayout.nodes := by
  cases move with
  | addNode f => exact hmove.elim
  | addEdge source target =>
    rw [Wired.change_addEdge]
    split
    · rw [restoreLayout, nodes_pushEdge, restoreLayout]
    · rfl
  | components => rfl
  | clone => rfl
  | restrict c => rfl
  | setPoint f p => exact restoreLayout_nodes_setPoint g _ p
  | applyLayout points => exact hmove.elim
  | applyPoints points => exact restoreLayout_nodes_place g points
  | restoreLayout =>
    change (g.nodes.map _).map _ = _
    rw [Array.map_map]
    rfl
  | fitToView inset => exact restoreLayout_nodes_place g _

theorem Sound.foldl_change {moves : List (GraphOperation F Rat)} (hmoves : ∀ move ∈ moves, move.KeepsLayout)
    (hg : g.Sound) :
    (moves.foldl (fun g move => move.change g) g).Sound ∧
      (moves.foldl (fun g move => move.change g) g).restoreLayout.nodes = g.restoreLayout.nodes := by
  induction moves generalizing g with
  | nil => exact ⟨hg, rfl⟩
  | cons move rest ih =>
    obtain ⟨hmove, hrest⟩ := List.forall_mem_cons.mp hmoves
    obtain ⟨hsound, hnodes⟩ := ih hrest (hg.change move)
    exact ⟨hsound, hnodes.trans (restoreLayout_nodes_change hmove g)⟩

/-- If the layout is fitted already, to fit it is to show it. -/
theorem Sound.fitToView_eq (hg : g.Sound) (hx : Bordered inset (g.nodes.toList.map (·.layoutPoint.x)))
    (hy : Bordered inset (g.nodes.toList.map (·.layoutPoint.y))) : g.fitToView inset = g.restoreLayout := by
  have hfit : Blueprint.fit inset (g.nodes.toList.map fun n => (n.id, n.layoutPoint)) =
      g.nodes.toList.map fun n => (n.id, n.layoutPoint) := by
    refine Blueprint.fit_of_bordered ?_ ?_
    · rw [List.map_map]
      exact hx
    · rw [List.map_map]
      exact hy
  have hids : ((g.nodes.toList.map fun n => (n.id, n.layoutPoint)).map Prod.fst).Nodup := by
    rw [List.map_map]
    exact hg.nodes.nodup
  unfold fitToView applyPoints place restoreLayout
  dsimp only
  rw [hfit]
  congr 1
  refine Array.map_congr_left fun n hn => ?_
  have hplace := (Placement.getElem?_ofList hids).mpr (List.mem_map_of_mem (Array.mem_toList_iff.mpr hn))
  rw [hplace]

omit [Handle F] in
/-- A layout is shown as it is kept. -/
theorem LaidOut.point_eq {points : Blueprint Rat} (h : g.LaidOut points g') {n : Node F Rat} (hn : n ∈ g'.nodes) :
    n.point = n.layoutPoint := by
  obtain ⟨m, -, p, -, rfl⟩ := exists_of_forall₂ h.nodes (Array.mem_toList_iff.mpr hn)
  rfl

omit [Handle F] in
theorem restoreLayout_nodes_eq (h : ∀ n ∈ g.nodes, n.point = n.layoutPoint) : g.restoreLayout.nodes = g.nodes := by
  refine (Array.map_congr_left fun n hn => ?_).trans (Array.map_id g.nodes)
  obtain ⟨id, f, point, layoutPoint⟩ := n
  obtain rfl : point = layoutPoint := h _ hn
  rfl

end Graph

namespace LayoutService

variable {W F : Type} [Handle F] {service : LayoutService W Rat} {settings : LayoutSettings Rat} {g g' : Graph F Rat}
  {w w' : W}

theorem arrange_sound (hg : g.Sound) (h : (service.arrange settings g).after w = (.ok g', w')) : g'.Sound := by
  rcases arrange_ok h with rfl | ⟨points, rfl⟩
  · exact hg
  · exact hg.moved (Graph.moved_place _ fun _ _ => rfl)

/-- What a layout gives is fitted and is what is shown. -/
theorem arrange_fitted (hg : g.Sound) (hinset : 0 ≤ settings.inset ∧ settings.inset < 1 / 2)
    (h : (service.arrange settings g).after w = (.ok g', w')) :
    (∀ n ∈ g'.nodes, n.point = n.layoutPoint) ∧
      Bordered settings.inset (g'.nodes.toList.map (·.layoutPoint.x)) ∧
      Bordered settings.inset (g'.nodes.toList.map (·.layoutPoint.y)) := by
  obtain ⟨log, hnoted⟩ := noted_arrange service settings g w []
  rw [h] at hnoted
  obtain ⟨bs, -, hlaid⟩ := arrange_laidOut hg hnoted
  have hshown (axis : Point Rat → Rat) : (g'.nodes.toList.map fun n => axis n.layoutPoint) =
      g'.nodes.toList.map fun n => axis n.point := by
    refine List.map_congr_left fun n hn => ?_
    rw [hlaid.point_eq (Array.mem_toList_iff.mp hn)]
  obtain ⟨hx, hy⟩ := Blueprint.bordered_fit hinset (Blueprint.stack settings.gridSize bs)
  refine ⟨fun n => hlaid.point_eq, ?_, ?_⟩
  · rw [hshown Point.x]
    exact hlaid.bordered Point.x hx
  · rw [hshown Point.y]
    exact hlaid.bordered Point.y hy

/-- To fit the view after a layout, with the inset of the layout, shows the layout again. -/
theorem fitToView_after_arrange (hg : g.Sound) (hinset : 0 ≤ settings.inset ∧ settings.inset < 1 / 2)
    (h : (service.arrange settings g).after w = (.ok g', w')) {moves : List (GraphOperation F Rat)}
    (hmoves : ∀ move ∈ moves, move.KeepsLayout) :
    ((moves.foldl (fun g move => move.change g) g').fitToView settings.inset).nodes = g'.nodes := by
  obtain ⟨hshown, hx, hy⟩ := arrange_fitted hg hinset h
  obtain ⟨hsound, hnodes⟩ := (arrange_sound hg h).foldl_change hmoves
  generalize moves.foldl (fun g move => move.change g) g' = moved at hsound hnodes
  have hlayout (axis : Point Rat → Rat) : (moved.nodes.toList.map fun n => axis n.layoutPoint) =
      g'.nodes.toList.map fun n => axis n.layoutPoint := by
    have hsame := congrArg (fun nodes => nodes.toList.map fun n => axis n.layoutPoint) hnodes
    simpa [Graph.restoreLayout, Function.comp_def] using hsame
  rw [hsound.fitToView_eq ?_ ?_, hnodes, Graph.restoreLayout_nodes_eq hshown]
  · rwa [hlayout Point.x]
  · rwa [hlayout Point.y]

end LayoutService

namespace Blueprint

/-- Fitting keeps the nodes, and on each axis the order of their places. It gives the same for drawings that differ by
where they are and by how large their axes are, and nothing new for a drawing that is fitted. So whatever is shown after
a layout, fitting with the inset of the layout shows every node where the layout has it. -/
theorem fit_normalForm {inset : Rat} (hinset : 0 ≤ inset ∧ inset < 1 / 2) (b : Blueprint Rat) :
    (b.fit inset).map Prod.fst = b.map Prod.fst ∧
    (∀ factor shift : Point Rat, 0 < factor.x → 0 < factor.y → (b.reframe factor shift).fit inset = b.fit inset) ∧
    (OrderedAs (b.map (·.2.x)) ((b.fit inset).map (·.2.x)) ∧ OrderedAs (b.map (·.2.y)) ((b.fit inset).map (·.2.y))) ∧
    (b.fit inset).fit inset = b.fit inset ∧
    ∀ {W F : Type} [Handle F] {service : LayoutService W Rat} {settings : LayoutSettings Rat} {g g' : Graph F Rat}
      {w w' : W} {moves : List (GraphOperation F Rat)}, settings.inset = inset → g.Reached →
      (service.arrange settings g).after w = (.ok g', w') → (∀ move ∈ moves, move.KeepsLayout) →
      let fitted := (moves.foldl (fun g move => move.change g) g').fitToView inset
      fitted.nodes = g'.nodes ∧ ∀ n ∈ fitted.nodes, n.point = n.layoutPoint := by
  refine ⟨ids_fit inset b, fun factor shift hx hy => fit_reframe hx hy shift inset b, orderedAs_fit hinset b,
    fit_fit hinset b, ?_⟩
  rintro W F _ service settings g g' w w' moves rfl hg h hmoves
  have hnodes := LayoutService.fitToView_after_arrange hg.sound hinset h hmoves
  refine ⟨hnodes, fun n hn => ?_⟩
  rw [hnodes] at hn
  exact (LayoutService.arrange_fitted hg.sound hinset h).1 n hn

/-- A row of three nodes that is stretched and moved, and a layout after which a node is pulled away and the view is
fitted with another border. -/
theorem pulled_node_back :
    let b : Blueprint Rat := [(⟨0⟩, ⟨0, 5⟩), (⟨1⟩, ⟨36, 5⟩), (⟨2⟩, ⟨72, 5⟩)]
    let inset : Rat := 1 / 10
    (0 ≤ inset ∧ inset < 1 / 2) ∧ ((0 : Rat) < 2 ∧ (0 : Rat) < 3) ∧
      (b.reframe ⟨2, 3⟩ ⟨-1, 4⟩).fit inset = b.fit inset ∧
      (b.fit inset).map (·.2.x) = [1 / 10, 1 / 2, 9 / 10] ∧ (b.fit inset).map (·.2.y) = [1 / 2, 1 / 2, 1 / 2] ∧
      ∃ g ∈ Workbench.run LayoutService.callBeside, ∃ g',
        ((LayoutService.steady fun request => .ok (.pinned ⟨0, 0⟩ request)).arrange .standard g).after () =
          (.ok g', ()) ∧
        ((([.setPoint (.named "main") ⟨3, -2⟩, .fitToView (1 / 4)] : List (GraphOperation SourceFunction Rat)).foldl
          (fun g move => move.change g) g').fitToView inset).nodes = g'.nodes := by
  intro b inset
  have hinset : 0 ≤ inset ∧ inset < 1 / 2 := by decide +kernel
  obtain ⟨-, hreframe, -, -, hlayout⟩ := fit_normalForm hinset b
  obtain ⟨g, hmem, -, -⟩ := LayoutService.exists_callBeside
  have hcalm : (LayoutService.steady fun request => .ok (.pinned ⟨0, 0⟩ request)).Calm (fun _ => True)
      (⟨0, 0⟩ : Point Rat) := ⟨⟨fun _ _ => trivial, fun _ _ _ => trivial⟩, fun _ _ => rfl, fun _ _ _ => rfl, rfl⟩
  obtain ⟨g', ⟨⟩, hrun, -⟩ := hcalm.arrange .standard g () trivial
  have hmoves : ∀ move ∈ ([.setPoint (.named "main") ⟨3, -2⟩, .fitToView (1 / 4)] :
      List (GraphOperation SourceFunction Rat)), move.KeepsLayout := by
    simp [GraphOperation.KeepsLayout]
  refine ⟨hinset, by decide +kernel, hreframe ⟨2, 3⟩ ⟨-1, 4⟩ (by decide +kernel) (by decide +kernel), by decide +kernel,
    by decide +kernel, g, hmem, g', hrun, ?_⟩
  exact (hlayout rfl ⟨LayoutService.callBeside, hmem⟩ hrun hmoves).1

end Blueprint
end CallChart
