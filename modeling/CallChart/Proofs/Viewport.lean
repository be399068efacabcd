import CallChart.Proofs.Layouts
import CallChart.Proofs.Tiers
import Mathlib.Data.List.Pairwise

/-! Where a layout puts the nodes when coordinates are exact: within the border of the unit square, which it
reaches on both sides, with no component beside another one. -/
namespace CallChart

variable {W F : Type} [Handle F]

namespace Graph

/-- All nodes of one component lie above all of another one. -/
def Above (g : Graph F Rat) (c d : Component) : Prop :=
  ∀ n ∈ g.nodes, n.id ∈ c.nodes → ∀ m ∈ g.nodes, m.id ∈ d.nodes → n.point.y < m.point.y

/-- The nodes of a component stand to each other as they do in a drawing, on each axis. -/
def DrawnAs (g : Graph F Rat) (c : Component) (raw : RawLayout Rat) : Prop :=
  ∀ n ∈ g.nodes, n.id ∈ c.nodes → ∀ m ∈ g.nodes, m.id ∈ c.nodes →
    ∀ p q, raw.positions[n.id.label]? = some p → raw.positions[m.id.label]? = some q →
      (n.point.x < m.point.x ↔ p.x < q.x) ∧ (n.point.y < m.point.y ↔ p.y < q.y)

end Graph

theorem Bordered.congr {inset : Rat} {values values' : List Rat} (h : Bordered inset values)
    (hsame : ∀ v, v ∈ values' ↔ v ∈ values) : Bordered inset values' where
  within hv := h.within ((hsame _).mp hv)
  reached := by
    rintro ⟨v, hv, u, hu, hne⟩
    obtain ⟨hlow, hhigh⟩ := h.reached ⟨v, (hsame v).mp hv, u, (hsame u).mp hu, hne⟩
    exact ⟨(hsame _).mpr hlow, (hsame _).mpr hhigh⟩
  centred heq v hv :=
    h.centred (fun v hv u hu => heq v ((hsame v).mpr hv) u ((hsame u).mpr hu)) v ((hsame v).mp hv)

variable {g g' : Graph F Rat} {points : Blueprint Rat} {inset : Rat}

omit [Handle F] in
/-- An axis of the nodes keeps the border if that of their points does. -/
theorem Graph.LaidOut.bordered (h : g.LaidOut points g') (axis : Point Rat → Rat)
    (hpoints : Bordered inset (points.map fun entry => axis entry.2)) :
    Bordered inset (g'.nodes.toList.map fun n => axis n.point) := by
  refine hpoints.congr fun v => ?_
  rw [List.mem_map, List.mem_map]
  constructor
  · rintro ⟨n, hn, rfl⟩
    exact ⟨_, h.mem_iff.mpr ⟨n, Array.mem_toList_iff.mp hn, rfl, rfl⟩, rfl⟩
  · rintro ⟨⟨id, p⟩, hp, rfl⟩
    obtain ⟨n, hn, -, rfl⟩ := h.mem_iff.mp hp
    exact ⟨n, Array.mem_toList_iff.mpr hn, rfl⟩

namespace LayoutService

variable {service : LayoutService W Rat} {settings : LayoutSettings Rat} {w w' : W} {log : List (Exchange Rat)}
  {bs rows : List (Blueprint Rat)} {row : Blueprint Rat} {c d : Component}

omit [Handle F] in
/-- A node is shown at its place in the row that has it. -/
theorem mem_row (hlaid : g.LaidOut points g') (htiered : Blueprint.Tiered inset bs points rows) (hrow : row ∈ rows)
    {n : Node F Rat} (hn : n ∈ g'.nodes) (hid : n.id ∈ row.map Prod.fst) : (n.id, n.point) ∈ row := by
  obtain ⟨⟨id, p⟩, hp, rfl⟩ := List.mem_map.mp hid
  have hpoint : (n.id, n.point) ∈ points := hlaid.mem_iff.mpr ⟨n, hn, rfl, rfl⟩
  have hplace : (n.id, p) ∈ points := htiered.flat ▸ List.mem_flatten.mpr ⟨row, hrow, hp⟩
  have hsame := List.inj_on_of_nodup_map hlaid.once hpoint hplace rfl
  rwa [hsame]

theorem Drawn.exists_blueprint (h : Drawn settings g g.components log bs) (hg : g.Sound) (hc : c ∈ g.components) :
    ∃ b ∈ bs, b ≠ [] ∧ (b.map Prod.fst).Perm c.nodes := by
  obtain ⟨b, hb, hids⟩ := exists_of_forall₂ h.nodes.flip hc
  refine ⟨b, hb, ?_, hids⟩
  rintro rfl
  exact hg.component_ne_nil hc (List.nil_perm.mp hids)

/-- Every component has a row. -/
theorem Drawn.exists_row (h : Drawn settings g g.components log bs) (hg : g.Sound)
    (htiered : Blueprint.Tiered inset bs points rows) (hc : c ∈ g.components) :
    ∃ row ∈ rows, (row.map Prod.fst).Perm c.nodes := by
  obtain ⟨b, hb, hne, hids⟩ := h.exists_blueprint hg hc
  obtain ⟨row, hrow, hredrawn⟩ := htiered.redrawn hb hne
  exact ⟨row, hrow, hredrawn.ids ▸ hids⟩

theorem Drawn.above_or_above (h : Drawn settings g g.components log bs) (hg : g.Sound)
    (hlaid : g.LaidOut points g') (htiered : Blueprint.Tiered inset bs points rows) (hc : c ∈ g.components)
    (hd : d ∈ g.components) (hcd : c ≠ d) : g'.Above c d ∨ g'.Above d c := by
  obtain ⟨row, hrow, hcrow⟩ := h.exists_row hg htiered hc
  obtain ⟨row', hrow', hdrow⟩ := h.exists_row hg htiered hd
  have habove {c d : Component} {row row' : Blueprint Rat} (hrow : row ∈ rows) (hrow' : row' ∈ rows)
      (hc : (row.map Prod.fst).Perm c.nodes) (hd : (row'.map Prod.fst).Perm d.nodes)
      (hover : SizedBlueprint.Over row row') : g'.Above c d := by
    intro n hn hnc m hm hmd
    exact hover _ (mem_row hlaid htiered hrow hn (hc.mem_iff.mpr hnc)) _
      (mem_row hlaid htiered hrow' hm (hd.mem_iff.mpr hmd))
  have hsymm : Std.Symm fun c d : Component => c.nodes.Disjoint d.nodes := ⟨fun _ _ h => h.symm⟩
  have hdisjoint : c.nodes.Disjoint d.nodes := hg.components_disjoint.forall hc hd hcd
  have hrows : row ≠ row' := by
    rintro rfl
    obtain ⟨id, hid⟩ := List.exists_mem_of_ne_nil _ (hg.component_ne_nil hc)
    exact hdisjoint hid (hdrow.mem_iff.mp (hcrow.mem_iff.mpr hid))
  have hside : Std.Symm fun b b' => SizedBlueprint.Over b b' ∨ SizedBlueprint.Over b' b := ⟨fun _ _ h => h.symm⟩
  have hpairs : rows.Pairwise fun b b' => SizedBlueprint.Over b b' ∨ SizedBlueprint.Over b' b :=
    htiered.apart.imp Or.inl
  exact (hpairs.forall hrow hrow' hrows).imp (habove hrow hrow' hcrow hdrow) (habove hrow' hrow hdrow hcrow)

theorem Drawn.drawnAs (h : Drawn settings g g.components log bs) (hg : g.Sound) (hgrid : 0 < settings.gridSize)
    (hprecision : 0 < settings.precision) (hlaid : g.LaidOut points g')
    (htiered : Blueprint.Tiered inset bs points rows) (hc : c ∈ g.components) {raw : RawLayout Rat}
    (hraw : (LayoutRequest.ofComponent g c, .ok raw) ∈ log) : g'.DrawnAs c raw := by
  obtain ⟨d, -, hrequest, b, hb, b', hmem, hscaled⟩ := h.answered_of_mem hraw
  have hplaced : positions raw (LayoutRequest.order g d) = .ok b := hb
  have hids : (b.map Prod.fst).Perm c.nodes := by
    rw [(positions_ok hplaced).1]
    exact (LayoutRequest.perm_order g d).trans (LayoutRequest.perm_of_ofComponent_eq hrequest).symm
  have hne : b' ≠ [] := by
    rintro rfl
    have hempty : b.map Prod.fst = [] := (Blueprint.ids_normalize hscaled).symm
    exact hg.component_ne_nil hc (List.nil_perm.mp (hempty ▸ hids))
  obtain ⟨row, hrow, hredrawn⟩ := htiered.redrawn hmem hne
  have hwhole := (Blueprint.redrawn_normalize hgrid hprecision hscaled).trans hredrawn
  intro n hn hnc m hm hmc p q hp hq
  have hshown {n : Node F Rat} (hn : n ∈ g'.nodes) (hnc : n.id ∈ c.nodes) : (n.id, n.point) ∈ row := by
    refine mem_row hlaid htiered hrow hn ?_
    rw [hwhole.ids]
    exact hids.mem_iff.mpr hnc
  have hdrawn {id : NodeId} {p : Point Rat} (hid : id ∈ c.nodes) (hp : raw.positions[id.label]? = some p) :
      (id, p) ∈ b := by
    rw [mem_positions hplaced, ← (positions_ok hplaced).1]
    exact ⟨hids.mem_iff.mpr hid, hp⟩
  have honce : (b.map Prod.fst).Nodup := hids.nodup_iff.mpr (hg.component_class hc).1
  exact hwhole.lt_iff honce (hdrawn hnc hp) (hdrawn hmc hq) (hshown hn hnc) (hshown hm hmc)

/-- A layout shows a graph within the border. On each axis it reaches both sides, or all nodes are in the
middle. Different components have nothing beside each other, and within a component the nodes stand as the
service has drawn them. -/
theorem within_viewport (hg : g.Reached) (hnonempty : g.isEmpty = false) (hsettings : settings.check = .ok ())
    (h : (service.noted.arrange settings g).after (w, []) = (.ok g', (w', log))) :
    Bordered settings.inset (g'.nodes.toList.map (·.point.x)) ∧
    Bordered settings.inset (g'.nodes.toList.map (·.point.y)) ∧
    (∀ c ∈ g.components, ∀ d ∈ g.components, c ≠ d → g'.Above c d ∨ g'.Above d c) ∧
    ∀ c ∈ g.components, ∀ raw, (LayoutRequest.ofComponent g c, .ok raw) ∈ log → g'.DrawnAs c raw := by
  have hsound := hg.sound
  obtain ⟨hgrid, hinset, hprecision⟩ := LayoutSettings.check_ok_iff.mp hsettings
  obtain ⟨bs, hdrawn, hlaid⟩ := arrange_laidOut hsound h
  obtain ⟨n, hn⟩ := Array.exists_mem_of_ne_empty g.nodes fun heq => by simp [Graph.isEmpty, heq] at hnonempty
  obtain ⟨c, hc, -⟩ := hsound.exists_component (Graph.mem_ids.mpr ⟨n, hn, rfl⟩)
  obtain ⟨b, hb, hne, -⟩ := hdrawn.exists_blueprint hsound hc
  obtain ⟨rows, htiered⟩ := Blueprint.exists_tiered hgrid hinset hb hne
  refine ⟨?_, ?_, fun c hc d hd hcd => ?_, fun c hc raw hraw => ?_⟩
  · exact hlaid.bordered Point.x htiered.x
  · exact hlaid.bordered Point.y htiered.y
  · exact hdrawn.above_or_above hsound hlaid htiered hc hd hcd
  · exact hdrawn.drawnAs hsound hgrid (one_pos.trans_le hprecision) hlaid htiered hc hraw

omit [Handle F] in
theorem calm_steady (p : Point Rat) :
    (steady fun request => .ok (.pinned p request)).noted.Calm (fun _ => True) p :=
  ⟨⟨fun _ _ => trivial, fun _ _ _ => trivial⟩, fun _ _ => rfl, fun _ _ _ => rfl, rfl⟩

theorem callBeside_within_viewport :
    ∃ g ∈ Workbench.run callBeside, ∃ g' log,
      ((steady fun request => .ok (.pinned ⟨0, 0⟩ request)).noted.arrange .standard g).after ((), []) =
        (.ok g', ((), log)) ∧
      Bordered (1 / 10) (g'.nodes.toList.map (·.point.x)) ∧ Bordered (1 / 10) (g'.nodes.toList.map (·.point.y)) ∧
      ∃ c ∈ g.components, ∃ d ∈ g.components, c ≠ d ∧ (g'.Above c d ∨ g'.Above d c) := by
  obtain ⟨g, hmem, hnonempty, hparts⟩ := exists_callBeside
  obtain ⟨g', ⟨⟨⟩, log⟩, hrun, -⟩ := (calm_steady ⟨0, 0⟩).arrange .standard g ((), []) trivial
  obtain ⟨hx, hy, happart, -⟩ := within_viewport ⟨callBeside, hmem⟩ hnonempty LayoutSettings.check_standard hrun
  have hlengths (k : Nat) (hk : k ∈ [2, 1]) : ∃ c ∈ g.components, c.nodes.length = k :=
    List.mem_map.mp (hparts ▸ hk)
  obtain ⟨c, hc, htwo⟩ := hlengths 2 (by decide)
  obtain ⟨d, hd, hone⟩ := hlengths 1 (by decide)
  have hne : c ≠ d := by
    rintro rfl
    rw [htwo] at hone
    cases hone
  exact ⟨g, hmem, g', log, hrun, hx, hy, c, hc, d, hd, hne, happart c hc d hd hne⟩

end LayoutService
end CallChart
