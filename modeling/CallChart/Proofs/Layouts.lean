import CallChart.Proofs.Drawings
import CallChart.Proofs.Tiers

/-! What a layout makes of a graph: the drawings of its components have every node once, and each node gets the point
that it has in them. -/
namespace CallChart

variable {W F α : Type} [Handle F] [Scalar α]

/-! ### Nodes of a drawing -/

theorem SizedBlueprint.ofBlueprint?_eq_some {gridSize : α} {b : Blueprint α} {s : SizedBlueprint α}
    (h : ofBlueprint? gridSize b = some s) : s.blueprint = b := by
  obtain ⟨box, -, rfl⟩ := Option.map_eq_some_iff.mp h
  rfl

theorem SizedBlueprint.ofBlueprint?_eq_none {gridSize : α} {b : Blueprint α} (h : ofBlueprint? gridSize b = none) :
    b = [] := by
  cases b with
  | nil => rfl
  | cons entry rest => cases h

theorem SizedBlueprint.ids_placeFrom (central offset : α) (ss : List (SizedBlueprint α)) :
    (placeFrom central offset ss).map Prod.fst = ss.flatMap fun s => s.blueprint.map Prod.fst := by
  induction ss generalizing offset with
  | nil => rfl
  | cons s rest ih =>
    rw [placeFrom, List.map_append, List.map_map, ih, List.flatMap_cons]
    rfl

namespace Blueprint

/-- Stacking loses no node and repeats none. -/
theorem perm_ids_stack (gridSize : α) (bs : List (Blueprint α)) :
    ((stack gridSize bs).map Prod.fst).Perm (bs.flatMap fun b => b.map Prod.fst) := by
  have hsized : (bs.filterMap (SizedBlueprint.ofBlueprint? gridSize)).flatMap (fun s => s.blueprint.map Prod.fst) =
      bs.flatMap fun b => b.map Prod.fst := by
    induction bs with
    | nil => rfl
    | cons b rest ih =>
      rw [List.filterMap_cons]
      split
      · next hnone =>
        rw [SizedBlueprint.ofBlueprint?_eq_none hnone, ih]
        rfl
      · next s hs => rw [List.flatMap_cons, ih, SizedBlueprint.ofBlueprint?_eq_some hs, List.flatMap_cons]
  rw [stack, SizedBlueprint.ids_placeFrom, ← hsized]
  exact (List.mergeSort_perm _ _).flatMap_right _

theorem ids_fit (inset : α) (b : Blueprint α) : (b.fit inset).map Prod.fst = b.map Prod.fst := by
  cases b with
  | nil => rfl
  | cons entry rest =>
    rw [fit]
    exact List.map_map

end Blueprint

/-! ### Nodes that are moved -/

theorem exists_of_forall₂ {β γ : Type} {R : β → γ → Prop} {xs : List β} {ys : List γ} (h : List.Forall₂ R xs ys)
    {y : γ} (hy : y ∈ ys) : ∃ x ∈ xs, R x y := by
  induction h with
  | nil => cases hy
  | @cons x y' _ _ hxy _ ih =>
    rcases List.mem_cons.mp hy with rfl | hrest
    · exact ⟨x, List.mem_cons_self, hxy⟩
    · obtain ⟨x', hx', hxy'⟩ := ih hrest
      exact ⟨x', List.mem_cons_of_mem _ hx', hxy'⟩

omit [Scalar α] in
/-- In a list with one point for each node the placement finds that point. -/
theorem Placement.getElem?_ofList {points : Blueprint α} (h : (points.map Prod.fst).Nodup) {id : NodeId}
    {p : Point α} : (Placement.ofList points)[id]? = some p ↔ (id, p) ∈ points := by
  have hfold (placed : Placement α) :
      (points.foldl (fun placed entry => placed.insert entry.1 entry.2) placed)[id]? = some p ↔
        (id, p) ∈ points ∨ id ∉ points.map Prod.fst ∧ placed[id]? = some p := by
    induction points generalizing placed with
    | nil => simp
    | cons entry rest ih =>
      obtain ⟨hnew, hrest⟩ := List.nodup_cons.mp h
      rw [List.foldl_cons, ih hrest, Std.TreeMap.getElem?_insert]
      split
      · next heq =>
        obtain rfl := Std.LawfulEqCmp.eq_of_compare heq
        have hout : (entry.1, p) ∉ rest := fun hin => hnew (List.mem_map.mpr ⟨_, hin, rfl⟩)
        have hentry : (entry.1, p) = entry ↔ entry.2 = p := by
          rw [Prod.ext_iff, eq_comm (a := p)]
          exact and_iff_right rfl
        simp [hout, hnew, hentry]
      · next hne =>
        have hother : entry.1 ≠ id := fun heq => hne (heq ▸ Std.ReflCmp.compare_self)
        have hentry : (id, p) ≠ entry := fun heq => hother (congrArg Prod.fst heq).symm
        rw [List.mem_cons, or_iff_right hentry, List.map_cons, List.mem_cons, or_iff_right hother.symm]
  rw [Placement.ofList, hfold]
  simp

namespace Graph

/-- Every node has one of the points, at which it is shown and which is kept as its layout, and nothing else
is new. -/
structure LaidOut (g : Graph F α) (points : Blueprint α) (g' : Graph F α) : Prop where
  ids : (points.map Prod.fst).Perm g.ids
  once : (points.map Prod.fst).Nodup
  nodes : List.Forall₂ (fun n n' => ∃ p, (n.id, p) ∈ points ∧ n' = { n with point := p, layoutPoint := p })
    g.nodes.toList g'.nodes.toList
  edges : g'.edges = g.edges

variable {g : Graph F α}

omit [Handle F] [Scalar α] in
/-- The points are those of the nodes. -/
theorem LaidOut.mem_iff {g' : Graph F α} {points : Blueprint α} (h : g.LaidOut points g') {id : NodeId}
    {p : Point α} : (id, p) ∈ points ↔ ∃ n ∈ g'.nodes, n.id = id ∧ n.point = p := by
  have hpoint {n' : Node F α} (hn' : n' ∈ g'.nodes) : (n'.id, n'.point) ∈ points := by
    obtain ⟨n, -, p, hp, rfl⟩ := exists_of_forall₂ h.nodes (Array.mem_toList_iff.mpr hn')
    exact hp
  constructor
  · intro hp
    obtain ⟨n, hn, hid⟩ := List.mem_map.mp (h.ids.subset (List.mem_map_of_mem hp))
    obtain ⟨n', hn', q, hq, rfl⟩ := exists_of_forall₂ h.nodes.flip hn
    have hsame := List.inj_on_of_nodup_map h.once hq hp hid
    exact ⟨_, Array.mem_toList_iff.mp hn', hid, congrArg Prod.snd hsame⟩
  · rintro ⟨n, hn, rfl, rfl⟩
    exact hpoint hn

omit [Scalar α] in
theorem Sound.laidOut (h : g.Sound) {points : Blueprint α} (hids : (points.map Prod.fst).Perm g.ids) :
    g.LaidOut points (g.applyLayout (Placement.ofList points)) := by
  have hnodup : (points.map Prod.fst).Nodup := hids.nodup_iff.mpr h.nodes.nodup
  refine ⟨hids, hnodup, ?_, rfl⟩
  rw [applyLayout, place, Array.toList_map, List.forall₂_map_right_iff, List.forall₂_same]
  intro n hn
  have hin : n.id ∈ points.map Prod.fst := hids.mem_iff.mpr (List.mem_map_of_mem hn)
  obtain ⟨⟨id, p⟩, hp, hid⟩ := List.mem_map.mp hin
  obtain rfl : id = n.id := hid
  refine ⟨p, hp, ?_⟩
  have hfound := (Placement.getElem?_ofList hnodup).mpr hp
  rw [hfound]

end Graph

namespace LayoutService

variable {service : LayoutService W α} {settings : LayoutSettings α} {g g' : Graph F α} {I : W → Prop} {w w' : W}
  {log : List (Exchange α)}

/-! ### What a layout comes to -/

theorem compute_ok {points : Placement α} (h : (service.compute settings g).after w = (.ok points, w')) :
    ∃ bs, (service.drawAll settings g g.components).after w = (.ok bs, w') ∧
      points = Placement.ofList ((Blueprint.stack settings.gridSize bs).fit settings.inset) := by
  obtain ⟨bs, w₁, hdrawn, hdone⟩ := ExceptT.after_bind_ok.mp h
  cases hdone
  exact ⟨bs, hdrawn, rfl⟩

theorem compute_error {e : LayoutError} (h : (service.compute settings g).after w = (.error e, w')) :
    (service.drawAll settings g g.components).after w = (.error e, w') := by
  rcases ExceptT.after_bind_error.mp h with hdrawn | ⟨bs, w₁, -, hdone⟩
  · exact hdrawn
  · cases hdone

/-- The blueprints of all components have each node of the graph once. -/
theorem Drawn.perm_ids {bs : List (Blueprint α)} (h : Drawn settings g g.components log bs) (hg : g.Sound) :
    (((Blueprint.stack settings.gridSize bs).fit settings.inset).map Prod.fst).Perm g.ids := by
  have hall : ∀ {cs : List Component} {bs : List (Blueprint α)},
      List.Forall₂ (fun c b => (b.map Prod.fst).Perm c.nodes) cs bs →
        (bs.flatMap fun b => b.map Prod.fst).Perm (cs.flatMap Component.nodes) := by
    intro cs bs hnodes
    induction hnodes with
    | nil => exact .nil
    | cons hperm _ ih => exact hperm.append ih
  rw [Blueprint.ids_fit]
  exact ((Blueprint.perm_ids_stack _ _).trans (hall h.nodes)).trans hg.divided.nodes

omit [Scalar α] in
theorem components_of_isEmpty (hg : g.Sound) (h : g.isEmpty = true) : g.components = [] := by
  refine List.eq_nil_iff_forall_not_mem.mpr fun c hc => ?_
  obtain ⟨id, hid⟩ := List.exists_mem_of_ne_nil _ (hg.component_ne_nil hc)
  obtain ⟨n, hn, -⟩ := Graph.mem_ids.mp (hg.mem_ids_of_component hc hid)
  rw [Array.isEmpty_iff.mp h] at hn
  exact Array.not_mem_empty n hn

/-- An empty graph has nothing to draw. -/
theorem drawn_of_isEmpty (hg : g.Sound) (h : g.isEmpty = true) :
    Drawn settings g g.components [] [] ∧
      g.LaidOut ((Blueprint.stack settings.gridSize []).fit settings.inset) g := by
  have hnone : g.nodes.toList = [] := Array.toList_eq_nil_iff.mpr (Array.isEmpty_iff.mp h)
  have hpoints : (Blueprint.stack settings.gridSize ([] : List (Blueprint α))).fit settings.inset = [] := by
    simp [Blueprint.stack, Blueprint.sized, SizedBlueprint.placeFrom, Blueprint.fit, Bounds.ofPoints?]
  rw [components_of_isEmpty hg h, hpoints]
  refine ⟨.nil, ?_, .nil, ?_, rfl⟩
  · rw [Graph.ids, hnone]
    exact .nil
  · rw [hnone]
    exact .nil

theorem Drawn.laidOut {bs : List (Blueprint α)} (h : Drawn settings g g.components log bs) (hg : g.Sound) :
    g.LaidOut ((Blueprint.stack settings.gridSize bs).fit settings.inset)
      (g.applyLayout (.ofList ((Blueprint.stack settings.gridSize bs).fit settings.inset))) :=
  hg.laidOut (h.perm_ids hg)

theorem arrange_laidOut (hg : g.Sound)
    (h : (service.noted.arrange settings g).after (w, []) = (.ok g', (w', log))) :
    ∃ bs, Drawn settings g g.components log bs ∧
      g.LaidOut ((Blueprint.stack settings.gridSize bs).fit settings.inset) g' := by
  unfold arrange at h
  split at h
  · next hempty =>
    cases h
    exact ⟨[], drawn_of_isEmpty hg hempty⟩
  · obtain ⟨points, _, hcomputed, hdone⟩ := ExceptT.after_bind_ok.mp h
    cases hdone
    obtain ⟨bs, hdrawn, rfl⟩ := compute_ok hcomputed
    obtain ⟨new, rfl, hall⟩ := drawAll_ok hdrawn
    exact ⟨bs, hall, hall.laidOut hg⟩

/-! ### What the service is asked -/

/-- The requests that a graph needs: one for each component of two or more nodes. -/
def requests (g : Graph F α) : List LayoutRequest :=
  (g.components.filter (2 ≤ ·.nodes.length)).map (LayoutRequest.ofComponent g)

omit [Scalar α] in
theorem two_le_iff (hg : g.Sound) {c : Component} (hc : c ∈ g.components) :
    2 ≤ c.nodes.length ↔ c.nodes.length ≠ 1 := by
  have hpos := List.length_pos_of_ne_nil (hg.component_ne_nil hc)
  omega

omit [Scalar α] in
theorem requests_eq (hg : g.Sound) :
    requests g = (g.components.filter (·.nodes.length ≠ 1)).map (LayoutRequest.ofComponent g) := by
  refine congrArg _ (List.filter_congr fun c hc => ?_)
  rw [decide_eq_decide]
  exact two_le_iff hg hc

omit [Scalar α] in
theorem nodup_requests (hg : g.Sound) : (requests g).Nodup :=
  (LayoutRequest.nodup_requests hg).sublist (List.filter_sublist.map _)

omit [Scalar α] in
/-- None of them is the request for a single node. -/
theorem single_not_mem_requests {c : Component} (hone : c.nodes.length = 1) :
    LayoutRequest.ofComponent g c ∉ requests g := by
  intro hin
  obtain ⟨d, hd, heq⟩ := List.mem_map.mp hin
  have hmany : 2 ≤ d.nodes.length := of_decide_eq_true (List.mem_filter.mp hd).2
  rw [(LayoutRequest.perm_of_ofComponent_eq heq).length_eq, hone] at hmany
  exact absurd hmany (by decide)

/-! ### When a layout succeeds -/

/-- Nobody wishes to stop. -/
structure Undisturbed (service : LayoutService W α) (I : W → Prop) : Prop extends service.Keeps I where
  quiet (w : W) : I w → (service.cancelled.run w).1 = false

/-- A complete answer has a finite position for each node of the component. -/
def CompleteFor (c : Component) (answer : Except LayoutError (RawLayout α)) : Prop :=
  ∃ raw, answer = .ok raw ∧ raw.Covers c.nodes

/-- The positions of an answer are too far apart to be scaled to the grid. -/
def Overflows (settings : LayoutSettings α) (g : Graph F α) (c : Component)
    (answer : Except LayoutError (RawLayout α)) : Prop :=
  ∃ b, placed g c answer = .ok b ∧ b.normalize settings.gridSize settings.precision = none

/-- A blueprint is made of a complete answer that does not overflow. -/
theorem exists_blueprint_iff {c : Component} {reply : Except LayoutError (RawLayout α)} :
    (∃ b, blueprint settings g c reply = .ok b) ↔ CompleteFor c reply ∧ ¬ Overflows settings g c reply := by
  constructor
  · rintro ⟨b, hb⟩
    obtain ⟨raw, b', rfl, hplaced, hscaled⟩ := blueprint_eq_ok_iff.mp hb
    refine ⟨exists_placed_iff.mp ⟨b', hplaced⟩, ?_⟩
    rintro ⟨b'', hplaced', hnone⟩
    obtain rfl := Except.ok.inj (hplaced.symm.trans hplaced')
    exact Option.some_ne_none b (hscaled.symm.trans hnone)
  · rintro ⟨hcomplete, hfits⟩
    obtain ⟨b, hplaced⟩ := (exists_placed_iff (g := g)).mpr hcomplete
    obtain ⟨raw, rfl, -⟩ := hcomplete
    obtain ⟨scaled, hscaled⟩ := Option.ne_none_iff_exists'.mp fun hnone => hfits ⟨b, hplaced, hnone⟩
    exact ⟨scaled, blueprint_eq_ok_iff.mpr ⟨raw, b, rfl, hplaced, hscaled⟩⟩

/-- Exact positions never are. -/
theorem not_overflows {settings : LayoutSettings Rat} {g : Graph F Rat} {c : Component}
    {reply : Except LayoutError (RawLayout Rat)} (hsettings : settings.check = .ok ()) :
    ¬ Overflows settings g c reply := by
  rintro ⟨b, -, hnone⟩
  obtain ⟨hgrid, -, hprecision⟩ := LayoutSettings.check_ok_iff.mp hsettings
  obtain ⟨b', hscaled, -⟩ := Blueprint.exists_normalize hgrid (one_pos.trans_le hprecision) b
  exact Option.some_ne_none b' (hscaled.symm.trans hnone)

variable {answer : LayoutRequest → Except LayoutError (RawLayout α)}

theorem compute_answers (hs : service.Keeps I) (hw : I w) (hanswer : service.Answers I answer)
    {result : Except LayoutError (Placement α)}
    (h : (service.noted.compute settings g).after (w, []) = (result, (w', log))) :
    ∀ {request reply}, (request, reply) ∈ log → reply = answer request := by
  have hafter := (hs.noted_answers hanswer).compute settings g (w, []) ⟨hw, by simp⟩
  rw [h] at hafter
  exact fun {_ _} hin => hafter.2 hin

/-! ### A service that answers alike -/

/-- Answers a request always alike, and nobody stops it. -/
def steady (answer : LayoutRequest → Except LayoutError (RawLayout α)) : LayoutService Unit α :=
  ⟨pure false, fun request => pure (answer request)⟩

omit [Scalar α] in
theorem undisturbed_steady (answer : LayoutRequest → Except LayoutError (RawLayout α)) :
    (steady answer).Undisturbed fun _ => True := ⟨⟨fun _ _ => trivial, fun _ _ _ => trivial⟩, fun _ _ => rfl⟩

omit [Scalar α] in
theorem answers_steady (answer : LayoutRequest → Except LayoutError (RawLayout α)) :
    (steady answer).Answers (fun _ => True) answer := fun _ _ _ => rfl

/-- Its layout succeeds if a blueprint is made of every answer that it needs. -/
theorem exists_compute_ok (answer : LayoutRequest → Except LayoutError (RawLayout α)) (settings : LayoutSettings α)
    (hg : g.Sound) (hanswers : ∀ c ∈ g.components, 2 ≤ c.nodes.length →
      ∃ b, blueprint settings g c (answer (LayoutRequest.ofComponent g c)) = .ok b) :
    ∃ points log, ((steady answer).noted.compute settings g).after ((), []) = (.ok points, ((), log)) := by
  have hs := undisturbed_steady answer
  generalize hrun : ((steady answer).noted.compute settings g).after ((), []) = run
  obtain ⟨e | points, ⟨⟨⟩, log⟩⟩ := run
  · obtain ⟨done, c, rest, new, last, bs, hcs, rfl, -, hfailed⟩ := drawAll_error hs.toKeeps trivial (compute_error hrun)
    have hc : c ∈ g.components := by
      rw [hcs]
      exact List.mem_append_right _ List.mem_cons_self
    cases hfailed with
    | stopped _ hstop => cases hstop
    | @refused reply _ hmany hrefused =>
      have hin : (LayoutRequest.ofComponent g c, reply) ∈ [] ++ (new ++ [(LayoutRequest.ofComponent g c, reply)]) :=
        List.mem_append_right _ (List.mem_append_right _ (List.mem_singleton.mpr rfl))
      obtain rfl := compute_answers hs.toKeeps trivial (answers_steady answer) hrun hin
      obtain ⟨b, hb⟩ := hanswers c hc ((two_le_iff hg hc).mpr hmany)
      exact nomatch hrefused.symm.trans hb
  · exact ⟨points, log, rfl⟩

/-- To draw all nodes at one finite point is complete. -/
theorem completeFor_pinned (g : Graph F α) (c : Component) {p : Point α} (hp : p.isFinite = true) :
    CompleteFor c (.ok (.pinned p (LayoutRequest.ofComponent g c))) := by
  refine ⟨_, rfl, fun id hid => ⟨p, RawLayout.getElem?_pinned p ?_, hp⟩⟩
  exact List.mem_map_of_mem ((LayoutRequest.perm_order g c).mem_iff.mpr hid)

/-- A call between two functions, and a function beside them. -/
def callBeside : List (Nat × GraphOperation SourceFunction Rat) :=
  let caller := SourceFunction.named "main"
  let callee := SourceFunction.named "run"
  [(0, .addNode caller), (0, .addNode callee), (0, .addNode (.named "help")), (0, .addEdge caller callee)]

theorem exists_callBeside :
    ∃ g ∈ Workbench.run callBeside, g.isEmpty = false ∧ g.components.map (·.nodes.length) = [2, 1] :=
  ⟨_, List.get_mem _ ⟨0, by decide +kernel⟩, by decide +kernel, by decide +kernel⟩

end LayoutService
end CallChart
