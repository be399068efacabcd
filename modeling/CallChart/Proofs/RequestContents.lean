import CallChart.Proofs.Representation
import CallChart.Proofs.Requests

/-! A request is its component in words. The edges are collected node by node, and nothing leaves a component, so the
links of its nodes are its edges; each of them leaves one node, and is sent once. -/
namespace CallChart

variable {F α : Type} [Handle F] {g : Graph F α} {c : Component}

namespace LayoutRequest

/-! ### Sorted nodes -/

/-- One node comes before another in a request. -/
def Before (g : Graph F α) (a b : NodeId) : Prop := compare (sortKey g a) (sortKey g b) = .lt

/-- A link comes before another one if it leaves an earlier node, or if it leaves the same node for an earlier one. -/
def LinkBefore (g : Graph F α) (l m : NodeId × NodeId) : Prop := Before g l.1 m.1 ∨ l.1 = m.1 ∧ Before g l.2 m.2

theorem sortKey_eq (hg : g.Sound) {n : Node F α} (hn : n ∈ g.nodes) :
    sortKey g n.id = ⟨Handle.displayName n.function, n.id⟩ := by
  rw [sortKey, hg.node?_eq_some.mpr ⟨hn, rfl⟩]
  rfl

theorem map_sortKey_sorted (g : Graph F α) (ids : List NodeId) :
    (sorted g ids).map (sortKey g) = (ids.map (sortKey g)).mergeSort fun a b => (compare a b).isLE := by
  rw [sorted, List.map_map]
  refine (List.map_congr_left fun k hk => ?_).trans (List.map_id _)
  obtain ⟨id, -, rfl⟩ := List.mem_map.mp (List.mem_mergeSort.mp hk)
  rfl

/-- Nodes that are listed once are sorted strictly. Those with one name are told apart by their ids. -/
theorem pairwise_sorted {ids : List NodeId} (h : ids.Nodup) : (sorted g ids).Pairwise (Before g) := by
  have hkeys := pairwise_isLE_mergeSort compare (ids.map (sortKey g))
  rw [← map_sortKey_sorted, List.pairwise_map] at hkeys
  refine (hkeys.and ((perm_sorted g ids).nodup_iff.mpr h)).imp fun {a b} ⟨hle, hne⟩ => ?_
  cases horder : compare (sortKey g a) (sortKey g b) with
  | lt => exact horder
  | eq => exact absurd (congrArg SortKey.id (Std.LawfulEqOrd.eq_of_compare horder)) hne
  | gt =>
    rw [horder] at hle
    cases hle

theorem ne_of_before {a b : NodeId} (h : Before g a b) : a ≠ b := by
  rintro rfl
  have heq : compare (sortKey g a) (sortKey g a) = .eq := Std.ReflCmp.compare_self
  rw [Before, heq] at h
  cases h

/-! ### Links -/

theorem mem_links {id : NodeId} {l : NodeId × NodeId} :
    l ∈ links g id ↔ l.1 = id ∧ ∃ e ∈ g.edges, e.source = l.1 ∧ e.target = l.2 := by
  obtain ⟨source, target⟩ := l
  rw [links, List.mem_map]
  simp only [(perm_sorted g _).mem_iff, List.mem_map, Graph.mem_outgoing, Prod.mk.injEq]
  constructor
  · rintro ⟨_, ⟨e, ⟨he, rfl⟩, rfl⟩, rfl, rfl⟩
    exact ⟨rfl, e, he, rfl, rfl⟩
  · rintro ⟨rfl, e, he, rfl, rfl⟩
    exact ⟨e.target, ⟨e, ⟨he, rfl⟩, rfl⟩, rfl, rfl⟩

/-- No two edges lead from one node to another. -/
theorem nodup_targets (hg : g.Sound) (id : NodeId) : ((g.outgoing id).map Edge.target).Nodup := by
  have hpairs : (((g.outgoing id).map Edge.target).map (Prod.mk id)).Nodup := by
    have hends : ((g.outgoing id).map Edge.target).map (Prod.mk id) =
        (g.outgoing id).map fun e => (e.source, e.target) := by
      rw [List.map_map]
      refine List.map_congr_left fun e he => ?_
      rw [Function.comp_apply, (Graph.mem_outgoing.mp he).2]
    rw [hends, Graph.outgoing, List.map_reverse, List.nodup_reverse]
    exact hg.nodup_pairs.sublist (List.filter_sublist.map _)
  exact hpairs.of_map

/-- All links of a component in the order in which they are sent. -/
def linksOf (g : Graph F α) (c : Component) : List (NodeId × NodeId) := (order g c).flatMap (links g)

theorem pairwise_linksOf (hg : g.Sound) (hc : c ∈ g.components) : (linksOf g c).Pairwise (LinkBefore g) := by
  refine List.pairwise_flatMap.mpr ⟨fun id _ => ?_, ?_⟩
  · exact List.pairwise_map.mpr ((pairwise_sorted (nodup_targets hg id)).imp fun h => .inr ⟨rfl, h⟩)
  · refine (pairwise_sorted (hg.component_class hc).1).imp fun {a b} h l hl m hm => ?_
    rw [LinkBefore, (mem_links.mp hl).1, (mem_links.mp hm).1]
    exact .inl h

theorem nodup_linksOf (hg : g.Sound) (hc : c ∈ g.components) : (linksOf g c).Nodup := by
  refine (pairwise_linksOf hg hc).imp fun {l m} h => ?_
  rintro rfl
  exact h.elim (fun h => ne_of_before h rfl) fun h => ne_of_before h.2 rfl

theorem mem_linksOf {l : NodeId × NodeId} :
    l ∈ linksOf g c ↔ l.1 ∈ c.nodes ∧ ∃ e ∈ g.edges, e.source = l.1 ∧ e.target = l.2 := by
  rw [linksOf, List.mem_flatMap]
  simp only [mem_links, (perm_order g c).mem_iff]
  constructor
  · rintro ⟨id, hid, rfl, he⟩
    exact ⟨hid, he⟩
  · rintro ⟨hid, he⟩
    exact ⟨l.1, hid, rfl, he⟩

/-- The edges of a component are those that leave its nodes. -/
theorem perm_linksOf (hg : g.Sound) (hc : c ∈ g.components) :
    (linksOf g c).Perm (c.edges.map fun id => (id.source, id.target)) := by
  have hnodup : (c.edges.map fun id => (id.source, id.target)).Nodup := by
    refine List.Nodup.of_map (fun ends => EdgeId.mk ends.1 ends.2) ?_
    rw [List.map_map, hg.component_edges hc]
    exact (List.map_id _).symm ▸ hg.edges.nodup.sublist (List.filter_sublist.map _)
  refine (List.perm_ext_iff_of_nodup (nodup_linksOf hg hc) hnodup).mpr fun l => ?_
  rw [mem_linksOf, List.mem_map]
  constructor
  · rintro ⟨hsource, e, he, hs, ht⟩
    refine ⟨e.id, (hg.mem_component_edges hc).mpr ⟨e, he, hs ▸ hsource, rfl⟩, ?_⟩
    rw [hg.edge_id he, hs, ht]
  · rintro ⟨id, hid, rfl⟩
    obtain ⟨e, he, hsource, rfl⟩ := (hg.mem_component_edges hc).mp hid
    rw [hg.edge_id he]
    exact ⟨hsource, e, he, rfl, rfl⟩

/-- Both ends of a link are in the component. -/
theorem ends_of_mem_linksOf (hg : g.Sound) (hc : c ∈ g.components) {l : NodeId × NodeId} (hl : l ∈ linksOf g c) :
    l.1 ∈ order g c ∧ l.2 ∈ order g c := by
  obtain ⟨hsource, e, he, hs, ht⟩ := mem_linksOf.mp hl
  rw [(perm_order g c).mem_iff, (perm_order g c).mem_iff, ← ht]
  exact ⟨hsource, (hg.source_mem_iff hc he).mp (hs ▸ hsource)⟩

end LayoutRequest

open LayoutRequest in
/-- A request lists the nodes of its component in ascending order of name and id, and all edges of the component, each
once, by the node they leave and then by the node they lead to. Both ends of an edge are listed as nodes. -/
theorem Graph.ofComponent_faithful [Scalar α] {g : Graph F α} (hg : g.Reached) (hc : c ∈ g.components) :
    (∀ n ∈ g.nodes, sortKey g n.id = ⟨Handle.displayName n.function, n.id⟩) ∧
      ((ofComponent g c).nodes = (order g c).map NodeId.label ∧ (order g c).Perm c.nodes ∧
        (order g c).Pairwise (Before g)) ∧
      (∃ sent : List (NodeId × NodeId), (ofComponent g c).edges = sent.map (fun link => (link.1.label, link.2.label)) ∧
        sent.Perm (c.edges.map fun id => (id.source, id.target)) ∧ sent.Nodup ∧ sent.Pairwise (LinkBefore g)) ∧
      ((ofComponent g c).nodes.Nodup ∧ (ofComponent g c).edges.Nodup ∧
        ∀ e ∈ (ofComponent g c).edges, e.1 ∈ (ofComponent g c).nodes ∧ e.2 ∈ (ofComponent g c).nodes) := by
  have hsound := hg.sound
  have hnodes : (order g c).Nodup := (perm_order g c).nodup_iff.mpr (hsound.component_class hc).1
  have hlabels : Function.Injective fun link : NodeId × NodeId => (link.1.label, link.2.label) := by
    rintro ⟨a, b⟩ ⟨a', b'⟩ h
    obtain ⟨ha, hb⟩ := Prod.mk.inj h
    exact Prod.ext (NodeId.label_injective ha) (NodeId.label_injective hb)
  refine ⟨fun n => sortKey_eq hsound, ⟨rfl, perm_order g c, pairwise_sorted (hsound.component_class hc).1⟩,
    ⟨linksOf g c, rfl, perm_linksOf hsound hc, nodup_linksOf hsound hc, pairwise_linksOf hsound hc⟩,
    hnodes.map NodeId.label_injective, (nodup_linksOf hsound hc).map hlabels, fun e he => ?_⟩
  obtain ⟨link, hlink, rfl⟩ := List.mem_map.mp he
  obtain ⟨hsource, htarget⟩ := ends_of_mem_linksOf hsound hc hlink
  exact ⟨List.mem_map_of_mem hsource, List.mem_map_of_mem htarget⟩

/-- Two functions of one name, one of which calls itself, and a third that both call and that calls them. -/
def namesakes : List (Nat × GraphOperation SourceFunction Rat) :=
  let caller := SourceFunction.named "main"
  let first : SourceFunction := ⟨"a::run", "run", ⟨"a.rs"⟩, none⟩
  let second : SourceFunction := ⟨"b::run", "run", ⟨"b.rs"⟩, none⟩
  [(0, .addNode caller), (0, .addNode second), (0, .addNode first), (0, .addNode (.named "help")),
    (0, .addEdge caller first), (0, .addEdge caller second), (0, .addEdge second caller), (0, .addEdge first first)]

theorem namesakes_requested :
    ∃ g ∈ Workbench.run namesakes, ∃ c ∈ g.components,
      c.nodes.filterMap (fun id => (g.node? id).map fun n => n.function.qualifiedName) = ["main", "b::run", "a::run"] ∧
      ((LayoutRequest.order g c).map fun id => (LayoutRequest.sortKey g id).name).Perm ["main", "run", "run"] ∧
      (LayoutRequest.ofComponent g c).nodes.length = 3 ∧ (LayoutRequest.ofComponent g c).edges.length = 4 ∧
      (LayoutRequest.ofComponent g c).edges.Nodup := by
  have hmem : (Workbench.run namesakes).get ⟨0, by decide +kernel⟩ ∈ Workbench.run namesakes := List.get_mem _ _
  have hc : ((Workbench.run namesakes).get ⟨0, by decide +kernel⟩).components.get ⟨0, by decide +kernel⟩ ∈
      ((Workbench.run namesakes).get ⟨0, by decide +kernel⟩).components := List.get_mem _ _
  obtain ⟨-, ⟨hnodes, horder, -⟩, ⟨sent, hedges, hsent, -⟩, -, hnodup, -⟩ :=
    Graph.ofComponent_faithful ⟨namesakes, hmem⟩ hc
  refine ⟨_, hmem, _, hc, by decide +kernel, (horder.map _).trans ?_, ?_, ?_, hnodup⟩
  · decide +kernel
  · rw [hnodes, List.length_map, horder.length_eq]
    decide +kernel
  · rw [hedges, List.length_map, hsent.length_eq, List.length_map]
    decide +kernel

end CallChart
