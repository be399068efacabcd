import CallChart.Proofs.Components
import CallChart.Proofs.Representation

/-! Restricting a graph to one of its components. The nodes are added in the order in which the search found them, the
edges in the order of the whole graph, so at each node the edges stand to each other as they did before. A second search
therefore goes through the same queue and finds the component again as it was. -/
namespace CallChart

variable {F α : Type}

namespace Graph

/-! ### Walks -/

section Walks

variable {g g' : Graph F α} {seen seen' : Std.TreeSet NodeId} {inside : List NodeId}

/-- The first node of the queue is visited, and its new neighbours wait behind the others. -/
theorem walk_cons (g : Graph F α) (steps : Nat) (id : NodeId) (queue : List NodeId) (seen : Std.TreeSet NodeId) :
    (g.walk (steps + 1) (id :: queue) seen).1 =
      id :: (g.walk steps (queue ++ (unseen seen (g.neighbours id)).1) (unseen seen (g.neighbours id)).2).1 :=
  rfl

/-- A shorter walk is the beginning of a longer one. -/
theorem take_walk (g : Graph F α) {short long : Nat} (h : short ≤ long) (queue : List NodeId)
    (seen : Std.TreeSet NodeId) : (g.walk long queue seen).1.take short = (g.walk short queue seen).1 := by
  induction short generalizing long queue seen with
  | zero => rfl
  | succ short ih =>
    obtain ⟨long, rfl⟩ : ∃ k, long = k + 1 := ⟨long - 1, by omega⟩
    cases queue with
    | nil => rfl
    | cons id queue =>
      rw [walk_cons, walk_cons, List.take_succ_cons, ih (Nat.le_of_succ_le_succ h)]

theorem length_walk_le (g : Graph F α) (steps : Nat) (queue : List NodeId) (seen : Std.TreeSet NodeId) :
    (g.walk steps queue seen).1.length ≤ steps := by
  induction steps generalizing queue seen with
  | zero => exact Nat.le_refl 0
  | succ steps ih =>
    cases queue with
    | nil => exact Nat.zero_le _
    | cons id queue => exact Nat.succ_le_succ (ih _ _)

/-- What is new among some nodes depends on which of these have been seen. -/
theorem unseen_agree {ids : List NodeId} (hids : ∀ x ∈ ids, x ∈ inside) (hseen : ∀ x ∈ inside, x ∈ seen' ↔ x ∈ seen) :
    (unseen seen' ids).1 = (unseen seen ids).1 := by
  induction ids generalizing seen seen' with
  | nil => rfl
  | cons id rest ih =>
    obtain ⟨hid, hrest⟩ := List.forall_mem_cons.mp hids
    have hsame : seen'.contains id = seen.contains id := by
      rw [Bool.eq_iff_iff, Std.TreeSet.contains_iff_mem, Std.TreeSet.contains_iff_mem, hseen id hid]
    rw [unseen, unseen, hsame]
    split
    · exact ih hrest hseen
    · refine congrArg (id :: ·) (ih hrest fun x hx => ?_)
      rw [Std.TreeSet.mem_insert, Std.TreeSet.mem_insert, hseen x hx]

/-- Where nobody leads outside, two graphs with the same neighbours in the same order are walked alike. -/
theorem walk_agree (hneighbours : ∀ x ∈ inside, g'.neighbours x = g.neighbours x)
    (hclosed : ∀ x ∈ inside, ∀ y ∈ g.neighbours x, y ∈ inside) (steps : Nat) {queue : List NodeId}
    (hqueue : ∀ x ∈ queue, x ∈ inside) (hseen : ∀ x ∈ inside, x ∈ seen' ↔ x ∈ seen) :
    (g'.walk steps queue seen').1 = (g.walk steps queue seen).1 := by
  induction steps generalizing queue seen seen' with
  | zero => rfl
  | succ steps ih =>
    cases queue with
    | nil => rfl
    | cons id queue =>
      obtain ⟨hid, hrest⟩ := List.forall_mem_cons.mp hqueue
      have hfound := unseen_agree (hclosed id hid) hseen
      rw [walk_cons, walk_cons, hneighbours id hid, hfound]
      refine congrArg (id :: ·) (ih ?_ fun x hx => ?_)
      · exact List.forall_mem_append.mpr ⟨hrest, fun x hx => hclosed id hid x (mem_unseen.mp hx).1⟩
      · rw [mem_seen_unseen, mem_seen_unseen, hseen x hx]

theorem connectedFrom_cons (g : Graph F α) {id : NodeId} (hnew : id ∉ seen) (rest : List NodeId) :
    g.connectedFrom seen (id :: rest) =
      (g.walk g.nodes.size [id] (seen.insert id)).1 ::
        g.connectedFrom (g.walk g.nodes.size [id] (seen.insert id)).2 rest := by
  rw [connectedFrom, if_neg (mt Std.TreeSet.contains_iff_mem.mp hnew)]

/-- No set of nodes begins where all have been seen. -/
theorem connectedFrom_of_seen (g : Graph F α) {names : List NodeId} (h : ∀ x ∈ names, x ∈ seen) :
    g.connectedFrom seen names = [] := by
  induction names with
  | nil => rfl
  | cons id rest ih =>
    obtain ⟨hid, hrest⟩ := List.forall_mem_cons.mp h
    rw [connectedFrom, if_pos (Std.TreeSet.contains_iff_mem.mpr hid), ih hrest]

end Walks

/-! ### What a restriction holds -/

section Contents

variable [Handle F] {g : Graph F α}

omit [Handle F] in
theorem edges_foldl_pushNode (ns : List (Node F α)) (g : Graph F α) : (ns.foldl pushNode g).edges = g.edges := by
  induction ns generalizing g with
  | nil => rfl
  | cons n rest ih =>
    refine (ih _).trans ?_
    unfold pushNode
    split <;> rfl

omit [Handle F] in
theorem nodes_foldl_pushEdge (ids : List EdgeId) (g : Graph F α) :
    (ids.foldl (fun sub id => sub.pushEdge (.between id.source id.target)) g).nodes = g.nodes := by
  induction ids generalizing g with
  | nil => rfl
  | cons id rest ih => exact (ih _).trans (nodes_pushEdge g _)

/-- Nodes with new ids are added as they come. -/
theorem Sound.nodes_foldl_pushNode {ns : List (Node F α)} (h : g.Sound)
    (hns : ∀ n ∈ ns, n.id = Handle.nodeId n.function) (hnew : (g.ids ++ ns.map Node.id).Nodup) :
    (ns.foldl Graph.pushNode g).nodes.toList = g.nodes.toList ++ ns := by
  induction ns generalizing g with
  | nil => exact (List.append_nil _).symm
  | cons n rest ih =>
    obtain ⟨hn, hrest⟩ := List.forall_mem_cons.mp hns
    have habsent : n.id ∉ g.ids := fun hin => List.disjoint_of_nodup_append hnew hin List.mem_cons_self
    have hpush : (g.pushNode n).nodes.toList = g.nodes.toList ++ [n] := by
      rw [Graph.pushNode, if_neg, Array.toList_push]
      rwa [Std.TreeMap.contains_iff_mem, h.nodes.mem_iff, ← mem_ids]
    have hids : (g.pushNode n).ids ++ rest.map Node.id = g.ids ++ (n :: rest).map Node.id := by
      rw [ids, hpush, List.map_append, List.append_assoc]
      rfl
    rw [List.foldl_cons, ih (h.pushNode hn) hrest (hids ▸ hnew), hpush, List.append_assoc, List.singleton_append]

/-- Edges with new ids are added as they come. -/
theorem Sound.edges_foldl_pushEdge {ids : List EdgeId} (h : g.Sound)
    (hends : ∀ id ∈ ids, id.source ∈ g.ids ∧ id.target ∈ g.ids) (hnew : (g.edges.toList.map Edge.id ++ ids).Nodup) :
    (ids.foldl (fun sub id => sub.pushEdge (.between id.source id.target)) g).edges.toList =
      g.edges.toList ++ ids.map fun id => Edge.between id.source id.target := by
  induction ids generalizing g with
  | nil => exact (List.append_nil _).symm
  | cons id rest ih =>
    obtain ⟨hid, hrest⟩ := List.forall_mem_cons.mp hends
    have habsent : id ∉ g.edges.toList.map Edge.id := fun hin =>
      List.disjoint_of_nodup_append hnew hin List.mem_cons_self
    have hpush : (g.pushEdge (.between id.source id.target)).edges.toList =
        g.edges.toList ++ [Edge.between id.source id.target] := by
      rw [Graph.pushEdge, if_neg, Array.toList_push]
      rw [Std.TreeMap.contains_iff_mem, h.edges.mem_iff]
      rintro ⟨e, he, hsame⟩
      exact habsent (List.mem_map.mpr ⟨e, Array.mem_toList_iff.mpr he, hsame⟩)
    have hids : (g.pushEdge (.between id.source id.target)).edges.toList.map Edge.id ++ rest =
        g.edges.toList.map Edge.id ++ id :: rest := by
      rw [hpush, List.map_append, List.append_assoc]
      rfl
    have hlater := ih (h.pushEdge hid.1 hid.2) (fun x hx => by rw [ids_pushEdge]; exact hrest x hx) (hids ▸ hnew)
    rw [List.foldl_cons, hlater, hpush, List.append_assoc]
    rfl

/-- Ids of nodes that are there find these nodes, in their order. -/
theorem Sound.filterMap_node? (h : g.Sound) {ids : List NodeId} (hids : ∀ id ∈ ids, id ∈ g.ids) :
    (ids.filterMap g.node?).map some = ids.map g.node? ∧ (ids.filterMap g.node?).map Node.id = ids := by
  induction ids with
  | nil => exact ⟨rfl, rfl⟩
  | cons id rest ih =>
    obtain ⟨hid, hrest⟩ := List.forall_mem_cons.mp hids
    obtain ⟨n, hn, rfl⟩ := mem_ids.mp hid
    have hnode : g.node? n.id = some n := h.node?_eq_some.mpr ⟨hn, rfl⟩
    obtain ⟨hfound, hsame⟩ := ih hrest
    rw [List.filterMap_cons_some hnode, List.map_cons, List.map_cons, List.map_cons, hfound, hsame, hnode]
    exact ⟨rfl, rfl⟩

variable {c : Component}

/-- The nodes of a component without its edges. -/
def withoutEdges (g : Graph F α) (c : Component) : Graph F α := (c.nodes.filterMap g.node?).foldl pushNode empty

theorem Sound.withoutEdges (h : g.Sound) (hc : c ∈ g.components) :
    (g.withoutEdges c).Sound ∧ (g.withoutEdges c).nodes.toList = c.nodes.filterMap g.node? ∧
      (g.withoutEdges c).ids = c.nodes := by
  obtain ⟨-, hids⟩ := h.filterMap_node? fun id hid => h.mem_ids_of_component hc hid
  have hns : ∀ n ∈ c.nodes.filterMap g.node?, n.id = Handle.nodeId n.function := by
    intro n hn
    obtain ⟨id, -, hfound⟩ := List.mem_filterMap.mp hn
    exact h.function (h.node?_eq_some.mp hfound).1
  have hnodes : (g.withoutEdges c).nodes.toList = c.nodes.filterMap g.node? := by
    refine sound_empty.nodes_foldl_pushNode hns ?_
    rw [hids]
    exact (h.component_class hc).1
  refine ⟨sound_empty.foldl_pushNode hns, hnodes, ?_⟩
  rw [ids, hnodes, hids]

/-- The edges of a component have both ends in it, so that none is left out. -/
theorem Sound.restrict_eq (h : g.Sound) (hc : c ∈ g.components) :
    (∀ id ∈ c.edges, id.source ∈ c.nodes ∧ id.target ∈ c.nodes) ∧
      g.restrict c =
        c.edges.foldl (fun sub id => sub.pushEdge (.between id.source id.target)) (g.withoutEdges c) := by
  obtain ⟨hsound, -, hids⟩ := h.withoutEdges hc
  have hends : ∀ id ∈ c.edges, id.source ∈ c.nodes ∧ id.target ∈ c.nodes := by
    intro id hid
    rw [h.component_edges hc] at hid
    obtain ⟨e, he, rfl⟩ := List.mem_map.mp hid
    obtain ⟨he, hboth⟩ := List.mem_filter.mp he
    rw [h.edge_id (Array.mem_toList_iff.mp he)]
    exact of_decide_eq_true hboth
  have hthere {x : NodeId} (hx : x ∈ c.nodes) : (g.withoutEdges c).nodeIndex.contains x = true := by
    rw [Std.TreeMap.contains_iff_mem, hsound.nodes.mem_iff, ← mem_ids, hids]
    exact hx
  refine ⟨hends, ?_⟩
  unfold Graph.restrict
  refine congrArg (fun ids : List EdgeId => ids.foldl _ _) (List.filter_eq_self.mpr fun id hid => ?_)
  exact Bool.and_eq_true_iff.mpr ⟨hthere (hends id hid).1, hthere (hends id hid).2⟩

/-- A restriction to a component has its nodes, in its order, and the edges that have both ends in it, in the order of
the whole graph. -/
theorem Sound.restrict_contents (h : g.Sound) (hc : c ∈ g.components) :
    (g.restrict c).nodes.toList = c.nodes.filterMap g.node? ∧ (g.restrict c).ids = c.nodes ∧
      (g.restrict c).edges.toList = g.edges.toList.filter fun e => e.source ∈ c.nodes ∧ e.target ∈ c.nodes := by
  obtain ⟨hsound, hnodes, hids⟩ := h.withoutEdges hc
  obtain ⟨hends, hrestrict⟩ := h.restrict_eq hc
  have hnone : (g.withoutEdges c).edges.toList = [] := congrArg Array.toList (edges_foldl_pushNode _ _)
  have hedges : c.edges.map (fun id => Edge.between id.source id.target) =
      g.edges.toList.filter fun e => e.source ∈ c.nodes ∧ e.target ∈ c.nodes := by
    rw [h.component_edges hc, List.map_map]
    refine (List.map_congr_left fun e he => ?_).trans (List.map_id _)
    have hin : e ∈ g.edges := Array.mem_toList_iff.mp (List.mem_filter.mp he).1
    rw [Function.comp_apply, h.edge_id hin, ← h.between hin]
    rfl
  refine ⟨?_, ?_, ?_⟩
  · rw [hrestrict, nodes_foldl_pushEdge, hnodes]
  · rw [hrestrict, ids, nodes_foldl_pushEdge, ← ids, hids]
  · rw [hrestrict, hsound.edges_foldl_pushEdge, hnone, List.nil_append, hedges]
    · rw [hids]
      exact hends
    · rw [hnone, List.map_nil, List.nil_append, h.component_edges hc]
      exact h.edges.nodup.sublist (List.filter_sublist.map _)

/-- At a node of the component nothing has changed: its edges are there, in their order. -/
theorem Sound.neighbours_restrict (h : g.Sound) (hc : c ∈ g.components) {id : NodeId} (hid : id ∈ c.nodes) :
    (g.restrict c).neighbours id = g.neighbours id := by
  obtain ⟨-, -, hedges⟩ := h.restrict_contents hc
  have hboth {e : Edge} (he : e ∈ g.edges.toList) (hend : e.source = id ∨ e.target = id) :
      decide (e.source ∈ c.nodes ∧ e.target ∈ c.nodes) = true := by
    have hiff := h.source_mem_iff hc (Array.mem_toList_iff.mp he)
    rw [decide_eq_true_eq]
    rcases hend with rfl | rfl
    · exact ⟨hid, hiff.mp hid⟩
    · exact ⟨hiff.mpr hid, hid⟩
  have hleaving : (g.restrict c).outgoing id = g.outgoing id := by
    rw [outgoing, outgoing, hedges, List.filter_filter]
    refine congrArg List.reverse (List.filter_congr fun e he => ?_)
    cases hsource : e.source == id with
    | false => rfl
    | true => rw [hboth he (.inl (beq_iff_eq.mp hsource))]; rfl
  have hentering : (g.restrict c).incoming id = g.incoming id := by
    rw [incoming, incoming, hedges, List.filter_filter]
    refine congrArg List.reverse (List.filter_congr fun e he => ?_)
    cases htarget : e.target == id with
    | false => rfl
    | true => rw [hboth he (.inr (beq_iff_eq.mp htarget))]; rfl
  rw [neighbours, neighbours, hleaving, hentering]

end Contents

/-! ### Searching a restriction -/

section Search

variable [Handle F] {g : Graph F α} {c : Component}

/-- The search came upon a component at a node of which nothing in the component had been seen. -/
theorem Sound.exists_walk (h : g.Sound) (hc : c ∈ g.components) :
    ∃ id ∈ c.nodes, ∃ before : Std.TreeSet NodeId, (∀ x ∈ c.nodes, x ∉ before) ∧
      c.nodes = (g.walk g.nodes.size [id] (before.insert id)).1 := by
  have hpart : c.nodes ∈ g.connectedFrom ∅ g.ids := h.map_nodes_components ▸ List.mem_map_of_mem hc
  have hstart : g.Complete (· ∈ (∅ : Std.TreeSet NodeId)) := fun x y hx => absurd hx Std.TreeSet.not_mem_emptyc
  obtain ⟨id, hid, before, hbefore, hnew, hwalk⟩ :=
    exists_walk_of_mem h.nodes.nodup h.joined_mem_ids (fun _ hx => hx) hstart hpart
  have hlinked (x : NodeId) : x ∈ c.nodes ↔ g.Linked id x := by
    rw [hwalk]
    exact (walk_class h.nodes.nodup h.joined_mem_ids hid hbefore hnew).2.1 x
  refine ⟨id, (hlinked id).mpr .refl, before, fun x hx hseen => ?_, hwalk⟩
  exact hnew (hbefore x id hseen ((hlinked x).mp hx).symm)

/-- The walk through a restriction begins at the first node of the component and visits the others in the order in which
they were found before. -/
theorem Sound.walk_restrict (h : g.Sound) (hc : c ∈ g.components) :
    ∃ id rest, c.nodes = id :: rest ∧
      ((g.restrict c).walk (g.restrict c).nodes.size [id] ((∅ : Std.TreeSet NodeId).insert id)).1 = c.nodes := by
  obtain ⟨id, hid, before, hbefore, hwalk⟩ := h.exists_walk hc
  obtain ⟨-, hids, -⟩ := h.restrict_contents hc
  have hsize : (g.restrict c).nodes.size = c.nodes.length := by
    rw [← hids, ids, List.length_map, Array.length_toList]
  have hlength : c.nodes.length ≤ g.nodes.size := by
    have hle := length_walk_le g g.nodes.size [id] (before.insert id)
    rwa [← hwalk] at hle
  have hclosed : ∀ x ∈ c.nodes, ∀ y ∈ g.neighbours x, y ∈ c.nodes := fun x hx y hy =>
    (h.mem_component_iff hc hx).mpr (.single (mem_neighbours.mp hy))
  have hagree : ((g.restrict c).walk c.nodes.length [id] ((∅ : Std.TreeSet NodeId).insert id)).1 =
      (g.walk c.nodes.length [id] (before.insert id)).1 := by
    refine walk_agree (fun x hx => h.neighbours_restrict hc hx) hclosed _ ?_ fun x hx => ?_
    · exact fun x hx => List.mem_singleton.mp hx ▸ hid
    · rw [Std.TreeSet.mem_insert, Std.TreeSet.mem_insert, or_iff_left (hbefore x hx),
        or_iff_left Std.TreeSet.not_mem_emptyc]
  have hwalked := take_walk g hlength [id] (before.insert id)
  rw [← hwalk, List.take_length] at hwalked
  have hbegin : ∃ rest, c.nodes = id :: rest := by
    obtain ⟨steps, hsteps⟩ := Nat.exists_eq_add_one.mpr (List.length_pos_of_mem hid)
    rw [hsteps, walk_cons] at hwalked
    exact ⟨_, hwalked⟩
  obtain ⟨rest, hrest⟩ := hbegin
  exact ⟨id, rest, hrest, by rw [hsize, hagree, ← hwalked]⟩

/-- A restriction to a component is found to be that component again. -/
theorem Sound.components_restrict (h : g.Sound) (hc : c ∈ g.components) : (g.restrict c).components = [c] := by
  have hsub := h.restrict c
  obtain ⟨-, hids, hedges⟩ := h.restrict_contents hc
  obtain ⟨id, rest, hnodes, hwalk⟩ := h.walk_restrict hc
  have hin : id ∈ (g.restrict c).ids := by
    rw [hids, hnodes]
    exact List.mem_cons_self
  have hstart : (g.restrict c).Complete (· ∈ (∅ : Std.TreeSet NodeId)) := fun x y hx =>
    absurd hx Std.TreeSet.not_mem_emptyc
  obtain ⟨-, hvisited, hafter⟩ :=
    walk_class hsub.nodes.nodup hsub.joined_mem_ids hin hstart Std.TreeSet.not_mem_emptyc
  have hseen : ∀ x ∈ rest, x ∈
      ((g.restrict c).walk (g.restrict c).nodes.size [id] ((∅ : Std.TreeSet NodeId).insert id)).2 := by
    intro x hx
    refine (hafter x).mpr (.inr ((hvisited x).mp ?_))
    rw [hwalk, hnodes]
    exact List.mem_cons_of_mem id hx
  have hparts : (g.restrict c).components.map Component.nodes = [c.nodes] := by
    rw [hsub.map_nodes_components, hids, hnodes, connectedFrom_cons _ Std.TreeSet.not_mem_emptyc,
      connectedFrom_of_seen _ hseen, hwalk, hnodes]
  obtain ⟨d, hd, hsame⟩ := List.map_eq_singleton_iff.mp hparts
  have hdin : d ∈ (g.restrict c).components := hd ▸ List.mem_singleton_self d
  have hdedges : d.edges = c.edges := by
    rw [hsub.component_edges hdin, hedges, h.component_edges hc, hsame, List.filter_filter]
    simp only [Bool.and_self]
  rw [hd]
  obtain ⟨nodes, edges⟩ := d
  obtain rfl : nodes = c.nodes := hsame
  obtain rfl : edges = c.edges := hdedges
  rfl

end Search

end Graph

variable [Handle F] [Scalar α]

/-- A restriction to a component has the nodes of the component as they are in the whole graph, with what is shown
and what was laid out, and the edges with both ends in the component. It has one component, which is that component,
node for node and edge for edge. -/
theorem Graph.restrict_component {g : Graph F α} {c : Component} (hg : g.Reached) (hc : c ∈ g.components) :
    (∀ n, n ∈ (g.restrict c).nodes ↔ n ∈ g.nodes ∧ n.id ∈ c.nodes) ∧
      (g.restrict c).nodes.toList.map some = c.nodes.map g.node? ∧
      ((g.restrict c).edges.toList = g.edges.toList.filter fun e => e.source ∈ c.nodes ∧ e.target ∈ c.nodes) ∧
      (g.restrict c).components = [c] := by
  have hsound := hg.sound
  obtain ⟨hnodes, -, hedges⟩ := hsound.restrict_contents hc
  obtain ⟨hfound, -⟩ := hsound.filterMap_node? fun id hid => hsound.mem_ids_of_component hc hid
  refine ⟨fun n => ?_, ?_, hedges, hsound.components_restrict hc⟩
  · rw [← Array.mem_toList_iff, hnodes, List.mem_filterMap]
    constructor
    · rintro ⟨id, hid, hnode⟩
      obtain ⟨hn, rfl⟩ := hsound.node?_eq_some.mp hnode
      exact ⟨hn, hid⟩
    · rintro ⟨hn, hid⟩
      exact ⟨n.id, hid, hsound.node?_eq_some.mpr ⟨hn, rfl⟩⟩
  · rw [hnodes, hfound]

/-- Three functions that call each other, there and back, and one of them itself; a fourth stands alone. The search
finds the three in another order than that in which they were added. -/
def thereAndBack : List (Nat × GraphOperation SourceFunction Rat) :=
  let caller := SourceFunction.named "main"
  let logger := SourceFunction.named "log"
  let callee := SourceFunction.named "run"
  [(0, .addNode caller), (0, .addNode (.named "help")), (0, .addNode logger), (0, .addNode callee),
    (0, .addEdge logger caller), (0, .addEdge caller callee), (0, .addEdge callee callee), (0, .addEdge callee caller)]

theorem thereAndBack_restricted :
    ∃ g ∈ Workbench.run thereAndBack, ∃ c ∈ g.components, (c.nodes.length, c.edges.length) = (3, 4) ∧
      (g.restrict c).components = [c] ∧
      (g.restrict c).nodes.toList.map (fun n => n.function.name) = ["main", "run", "log"] := by
  have hmem : (Workbench.run thereAndBack).get ⟨0, by decide +kernel⟩ ∈ Workbench.run thereAndBack := List.get_mem _ _
  have hc : ((Workbench.run thereAndBack).get ⟨0, by decide +kernel⟩).components.get ⟨0, by decide +kernel⟩ ∈
      ((Workbench.run thereAndBack).get ⟨0, by decide +kernel⟩).components := List.get_mem _ _
  obtain ⟨-, -, -, hcomponents⟩ := Graph.restrict_component ⟨thereAndBack, hmem⟩ hc
  exact ⟨_, hmem, _, hc, by decide +kernel, hcomponents, by decide +kernel⟩

end CallChart
