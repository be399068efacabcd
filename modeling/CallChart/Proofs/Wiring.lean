import CallChart.Proofs.Workbench
import Mathlib.Data.List.Induction

/-! Graphs that keep a list of the edges at each node. An edge is entered, by its position, in the list of the node
it leaves and in the list of the node it goes to; nodes are known by their positions too, and a restriction enters its
edges without asking whether they could be added. Through all operations the lists tell what is found among all
edges. -/
namespace CallChart

variable {F α : Type}

/-- Positions in a list, taken in order, give back the entries that were asked for. -/
theorem filterMap_range_filter {β : Type} (xs : List β) (condition : β → Bool) :
    ((List.range xs.length).filter fun j => (xs[j]?).any condition).filterMap (fun j => xs[j]?) =
      xs.filter condition := by
  induction xs using List.reverseRecOn with
  | nil => rfl
  | append_singleton xs x ih =>
    have hinside (j : Nat) (hj : j ∈ List.range xs.length) : (xs ++ [x])[j]? = xs[j]? :=
      List.getElem?_append_left (List.mem_range.mp hj)
    have hfilter : ((List.range xs.length).filter fun j => ((xs ++ [x])[j]?).any condition) =
        (List.range xs.length).filter fun j => (xs[j]?).any condition := by
      apply List.filter_congr
      intro j hj
      rw [hinside j hj]
    have hmap : ((List.range xs.length).filter fun j => (xs[j]?).any condition).filterMap
        (fun j => (xs ++ [x])[j]?) = xs.filter condition := by
      rw [← ih]
      apply List.filterMap_congr
      intro j hj
      exact hinside j (List.mem_filter.mp hj).1
    rw [List.length_append, List.length_singleton, List.range_succ, List.filter_append, List.filterMap_append, hfilter,
      hmap, List.filter_append]
    congr 1
    cases hx : condition x <;> simp [hx]

namespace Graph

/-- The positions of the edges that have a node at one end, the latest first. -/
def positions (g : Graph F α) (end_ : Edge → NodeId) (id : NodeId) : List Nat :=
  ((List.range g.edges.size).filter fun j => (g.edges[j]?).any fun e => end_ e == id).reverse

theorem edges_at_positions (g : Graph F α) (end_ : Edge → NodeId) (id : NodeId) :
    (g.positions end_ id).filterMap (fun j => g.edges[j]?) =
      (g.edges.toList.filter fun e => end_ e == id).reverse := by
  rw [positions, List.filterMap_reverse, ← filterMap_range_filter g.edges.toList]
  simp

theorem positions_push {g g' : Graph F α} {e : Edge} (h : g'.edges = g.edges.push e) (end_ : Edge → NodeId)
    (id : NodeId) :
    g'.positions end_ id = if end_ e = id then g.edges.size :: g.positions end_ id else g.positions end_ id := by
  have hold : ((List.range g.edges.size).filter fun j => ((g.edges.push e)[j]?).any fun e => end_ e == id) =
      (List.range g.edges.size).filter fun j => (g.edges[j]?).any fun e => end_ e == id := by
    apply List.filter_congr
    intro j hj
    rw [Array.getElem?_push_lt (List.mem_range.mp hj), Array.getElem?_eq_getElem (List.mem_range.mp hj)]
  rw [positions, h, Array.size_push, List.range_succ, List.filter_append, hold, List.reverse_append, positions]
  by_cases he : end_ e = id <;> simp [he]

/-- The lists tell, node by node, which edges have the node at one end. -/
def Lists (g : Graph F α) (end_ : Edge → NodeId) (lists : Array (List Nat)) : Prop :=
  lists.toList = g.ids.map (g.positions end_)

variable {g g' : Graph F α} {end_ : Edge → NodeId} {lists : Array (List Nat)}

/-- A list is found at the position of its node. -/
theorem Lists.at_position (h : g.Lists end_ lists) {i : Nat} {n : Node F α} (hn : g.nodes[i]? = some n) :
    lists[i]? = some (g.positions end_ n.id) := by
  rw [← Array.getElem?_toList, h, ids, List.map_map, List.getElem?_map, Array.getElem?_toList, hn]
  rfl

/-- The lists do not depend on where nodes are drawn. -/
theorem Lists.congr (h : g.Lists end_ lists) (hids : g'.ids = g.ids) (hedges : g'.edges = g.edges) :
    g'.Lists end_ lists := by
  have hpositions : g'.positions end_ = g.positions end_ := by
    funext id
    rw [positions, positions, hedges]
  rw [Lists, hids, hpositions]
  exact h

variable [Handle F]

/-- A new node is at the end of no edge. -/
theorem Lists.pushNode (h : g.Lists end_ lists) (hg : g.Sound) {n : Node F α}
    (hend : ∀ e ∈ g.edges, end_ e ∈ g.ids) (hnew : ¬ g.nodeIndex.contains n.id = true) :
    (g.pushNode n).Lists end_ (lists.push []) := by
  have hnone : g.positions end_ n.id = [] := by
    rw [positions, List.reverse_eq_nil_iff, List.filter_eq_nil_iff]
    intro j hj
    rw [Array.getElem?_eq_getElem (List.mem_range.mp hj), Option.any_some, beq_iff_eq]
    intro hid
    have hin := hend _ (Array.getElem_mem (List.mem_range.mp hj))
    rw [hid, mem_ids] at hin
    exact hnew (Std.TreeMap.contains_iff_mem.mpr (hg.nodes.mem_iff.mpr hin))
  have hids : (g.pushNode n).ids = g.ids ++ [n.id] := by
    rw [Graph.pushNode, if_neg hnew, ids, ids, Array.toList_push, List.map_append, List.map_singleton]
  have hpositions : (g.pushNode n).positions end_ = g.positions end_ := by
    funext id
    rw [Graph.pushNode, if_neg hnew, positions, positions]
  rw [Lists, Array.toList_push, h, hids, hpositions, List.map_append, List.map_singleton, hnone]

/-- A node stands at one position. -/
theorem Sound.eq_of_id_eq (hg : g.Sound) {i k : Nat} {n m : Node F α} (hn : g.nodes[i]? = some n)
    (hm : g.nodes[k]? = some m) (hid : n.id = m.id) : i = k := by
  have hi := (hg.nodes n.id i).mpr ⟨n, hn, rfl⟩
  have hk := (hg.nodes n.id k).mpr ⟨m, hm, hid.symm⟩
  exact Option.some.inj (hi.symm.trans hk)

/-- An edge is entered in the list of the node at its end. -/
theorem Lists.pushEdge (h : g.Lists end_ lists) (hg : g.Sound) {e : Edge} {i : Nat} {n : Node F α}
    (hn : g.nodes[i]? = some n) (hend : end_ e = n.id) (hnew : ¬ g.edgeIndex.contains e.id = true) :
    (g.pushEdge e).Lists end_ (lists.modify i (g.edges.size :: ·)) := by
  have hpush : (g.pushEdge e).edges = g.edges.push e := by rw [Graph.pushEdge, if_neg hnew]
  rw [Lists, ids_pushEdge]
  apply List.ext_getElem?
  intro k
  rw [Array.getElem?_toList, Array.getElem?_modify, ids, List.map_map, List.getElem?_map, Array.getElem?_toList]
  cases hm : g.nodes[k]? with
  | none =>
    have hlist : lists[k]? = none := by
      rw [← Array.getElem?_toList, h, ids, List.map_map, List.getElem?_map, Array.getElem?_toList, hm]
      rfl
    rw [hlist]
    simp
  | some m =>
    rw [h.at_position hm]
    by_cases hik : i = k
    · subst hik
      obtain rfl := Option.some.inj (hn.symm.trans hm)
      simp [positions_push hpush, hend]
    · have hne : end_ e ≠ m.id := fun heq => hik (hg.eq_of_id_eq hn hm (hend.symm.trans heq))
      simp [positions_push hpush, hne, hik]

end Graph

/-- A graph with the lists of the edges that leave and that enter each node. -/
structure Wired (F α : Type) where
  graph : Graph F α
  leaving : Array (List Nat)
  entering : Array (List Nat)

namespace Wired

def empty : Wired F α := ⟨.empty, #[], #[]⟩

/-- The edges that leave a node, as its list tells them. -/
def outgoing (w : Wired F α) (id : NodeId) : List Edge :=
  match w.graph.nodeIndex[id]? with
  | some i => ((w.leaving[i]?).getD []).filterMap fun j => w.graph.edges[j]?
  | none => []

/-- The edges that enter a node, as its list tells them. -/
def incoming (w : Wired F α) (id : NodeId) : List Edge :=
  match w.graph.nodeIndex[id]? with
  | some i => ((w.entering[i]?).getD []).filterMap fun j => w.graph.edges[j]?
  | none => []

def pushNode (w : Wired F α) (n : Node F α) : Wired F α :=
  if w.graph.nodeIndex.contains n.id then w
  else ⟨w.graph.pushNode n, w.leaving.push [], w.entering.push []⟩

/-- Enters an edge between the nodes at two positions, if there is none. -/
def insertEdge (w : Wired F α) (i j : Nat) : Wired F α :=
  match w.graph.nodes[i]?, w.graph.nodes[j]? with
  | some source, some target =>
    if w.graph.edgeIndex.contains (Edge.between source.id target.id).id then w
    else
      { graph := w.graph.pushEdge (.between source.id target.id)
        leaving := w.leaving.modify i (w.graph.edges.size :: ·)
        entering := w.entering.modify j (w.graph.edges.size :: ·) }
  | _, _ => w

/-- Enters an edge between two nodes, if both are there. -/
def wire (w : Wired F α) (source target : NodeId) : Wired F α :=
  match w.graph.nodeIndex[source]?, w.graph.nodeIndex[target]? with
  | some i, some j => w.insertEdge i j
  | _, _ => w

def restrict (w : Wired F α) (c : Component) : Wired F α :=
  c.edges.foldl (fun sub id => sub.wire id.source id.target) ((c.nodes.filterMap w.graph.node?).foldl pushNode empty)

variable [Handle F] {w : Wired F α}

/-- The graph is sound, and so are the lists. -/
structure Sound (w : Wired F α) : Prop where
  graph : w.graph.Sound
  leaving : w.graph.Lists Edge.source w.leaving
  entering : w.graph.Lists Edge.target w.entering

theorem sound_empty : (empty : Wired F α).Sound := ⟨Graph.sound_empty, rfl, rfl⟩

omit [Handle F] in
theorem graph_pushNode (w : Wired F α) (n : Node F α) : (w.pushNode n).graph = w.graph.pushNode n := by
  rw [pushNode]
  split
  · next hthere => rw [Graph.pushNode, if_pos hthere]
  · rfl

theorem Sound.pushNode (h : w.Sound) {n : Node F α} (hn : n.id = Handle.nodeId n.function) : (w.pushNode n).Sound := by
  unfold Wired.pushNode
  split
  · exact h
  · next hnew =>
    refine ⟨h.graph.pushNode hn, ?_, ?_⟩
    · exact h.leaving.pushNode h.graph (fun _ he => (h.graph.ends he).1) hnew
    · exact h.entering.pushNode h.graph (fun _ he => (h.graph.ends he).2) hnew

omit [Handle F] in
theorem graph_insertEdge {i j : Nat} {source target : Node F α} (hsource : w.graph.nodes[i]? = some source)
    (htarget : w.graph.nodes[j]? = some target) :
    (w.insertEdge i j).graph = w.graph.pushEdge (.between source.id target.id) := by
  simp only [insertEdge, hsource, htarget]
  split
  · next hthere => rw [Graph.pushEdge, if_pos hthere]
  · rfl

theorem Sound.insertEdge (h : w.Sound) {i j : Nat} {source target : Node F α}
    (hsource : w.graph.nodes[i]? = some source) (htarget : w.graph.nodes[j]? = some target) :
    (w.insertEdge i j).Sound := by
  have hin {k : Nat} {n : Node F α} (hn : w.graph.nodes[k]? = some n) : n.id ∈ w.graph.ids :=
    Graph.mem_ids.mpr ⟨n, Array.mem_of_getElem? hn, rfl⟩
  simp only [Wired.insertEdge, hsource, htarget]
  split
  · exact h
  · next hnew =>
    refine ⟨h.graph.pushEdge (hin hsource) (hin htarget), ?_, ?_⟩
    · exact h.leaving.pushEdge h.graph hsource rfl hnew
    · exact h.entering.pushEdge h.graph htarget rfl hnew

/-- Two nodes are wired at their positions, or one of them is not there and nothing happens. -/
theorem wire_cases (h : w.Sound) (source target : NodeId) :
    (∃ i j n m, w.graph.nodes[i]? = some n ∧ w.graph.nodes[j]? = some m ∧ n.id = source ∧ m.id = target ∧
      (w.graph.nodeIndex.contains source && w.graph.nodeIndex.contains target) = true ∧
      w.wire source target = w.insertEdge i j) ∨
    ((w.graph.nodeIndex.contains source && w.graph.nodeIndex.contains target) = false ∧
      w.wire source target = w) := by
  rw [Std.TreeMap.contains_eq_isSome_getElem?, Std.TreeMap.contains_eq_isSome_getElem?, wire]
  cases hsource : w.graph.nodeIndex[source]? with
  | none => exact .inr ⟨rfl, rfl⟩
  | some i =>
    cases htarget : w.graph.nodeIndex[target]? with
    | none => exact .inr ⟨rfl, rfl⟩
    | some j =>
      obtain ⟨n, hn, hid⟩ := (h.graph.nodes source i).mp hsource
      obtain ⟨m, hm, hid'⟩ := (h.graph.nodes target j).mp htarget
      exact .inl ⟨i, j, n, m, hn, hm, hid, hid', rfl, rfl⟩

theorem Sound.wire (h : w.Sound) (source target : NodeId) : (w.wire source target).Sound := by
  rcases wire_cases h source target with ⟨i, j, n, m, hn, hm, -, -, -, heq⟩ | ⟨-, heq⟩
  · rw [heq]
    exact h.insertEdge hn hm
  · rw [heq]
    exact h

theorem graph_wire (h : w.Sound) (source target : NodeId) :
    (w.wire source target).graph =
      if w.graph.nodeIndex.contains source && w.graph.nodeIndex.contains target then
        w.graph.pushEdge (.between source target)
      else w.graph := by
  rcases wire_cases h source target with ⟨i, j, n, m, hn, hm, rfl, rfl, hthere, heq⟩ | ⟨hmissing, heq⟩
  · rw [heq, hthere, if_pos rfl]
    exact graph_insertEdge hn hm
  · rw [heq, hmissing]
    rfl

theorem Sound.foldl_pushNode {ns : List (Node F α)} (h : w.Sound) (hns : ∀ n ∈ ns, n.id = Handle.nodeId n.function) :
    (ns.foldl Wired.pushNode w).Sound ∧ (ns.foldl Wired.pushNode w).graph = ns.foldl Graph.pushNode w.graph := by
  induction ns generalizing w with
  | nil => exact ⟨h, rfl⟩
  | cons n rest ih =>
    obtain ⟨hn, hrest⟩ := List.forall_mem_cons.mp hns
    have hsound := ih (h.pushNode hn) hrest
    rw [graph_pushNode] at hsound
    exact hsound

omit [Handle F] in
theorem nodeIndex_pushEdge (g : Graph F α) (e : Edge) : (g.pushEdge e).nodeIndex = g.nodeIndex := by
  unfold Graph.pushEdge
  split <;> rfl

/-- Edges are entered one by one, whether or not those with both ends are sorted out before. -/
theorem Sound.foldl_wire (h : w.Sound) (ids : List EdgeId) :
    (ids.foldl (fun sub id => sub.wire id.source id.target) w).Sound ∧
      (ids.foldl (fun sub id => sub.wire id.source id.target) w).graph =
        (ids.filter fun id =>
          w.graph.nodeIndex.contains id.source && w.graph.nodeIndex.contains id.target).foldl
          (fun sub id => sub.pushEdge (.between id.source id.target)) w.graph := by
  induction ids generalizing w with
  | nil => exact ⟨h, rfl⟩
  | cons id rest ih =>
    have hgraph := graph_wire h id.source id.target
    obtain ⟨hsound, hrest⟩ := ih (h.wire id.source id.target)
    refine ⟨hsound, hrest.trans ?_⟩
    have hindex : (w.wire id.source id.target).graph.nodeIndex = w.graph.nodeIndex := by
      rw [hgraph]
      split
      · exact nodeIndex_pushEdge _ _
      · rfl
    rw [List.filter_cons, hindex, hgraph]
    split
    · rfl
    · rfl

theorem Sound.restrict (h : w.Sound) (c : Component) :
    (w.restrict c).Sound ∧ (w.restrict c).graph = w.graph.restrict c := by
  have hnodes : ∀ n ∈ c.nodes.filterMap w.graph.node?, n.id = Handle.nodeId n.function := by
    intro n hn
    obtain ⟨id, -, hfound⟩ := List.mem_filterMap.mp hn
    exact h.graph.function (h.graph.node?_eq_some.mp hfound).1
  obtain ⟨hsound, hgraph⟩ := sound_empty.foldl_pushNode hnodes
  obtain ⟨hwired, hedges⟩ := hsound.foldl_wire c.edges
  refine ⟨hwired, hedges.trans ?_⟩
  rw [hgraph]
  rfl

private theorem read_list (h : w.Sound) {end_ : Edge → NodeId} {lists : Array (List Nat)}
    (hlists : w.graph.Lists end_ lists) (hend : ∀ e ∈ w.graph.edges, end_ e ∈ w.graph.ids) (id : NodeId) :
    (match w.graph.nodeIndex[id]? with
      | some i => ((lists[i]?).getD []).filterMap fun j => w.graph.edges[j]?
      | none => []) = (w.graph.edges.toList.filter fun e => end_ e == id).reverse := by
  cases hi : w.graph.nodeIndex[id]? with
  | some i =>
    obtain ⟨n, hn, rfl⟩ := (h.graph.nodes id i).mp hi
    simp only [hlists.at_position hn, Option.getD_some]
    exact Graph.edges_at_positions _ _ _
  | none =>
    rw [eq_comm, List.reverse_eq_nil_iff, List.filter_eq_nil_iff]
    intro e he heq
    have hin := hend e (Array.mem_toList_iff.mp he)
    rw [beq_iff_eq.mp heq, Graph.mem_ids, ← h.graph.nodes.mem_iff, Std.TreeMap.mem_iff_isSome_getElem?, hi] at hin
    cases hin

/-- The list at a node tells which edges leave it, as they are found among all edges. -/
theorem Sound.outgoing_eq (h : w.Sound) (id : NodeId) : w.outgoing id = w.graph.outgoing id :=
  read_list h h.leaving (fun _ he => (h.graph.ends he).1) id

theorem Sound.incoming_eq (h : w.Sound) (id : NodeId) : w.incoming id = w.graph.incoming id :=
  read_list h h.entering (fun _ he => (h.graph.ends he).2) id

/-! ### All operations -/

variable [Scalar α]

/-- The graph after an operation. Only nodes and edges that are added change a list. -/
def change : GraphOperation F α → Wired F α → Wired F α
  | .addNode f, w => w.pushNode (Graph.freshNode f)
  | .addEdge source target, w => w.wire (Handle.nodeId source) (Handle.nodeId target)
  | operation, w => { w with graph := operation.change w.graph }

def made : GraphOperation F α → Wired F α → Option (Wired F α)
  | .clone, w => some w
  | .restrict c, w => some (w.restrict c)
  | _, _ => none

omit [Scalar α] in
/-- An edge is added if both of its ends are there; of ends that are not, the first is named. -/
theorem addEdge_eq (g : Graph F α) (source target : F) :
    g.addEdge source target =
      if g.contains source then
        if g.contains target then
          .ok (g.pushEdge (.between (Handle.nodeId source) (Handle.nodeId target)),
            ⟨Handle.nodeId source, Handle.nodeId target⟩)
        else .error (.unknownEndpoint (Handle.describe target))
      else .error (.unknownEndpoint (Handle.describe source)) := by
  rw [Graph.addEdge, Graph.endpoint, Graph.endpoint]
  cases g.contains source with
  | false => rfl
  | true =>
    cases g.contains target with
    | false => rfl
    | true => rfl

theorem change_addEdge (g : Graph F α) (source target : F) :
    (GraphOperation.addEdge source target).change g =
      if g.contains source && g.contains target then
        g.pushEdge (.between (Handle.nodeId source) (Handle.nodeId target))
      else g := by
  rw [GraphOperation.change, addEdge_eq]
  cases g.contains source with
  | false => rfl
  | true =>
    cases g.contains target with
    | false => rfl
    | true => rfl

theorem graph_change (h : w.Sound) (operation : GraphOperation F α) :
    (change operation w).graph = operation.change w.graph := by
  cases operation with
  | addNode f => exact graph_pushNode w _
  | addEdge source target => exact (graph_wire h _ _).trans (change_addEdge w.graph source target).symm
  | _ => rfl

omit [Scalar α] in
theorem Sound.moved (h : w.Sound) {g : Graph F α} (hg : g.Sound) (hm : w.graph.Moved g) :
    Sound { w with graph := g } :=
  ⟨hg, h.leaving.congr hm.ids hm.edges, h.entering.congr hm.ids hm.edges⟩

theorem Sound.change (h : w.Sound) (operation : GraphOperation F α) : (change operation w).Sound := by
  have hgraph := h.graph.change operation
  cases operation with
  | addNode f => exact h.pushNode rfl
  | addEdge source target => exact h.wire _ _
  | components => exact ⟨hgraph, h.leaving.congr rfl rfl, h.entering.congr rfl rfl⟩
  | clone => exact h
  | restrict c => exact h
  | setPoint f p => exact h.moved hgraph (Graph.moved_modifyNode _ fun _ => rfl)
  | applyLayout points => exact h.moved hgraph (Graph.moved_place _ fun _ _ => rfl)
  | applyPoints points => exact h.moved hgraph (Graph.moved_place _ fun _ _ => rfl)
  | restoreLayout => exact h.moved hgraph (Graph.moved_map fun _ => rfl)
  | fitToView inset => exact h.moved hgraph (Graph.moved_place _ fun _ _ => rfl)

omit [Scalar α] in
theorem Sound.made (h : w.Sound) (operation : GraphOperation F α) :
    (∀ w' ∈ made operation w, w'.Sound) ∧ (made operation w).map Wired.graph = operation.made w.graph := by
  cases operation with
  | clone => exact ⟨fun w' hw' => Option.some.inj hw' ▸ h, rfl⟩
  | restrict c =>
    obtain ⟨hsound, hgraph⟩ := h.restrict c
    exact ⟨fun w' hw' => Option.some.inj hw' ▸ hsound, congrArg some hgraph⟩
  | _ =>
    refine ⟨fun w' hw' => ?_, rfl⟩
    cases hw'

end Wired
end CallChart
