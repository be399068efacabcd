import CallChart.Build.Job
import CallChart.Proofs.Sets
import CallChart.Proofs.Steps

/-! What a graph shows that was made of functions and calls, before and after it is laid out. -/
namespace CallChart

variable {F α : Type} [Handle F]

/-- The edge that stands for a call. -/
def Call.edge (k : Call F) : Edge := .between (Handle.nodeId k.caller) (Handle.nodeId k.callee)

theorem Call.edge_congr {j k : Call F} (h : compare j k = .eq) : j.edge = k.edge := by
  have hends : compare j.caller k.caller = .eq ∧ compare j.callee k.callee = .eq := by
    have hlex : compareLex (compareOn Call.caller) (compareOn Call.callee) j k = .eq := h
    simpa [compareLex, compareOn, Ordering.then_eq_eq] using hlex
  rw [edge, edge, Handle.nodeId_congr hends.1, Handle.nodeId_congr hends.2]

namespace Graph

/-- The positions kept by id tell which nodes and edges there are, and both ends are in an edge's id. -/
structure Indexed (g : Graph F α) : Prop where
  nodes (id : NodeId) : id ∈ g.nodeIndex ↔ ∃ n ∈ g.nodes, n.id = id
  edges (id : EdgeId) : id ∈ g.edgeIndex ↔ ∃ e ∈ g.edges, e.id = id
  between (e : Edge) : e ∈ g.edges → e = .between e.id.source e.id.target

/-- There are nodes for certain functions and edges for certain calls, and no others. Functions with
one node id share a node. -/
structure Depicts (g : Graph F α) (functions : F → Prop) (calls : Call F → Prop) : Prop where
  nodes (id : NodeId) : (∃ n ∈ g.nodes, n.id = id) ↔ ∃ f, functions f ∧ Handle.nodeId f = id
  functions (n : Node F α) : n ∈ g.nodes → functions n.function ∧ n.id = Handle.nodeId n.function
  edges (e : Edge) : e ∈ g.edges ↔ ∃ k, calls k ∧ k.edge = e

/-- A graph shows what a search found. -/
def Shows (g : Graph F α) (r : Resolution F) : Prop := g.Depicts (· ∈ r.functions) (· ∈ r.calls)

variable {g : Graph F α} {functions : F → Prop} {calls : Call F → Prop}

/-- Other handles of the same functions and calls make no difference. -/
theorem Depicts.congr (h : g.Depicts functions calls) {functions' : F → Prop} {calls' : Call F → Prop}
    (hf : ∀ f, functions f → functions' f)
    (hf' : ∀ f, functions' f → ∃ f', functions f' ∧ Handle.nodeId f' = Handle.nodeId f)
    (hk : ∀ k, calls k → calls' k) (hk' : ∀ k, calls' k → ∃ k', calls k' ∧ k'.edge = k.edge) :
    g.Depicts functions' calls' where
  nodes id := by
    rw [h.nodes]
    constructor
    · rintro ⟨f, hm, hid⟩
      exact ⟨f, hf f hm, hid⟩
    · rintro ⟨f, hm, hid⟩
      obtain ⟨f', hm', hid'⟩ := hf' f hm
      exact ⟨f', hm', hid'.trans hid⟩
  functions n hn := ⟨hf _ (h.functions n hn).1, (h.functions n hn).2⟩
  edges e := by
    rw [h.edges]
    constructor
    · rintro ⟨k, hm, he⟩
      exact ⟨k, hk k hm, he⟩
    · rintro ⟨k, hm, he⟩
      obtain ⟨k', hm', he'⟩ := hk' k hm
      exact ⟨k', hm', he'.trans he⟩

/-! ### Edges are added -/

theorem addEdge_ok_iff {g' : Graph F α} {f f' : F} :
    (g.addEdge f f').map Prod.fst = .ok g' ↔
      (g.contains f = true ∧ g.contains f' = true) ∧ g.pushEdge (Call.mk f f').edge = g' := by
  unfold addEdge endpoint
  split
  · next hf =>
    split
    · next hf' =>
      have hsum : (g.contains f = true ∧ g.contains f' = true) := ⟨hf, hf'⟩
      simp only [hsum, true_and]
      exact ⟨Except.ok.inj, congrArg _⟩
    · next hf' =>
      refine iff_of_false (fun h => ?_) fun h => hf' h.1.2
      cases h
  · next hf =>
    refine iff_of_false (fun h => ?_) fun h => hf h.1.1
    cases h

theorem Indexed.pushEdge (hi : g.Indexed) (k : Call F) : (g.pushEdge k.edge).Indexed := by
  unfold Graph.pushEdge
  split
  · exact hi
  · refine ⟨hi.nodes, fun id => ?_, fun e he => ?_⟩
    · simp only [Std.TreeMap.mem_insert, Array.mem_push, hi.edges, Std.LawfulEqCmp.compare_eq_iff_eq]
      grind
    · rcases Array.mem_push.mp he with he | rfl
      · exact hi.between e he
      · rfl

theorem Depicts.pushEdge (hi : g.Indexed) (h : g.Depicts functions calls) (k : Call F) :
    (g.pushEdge k.edge).Depicts functions fun k' => calls k' ∨ k' = k := by
  have hcalls (e : Edge) : (∃ k', (calls k' ∨ k' = k) ∧ k'.edge = e) ↔ e ∈ g.edges ∨ k.edge = e := by
    simp only [h.edges, or_and_right, exists_or, exists_eq_left]
  unfold Graph.pushEdge
  split
  · next hthere =>
    obtain ⟨e, he, hid⟩ := (hi.edges _).mp hthere
    have hsame : e = k.edge := by
      rw [hi.between e he, hid]
      rfl
    refine ⟨h.nodes, h.functions, fun e' => ?_⟩
    rw [hcalls]
    exact ⟨.inl, fun hor => hor.elim id fun heq => heq ▸ hsame ▸ he⟩
  · refine ⟨h.nodes, h.functions, fun e => ?_⟩
    rw [hcalls, Array.mem_push, eq_comm (a := e)]

theorem contains_pushEdge (g : Graph F α) (e : Edge) (f : F) : (g.pushEdge e).contains f = g.contains f := by
  unfold Graph.pushEdge
  split <;> rfl

/-- Adds an edge for each call of a list. -/
def addCalls (g : Graph F α) (ks : List (Call F)) : Except GraphError (Graph F α) :=
  ks.foldlM (fun g call => (g.addEdge call.caller call.callee).map Prod.fst) g

theorem addCalls_ok {ks : List (Call F)} {g' : Graph F α} (hi : g.Indexed)
    (h : g.Depicts functions calls) (hok : g.addCalls ks = .ok g') :
    g'.Depicts functions fun k => calls k ∨ k ∈ ks := by
  induction ks generalizing g calls with
  | nil =>
    obtain rfl := Except.ok.inj hok
    exact h.congr (fun _ hf => hf) (fun f hf => ⟨f, hf, rfl⟩) (fun _ => .inl)
      fun k hk => ⟨k, hk.resolve_right List.not_mem_nil, rfl⟩
  | cons k rest ih =>
    rw [addCalls, List.foldlM_cons] at hok
    cases hfirst : (g.addEdge k.caller k.callee).map Prod.fst with
    | error e =>
      rw [hfirst] at hok
      cases hok
    | ok next =>
      rw [hfirst] at hok
      obtain ⟨-, rfl⟩ := addEdge_ok_iff.mp hfirst
      have hrest := ih (hi.pushEdge k) (h.pushEdge hi k) hok
      refine hrest.congr (fun _ hf => hf) (fun f hf => ⟨f, hf, rfl⟩) (fun j hj => ?_) fun j hj => ⟨j, ?_, rfl⟩
      · simpa [or_assoc] using hj
      · simpa [or_assoc] using hj

theorem exists_addCalls {ks : List (Call F)}
    (hends : ∀ k ∈ ks, g.contains k.caller = true ∧ g.contains k.callee = true) :
    ∃ g', g.addCalls ks = .ok g' := by
  induction ks generalizing g with
  | nil => exact ⟨g, rfl⟩
  | cons k rest ih =>
    obtain ⟨hk, hrest⟩ := List.forall_mem_cons.mp hends
    have hfirst := addEdge_ok_iff.mpr ⟨hk, rfl⟩
    obtain ⟨g', hg'⟩ := ih (g := g.pushEdge k.edge) fun j hj => by
      rw [contains_pushEdge, contains_pushEdge]
      exact hrest j hj
    refine ⟨g', ?_⟩
    rw [addCalls, List.foldlM_cons, hfirst]
    exact hg'

/-! ### Nodes are added -/

variable [Scalar α]

theorem Indexed.addNode (hi : g.Indexed) (f : F) : (g.addNode f).Indexed := by
  unfold Graph.addNode pushNode
  split
  · exact hi
  · refine ⟨fun id => ?_, hi.edges, hi.between⟩
    simp only [Std.TreeMap.mem_insert, Array.mem_push, hi.nodes, Std.LawfulEqCmp.compare_eq_iff_eq]
    grind

theorem Depicts.addNode (hi : g.Indexed) (h : g.Depicts functions calls) (f : F) :
    (g.addNode f).Depicts (fun f' => functions f' ∨ f' = f) calls := by
  have hfunctions (id : NodeId) : (∃ f', (functions f' ∨ f' = f) ∧ Handle.nodeId f' = id) ↔
      (∃ n ∈ g.nodes, n.id = id) ∨ Handle.nodeId f = id := by
    simp only [h.nodes, or_and_right, exists_or, exists_eq_left]
  have hold (n : Node F α) (hn : n ∈ g.nodes) :
      (functions n.function ∨ n.function = f) ∧ n.id = Handle.nodeId n.function :=
    ⟨.inl (h.functions n hn).1, (h.functions n hn).2⟩
  unfold Graph.addNode pushNode
  split
  · next hthere =>
    have hnode := (hi.nodes _).mp hthere
    refine ⟨fun id => ?_, hold, h.edges⟩
    rw [hfunctions]
    exact ⟨.inl, fun hor => hor.elim (fun hn => hn) fun heq => heq ▸ hnode⟩
  · refine ⟨fun id => ?_, fun n hn => ?_, h.edges⟩
    · rw [hfunctions]
      simp only [Array.mem_push, or_and_right, exists_or, exists_eq_left]
      rfl
    · rcases Array.mem_push.mp hn with hn | rfl
      · exact hold n hn
      · exact ⟨.inr rfl, rfl⟩

theorem foldl_addNode (fs : List F) (hi : g.Indexed) (h : g.Depicts functions calls) :
    (fs.foldl Graph.addNode g).Indexed ∧
      (fs.foldl Graph.addNode g).Depicts (fun f => functions f ∨ f ∈ fs) calls := by
  induction fs generalizing g functions with
  | nil =>
    refine ⟨hi, h.congr (fun _ => .inl) (fun f hf => ?_) (fun _ hk => hk) fun k hk => ⟨k, hk, rfl⟩⟩
    exact ⟨f, hf.resolve_right List.not_mem_nil, rfl⟩
  | cons f rest ih =>
    obtain ⟨hi', h'⟩ := ih (hi.addNode f) (h.addNode hi f)
    refine ⟨hi', h'.congr (fun j hj => ?_) (fun j hj => ⟨j, ?_, rfl⟩) (fun _ hk => hk) fun k hk => ⟨k, hk, rfl⟩⟩
    · simpa [or_assoc] using hj
    · simpa [or_assoc] using hj

omit [Scalar α] in
theorem empty_indexed_depicts :
    (empty : Graph F α).Indexed ∧ (empty : Graph F α).Depicts (fun _ => False) fun _ => False := by
  refine ⟨⟨fun id => ?_, fun id => ?_, fun e he => ?_⟩, fun id => ?_, fun n hn => ?_, fun e => ?_⟩
  all_goals simp_all [empty]

/-! ### A whole search result -/

variable {r : Resolution F}

/-- The nodes of a search result, without its calls. -/
theorem nodes_of_result (r : Resolution F) :
    (r.functions.toList.foldl Graph.addNode (empty : Graph F α)).Indexed ∧
      (r.functions.toList.foldl Graph.addNode (empty : Graph F α)).Depicts
        (fun f => False ∨ f ∈ r.functions.toList) fun _ => False :=
  foldl_addNode _ empty_indexed_depicts.1 empty_indexed_depicts.2

/-- An assembled graph shows the search result. -/
theorem shows_of_assemble (h : assemble r = .ok g) : g.Shows r := by
  obtain ⟨hi, hnodes⟩ := nodes_of_result (α := α) r
  refine (addCalls_ok hi hnodes h).congr (fun f hf => ?_) (fun f hf => ?_) (fun k hk => ?_) fun k hk => ?_
  · exact Std.TreeSet.mem_of_mem_toList (hf.resolve_left id)
  · obtain ⟨f', hm, hf'⟩ := listed_toList_iff.mpr hf
    exact ⟨f', .inr hm, Handle.nodeId_congr hf'⟩
  · exact Std.TreeSet.mem_of_mem_toList (hk.resolve_left id)
  · obtain ⟨k', hm, hk'⟩ := listed_toList_iff.mpr hk
    exact ⟨k', .inr hm, Call.edge_congr hk'⟩

/-- A graph can be assembled if the functions found are the ends of all calls found. -/
theorem exists_assemble (hends : ∀ k ∈ r.calls, k.caller ∈ r.functions ∧ k.callee ∈ r.functions) :
    ∃ g : Graph F α, assemble r = .ok g := by
  obtain ⟨hi, hnodes⟩ := nodes_of_result (α := α) r
  have hcontains (f : F) (hf : f ∈ r.functions) :
      (r.functions.toList.foldl Graph.addNode (empty : Graph F α)).contains f = true := by
    obtain ⟨f', hm, hf'⟩ := listed_toList_iff.mpr hf
    refine Std.TreeMap.contains_iff_mem.mpr ((hi.nodes _).mpr ((hnodes.nodes _).mpr ?_))
    exact ⟨f', .inr hm, Handle.nodeId_congr hf'⟩
  refine exists_addCalls fun k hk => ?_
  obtain ⟨hcaller, hcallee⟩ := hends k (Std.TreeSet.mem_of_mem_toList hk)
  exact ⟨hcontains _ hcaller, hcontains _ hcallee⟩

omit [Scalar α] in
/-- A new layout moves nodes and changes nothing else. -/
theorem Depicts.applyLayout (h : g.Depicts functions calls) (points : Placement α) :
    (g.applyLayout points).Depicts functions calls := by
  have hmoved (n : Node F α) (hn : n ∈ (g.applyLayout points).nodes) :
      ∃ old ∈ g.nodes, n.id = old.id ∧ n.function = old.function := by
    obtain ⟨old, hold, rfl⟩ := Array.mem_map.mp hn
    refine ⟨old, hold, ?_⟩
    dsimp only
    split <;> exact ⟨rfl, rfl⟩
  refine ⟨fun id => ?_, fun n hn => ?_, h.edges⟩
  · rw [← h.nodes]
    constructor
    · rintro ⟨n, hn, rfl⟩
      obtain ⟨old, hold, hid, -⟩ := hmoved n hn
      exact ⟨old, hold, hid.symm⟩
    · rintro ⟨old, hold, rfl⟩
      refine ⟨_, Array.mem_map.mpr ⟨old, hold, rfl⟩, ?_⟩
      dsimp only
      split <;> rfl
  · obtain ⟨old, hold, hid, hfunction⟩ := hmoved n hn
    rw [hid, hfunction]
    exact h.functions old hold

/-! ### No node is there twice -/

/-- No two nodes have one id. -/
def Distinct (g : Graph F α) : Prop := g.nodes.toList.Pairwise fun m n => m.id ≠ n.id

theorem Distinct.addNode (hi : g.Indexed) (h : g.Distinct) (f : F) : (g.addNode f).Distinct := by
  unfold Graph.addNode pushNode
  split
  · exact h
  · next hnew =>
    rw [Distinct, Array.toList_push, List.pairwise_append]
    refine ⟨h, List.pairwise_singleton _ _, fun m hm n hn heq => hnew ?_⟩
    obtain rfl := List.mem_singleton.mp hn
    exact (hi.nodes _).mpr ⟨m, Array.mem_toList_iff.mp hm, heq⟩

theorem distinct_foldl_addNode (fs : List F) (hi : g.Indexed) (h : g.Distinct) :
    (fs.foldl Graph.addNode g).Distinct := by
  induction fs generalizing g with
  | nil => exact h
  | cons f rest ih => exact ih (hi.addNode f) (h.addNode hi f)

omit [Scalar α] in
theorem nodes_addCalls {ks : List (Call F)} {g' : Graph F α} (h : g.addCalls ks = .ok g') : g'.nodes = g.nodes := by
  induction ks generalizing g with
  | nil =>
    cases h
    rfl
  | cons k rest ih =>
    rw [addCalls, List.foldlM_cons] at h
    cases hfirst : (g.addEdge k.caller k.callee).map Prod.fst with
    | error e =>
      rw [hfirst] at h
      cases h
    | ok next =>
      rw [hfirst] at h
      obtain ⟨-, rfl⟩ := addEdge_ok_iff.mp hfirst
      refine (ih h).trans ?_
      unfold pushEdge
      split <;> rfl

theorem distinct_of_assemble (h : assemble r = .ok g) : g.Distinct := by
  rw [Distinct, nodes_addCalls h]
  exact distinct_foldl_addNode _ empty_indexed_depicts.1 List.Pairwise.nil

omit [Handle F] [Scalar α] in
theorem Distinct.applyLayout (h : g.Distinct) (points : Placement α) : (g.applyLayout points).Distinct := by
  rw [Distinct, Graph.applyLayout, place, Array.toList_map, List.pairwise_map]
  refine List.Pairwise.imp (fun {m n} hne => ?_) h
  split <;> split <;> exact hne

end Graph
end CallChart
