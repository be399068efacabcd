import CallChart.Proofs.CallList
import CallChart.Proofs.Wiring

/-! How a graph is represented, whatever was done to come to it: what its tables, its lists of edges and its answers
have to do with the functions and calls that were added to it. -/
namespace CallChart

variable {F α : Type}

namespace GraphOperation

/-- The functions that an operation names. -/
def functions : GraphOperation F α → List F
  | addNode f => [f]
  | addEdge source target => [source, target]
  | setPoint f _ => [f]
  | _ => []

/-- The functions added to a graph, after an operation on it. -/
def noted : GraphOperation F α → List F → List F
  | addNode f, added => added ++ [f]
  | _, added => added

/-- The functions that were added to the graph made beside it. -/
def notedBeside [Handle F] : GraphOperation F α → List F → List F
  | restrict c, added => added.filter fun f => c.contains (Handle.nodeId f)
  | _, added => added

end GraphOperation

/-- A graph with its lists, and the functions that were added to it. -/
structure Record (F α : Type) where
  wired : Wired F α
  added : List F

namespace Record

variable [Handle F] [Scalar α]

/-- Does something with the graph at a position and records it. A graph that this makes comes last. -/
def perform (records : List (Record F α)) (work : Nat × GraphOperation F α) : List (Record F α) :=
  match records[work.1]? with
  | some r =>
    let beside := (Wired.made work.2 r.wired).map fun w => ⟨w, work.2.notedBeside r.added⟩
    records.set work.1 ⟨Wired.change work.2 r.wired, work.2.noted r.added⟩ ++ beside.toList
  | none => records

/-- The records of some work that begins with an empty graph. -/
def run (work : List (Nat × GraphOperation F α)) : List (Record F α) := work.foldl perform [⟨.empty, []⟩]

end Record

namespace Graph

/-- The nodes of a graph without their places. -/
def handles (g : Graph F α) : List (NodeId × F) := g.nodes.toList.map Node.handle

variable {g : Graph F α}

theorem mem_handles {h : NodeId × F} : h ∈ g.handles ↔ ∃ n ∈ g.nodes, n.handle = h := by
  simp [handles]

theorem Moved.handles {g' : Graph F α} (h : g.Moved g') : g'.handles = g.handles := h.nodes

theorem handles_pushEdge (g : Graph F α) (e : Edge) : (g.pushEdge e).handles = g.handles := by
  unfold Graph.pushEdge
  split <;> rfl

theorem handles_foldl_pushEdge {β : Type} (xs : List β) (edge : β → Edge) (g : Graph F α) :
    (xs.foldl (fun sub x => sub.pushEdge (edge x)) g).handles = g.handles := by
  induction xs generalizing g with
  | nil => rfl
  | cons x rest ih => exact (ih _).trans (handles_pushEdge g _)

theorem handles_pushNode (g : Graph F α) (n : Node F α) :
    (g.pushNode n).handles = if g.nodeIndex.contains n.id then g.handles else g.handles ++ [n.handle] := by
  unfold Graph.pushNode
  split
  · rfl
  · rw [handles, Array.toList_push, List.map_append]
    rfl

variable [Handle F]

/-- A pushed node is there, if not with its own handle then with one of the same id, and no other node is new. -/
theorem Sound.mem_handles_pushNode (hg : g.Sound) (n : Node F α) :
    (∀ h ∈ (g.pushNode n).handles, h ∈ g.handles ∨ h = n.handle) ∧
      (∀ h ∈ g.handles, h ∈ (g.pushNode n).handles) ∧ ∃ h ∈ (g.pushNode n).handles, h.1 = n.id := by
  rw [handles_pushNode]
  split
  · next hthere =>
    obtain ⟨m, hm, hid⟩ := hg.nodes.mem_iff.mp (Std.TreeMap.contains_iff_mem.mp hthere)
    exact ⟨fun h hh => .inl hh, fun h hh => hh, m.handle, mem_handles.mpr ⟨m, hm, rfl⟩, hid⟩
  · refine ⟨fun h hh => ?_, fun h hh => List.mem_append_left _ hh, n.handle, ?_, rfl⟩
    · rcases List.mem_append.mp hh with hold | hnew
      · exact .inl hold
      · exact .inr (List.mem_singleton.mp hnew)
    · exact List.mem_append_right _ (List.mem_singleton.mpr rfl)

theorem Sound.mem_handles_foldl_pushNode {ns : List (Node F α)} (hg : g.Sound)
    (hns : ∀ n ∈ ns, n.id = Handle.nodeId n.function) :
    (∀ h ∈ (ns.foldl Graph.pushNode g).handles, h ∈ g.handles ∨ ∃ n ∈ ns, n.handle = h) ∧
      (∀ h ∈ g.handles, h ∈ (ns.foldl Graph.pushNode g).handles) ∧
      ∀ n ∈ ns, ∃ h ∈ (ns.foldl Graph.pushNode g).handles, h.1 = n.id := by
  induction ns generalizing g with
  | nil =>
    refine ⟨fun h hh => .inl hh, fun h hh => hh, fun n hn => ?_⟩
    cases hn
  | cons n rest ih =>
    obtain ⟨hn, hrest⟩ := List.forall_mem_cons.mp hns
    obtain ⟨hnew, hkept, h', hh', hid⟩ := hg.mem_handles_pushNode n
    obtain ⟨ihnew, ihkept, ihthere⟩ := ih (hg.pushNode hn) hrest
    refine ⟨fun h hh => ?_, fun h hh => ihkept h (hkept h hh), List.forall_mem_cons.mpr ⟨?_, ihthere⟩⟩
    · rcases ihnew h hh with hpushed | ⟨m, hm, heq⟩
      · rcases hnew h hpushed with hold | rfl
        · exact .inl hold
        · exact .inr ⟨n, List.mem_cons_self, rfl⟩
      · exact .inr ⟨m, List.mem_cons_of_mem n hm, heq⟩
    · exact ⟨h', ihkept h' hh', hid⟩

/-- Only a function that is added changes the nodes, but for their places. -/
theorem handles_change [Scalar α] {operation : GraphOperation F α} (hother : ∀ f, operation ≠ .addNode f)
    (g : Graph F α) : (operation.change g).handles = g.handles := by
  cases operation with
  | addNode f => exact absurd rfl (hother f)
  | addEdge source target =>
    rw [Wired.change_addEdge]
    split
    · exact handles_pushEdge g _
    · rfl
  | components => rfl
  | clone => rfl
  | restrict c => rfl
  | setPoint f p => exact Moved.handles (moved_modifyNode _ fun _ => rfl)
  | applyLayout points => exact Moved.handles (moved_place _ fun _ _ => rfl)
  | applyPoints points => exact Moved.handles (moved_place _ fun _ _ => rfl)
  | restoreLayout => exact Moved.handles (moved_map fun _ => rfl)
  | fitToView inset => exact Moved.handles (moved_place _ fun _ _ => rfl)

end Graph

namespace Record

variable [Handle F]

/-- There is a node for each function that was added, made of it or of one with its id, and no other. -/
structure Kept (used : F → Prop) (r : Record F α) : Prop where
  sound : r.wired.Sound
  used : ∀ f ∈ r.added, used f
  added : ∀ h ∈ r.wired.graph.handles, h.2 ∈ r.added
  found : ∀ f ∈ r.added, ∃ h ∈ r.wired.graph.handles, h.1 = Handle.nodeId f

variable [Scalar α] {used : F → Prop} {r : Record F α}

theorem Kept.change (h : r.Kept used) {operation : GraphOperation F α} (hused : ∀ f ∈ operation.functions, used f) :
    Kept used ⟨Wired.change operation r.wired, operation.noted r.added⟩ := by
  have hgraph := Wired.graph_change h.sound operation
  by_cases hadds : ∃ f, operation = .addNode f
  · obtain ⟨f, rfl⟩ := hadds
    obtain ⟨hnew, hkept, h', hh', hid⟩ := h.sound.graph.mem_handles_pushNode (Graph.freshNode f)
    refine ⟨h.sound.change (.addNode f), ?_, ?_, ?_⟩
    · exact List.forall_mem_append.mpr ⟨h.used, hused⟩
    · intro n hn
      rw [hgraph] at hn
      rcases hnew n hn with hold | rfl
      · exact List.mem_append_left _ (h.added n hold)
      · exact List.mem_append_right _ (List.mem_singleton.mpr rfl)
    · intro f' hf'
      rw [hgraph]
      rcases List.mem_append.mp hf' with hold | hadded
      · obtain ⟨n, hn, hid'⟩ := h.found f' hold
        exact ⟨n, hkept n hn, hid'⟩
      · obtain rfl := List.mem_singleton.mp hadded
        exact ⟨h', hh', hid⟩
  · have hother : ∀ f, operation ≠ .addNode f := fun f hf => hadds ⟨f, hf⟩
    have hnoted : operation.noted r.added = r.added := by
      cases operation with
      | addNode f => exact absurd rfl (hother f)
      | _ => rfl
    rw [hnoted]
    refine ⟨h.sound.change operation, h.used, ?_, ?_⟩
    · rw [hgraph, Graph.handles_change hother]
      exact h.added
    · rw [hgraph, Graph.handles_change hother]
      exact h.found

omit [Scalar α] in
theorem Kept.restrict (h : r.Kept used) (c : Component) :
    Kept used ⟨r.wired.restrict c, r.added.filter fun f => c.contains (Handle.nodeId f)⟩ := by
  obtain ⟨hsound, hgraph⟩ := h.sound.restrict c
  have hinside : ∀ n ∈ c.nodes.filterMap r.wired.graph.node?, n ∈ r.wired.graph.nodes ∧ n.id ∈ c.nodes := by
    intro n hn
    obtain ⟨id, hid, hfound⟩ := List.mem_filterMap.mp hn
    obtain ⟨hin, rfl⟩ := h.sound.graph.node?_eq_some.mp hfound
    exact ⟨hin, hid⟩
  have hhandles : (r.wired.graph.restrict c).handles =
      ((c.nodes.filterMap r.wired.graph.node?).foldl Graph.pushNode Graph.empty).handles :=
    Graph.handles_foldl_pushEdge _ _ _
  obtain ⟨hnew, -, hthere⟩ := Graph.sound_empty.mem_handles_foldl_pushNode fun n hn =>
    h.sound.graph.function (hinside n hn).1
  refine ⟨hsound, fun f hf => h.used f (List.mem_filter.mp hf).1, ?_, ?_⟩
  · intro n hn
    rw [hgraph, hhandles] at hn
    rcases hnew n hn with hnone | ⟨m, hm, rfl⟩
    · exact absurd hnone List.not_mem_nil
    · obtain ⟨hin, hc⟩ := hinside m hm
      refine List.mem_filter.mpr ⟨h.added _ (Graph.mem_handles.mpr ⟨m, hin, rfl⟩), ?_⟩
      rw [h.sound.graph.function hin] at hc
      exact List.contains_iff_mem.mpr hc
  · intro f hf
    obtain ⟨hadded, hc⟩ := List.mem_filter.mp hf
    obtain ⟨n, hn, hid⟩ := h.found f hadded
    obtain ⟨m, hm, rfl⟩ := Graph.mem_handles.mp hn
    have hid' : m.id = Handle.nodeId f := hid
    rw [hgraph, hhandles, ← hid']
    refine hthere m (List.mem_filterMap.mpr ⟨m.id, ?_, h.sound.graph.node?_eq_some.mpr ⟨hm, rfl⟩⟩)
    rw [hid']
    exact List.contains_iff_mem.mp hc

/-- One piece of work keeps every record, and the graphs of the records are the graphs at hand. -/
theorem kept_perform {records : List (Record F α)} (h : ∀ r ∈ records, r.Kept used) (work : Nat × GraphOperation F α)
    (hused : ∀ f ∈ work.2.functions, used f) :
    (∀ r ∈ perform records work, r.Kept used) ∧
      (perform records work).map (fun r => r.wired.graph) =
        Workbench.perform (records.map fun r => r.wired.graph) work := by
  unfold perform Workbench.perform
  rw [List.getElem?_map]
  cases hr : records[work.1]? with
  | none => exact ⟨h, rfl⟩
  | some r =>
    have hold := h r (List.mem_of_getElem? hr)
    constructor
    · intro r' hr'
      rcases List.mem_append.mp hr' with hset | hmade
      · rcases List.mem_or_eq_of_mem_set hset with hin | rfl
        · exact h r' hin
        · exact hold.change hused
      · obtain ⟨w, hw, rfl⟩ := Option.map_eq_some_iff.mp (Option.mem_toList.mp hmade)
        cases hoperation : work.2 with
        | clone =>
          rw [hoperation] at hw
          obtain rfl := Option.some.inj hw
          exact hold
        | restrict c =>
          rw [hoperation] at hw
          obtain rfl := Option.some.inj hw
          exact hold.restrict c
        | _ =>
          rw [hoperation] at hw
          cases hw
    · obtain ⟨-, hgraph⟩ := hold.sound.made work.2
      simp only [Option.map_some]
      rw [List.map_append, List.map_set, Wired.graph_change hold.sound, ← hgraph, ← Option.toList_map, Option.map_map]
      rfl

theorem kept_run (work : List (Nat × GraphOperation F α)) (hused : ∀ one ∈ work, ∀ f ∈ one.2.functions, used f) :
    (∀ r ∈ run work, r.Kept used) ∧ (run work).map (fun r => r.wired.graph) = Workbench.run work := by
  have hstart : Kept used (⟨.empty, []⟩ : Record F α) := by
    refine ⟨Wired.sound_empty, fun f hf => ?_, fun h hh => ?_, fun f hf => ?_⟩
    · cases hf
    · cases hh
    · cases hf
  suffices hall : ∀ records : List (Record F α), (∀ r ∈ records, r.Kept used) →
      (∀ r ∈ work.foldl perform records, r.Kept used) ∧
        (work.foldl perform records).map (fun r => r.wired.graph) =
          work.foldl Workbench.perform (records.map fun r => r.wired.graph) from
    hall [⟨.empty, []⟩] fun r hr => List.mem_singleton.mp hr ▸ hstart
  induction work with
  | nil => exact fun _ h => ⟨h, rfl⟩
  | cons one rest ih =>
    intro records h
    obtain ⟨hone, hrest⟩ := List.forall_mem_cons.mp hused
    obtain ⟨hkept, hgraphs⟩ := kept_perform h one hone
    obtain ⟨hall, hmap⟩ := ih hrest _ hkept
    refine ⟨hall, hmap.trans ?_⟩
    rw [hgraphs]
    rfl

end Record

namespace Graph

variable [Handle F] [Scalar α]

/-- What a graph holds and answers, if certain functions were added to it and those in use are told apart by the ids of
their nodes. -/
structure Represents (g : Graph F α) (used : F → Prop) (added : List F) : Prop where
  /-- Each node has the id of its function, one of those that were added. -/
  node_ids : ∀ n ∈ g.nodes, n.id = Handle.nodeId n.function ∧ n.function ∈ added
  distinct : (g.nodes.toList.map Node.id).Nodup
  /-- The tables map the ids of the stored nodes and edges to their positions, and no other ids. -/
  node_table : Located g.nodes Node.id g.nodeIndex
  edge_table : Located g.edges Edge.id g.edgeIndex
  node_found : ∀ id n, g.node? id = some n ↔ n ∈ g.nodes ∧ n.id = id
  edge_found : ∀ id e, g.edge? id = some e ↔ e ∈ g.edges ∧ e.id = id
  edge_ids : ∀ e ∈ g.edges, e.id = ⟨e.source, e.target⟩
  /-- There is at most one edge for an ordered pair of nodes, and both are there. -/
  one_edge : (g.edges.toList.map fun e => (e.source, e.target)).Nodup
  ends : ∀ e ∈ g.edges, (∃ n ∈ g.nodes, n.id = e.source) ∧ ∃ n ∈ g.nodes, n.id = e.target
  outgoing : ∀ id, (g.outgoing id).Nodup ∧ ∀ e, e ∈ g.outgoing id ↔ e ∈ g.edges ∧ e.source = id
  incoming : ∀ id, (g.incoming id).Nodup ∧ ∀ e, e ∈ g.incoming id ↔ e ∈ g.edges ∧ e.target = id
  contains_iff : ∀ f, used f → (g.contains f = true ↔ Listed added f)
  /-- What is there already is not added again. -/
  addNode_again : ∀ f, Listed added f → g.addNode f = g
  addEdge_again : ∀ e ∈ g.edges, ∀ source target, Handle.nodeId source = e.source → Handle.nodeId target = e.target →
    g.addEdge source target = .ok (g, e.id)
  /-- An edge is refused exactly if one of its ends was never added; the first such end is named. -/
  addEdge_error : ∀ source target, used source → used target → ∀ error,
    g.addEdge source target = .error error ↔
      (¬ Listed added source ∧ error = .unknownEndpoint (Handle.describe source)) ∨
      (Listed added source ∧ ¬ Listed added target ∧ error = .unknownEndpoint (Handle.describe target))
  /-- A refused edge changes nothing. -/
  unchanged : ∀ source target error, g.addEdge source target = .error error →
    (GraphOperation.addEdge source target).change g = g

omit [Scalar α] in
theorem Sound.edge_id {g : Graph F α} (h : g.Sound) {e : Edge} (he : e ∈ g.edges) : e.id = ⟨e.source, e.target⟩ := by
  rw [h.between he]
  rfl

omit [Scalar α] in
/-- The id of an edge tells its ends, so edges with the same ends are one. -/
theorem Sound.nodup_pairs {g : Graph F α} (h : g.Sound) :
    (g.edges.toList.map fun e => (e.source, e.target)).Nodup := by
  refine List.Nodup.of_map (fun ends => EdgeId.mk ends.1 ends.2) ?_
  have hsame : (g.edges.toList.map fun e => (e.source, e.target)).map (fun ends => EdgeId.mk ends.1 ends.2) =
      g.edges.toList.map Edge.id := by
    rw [List.map_map]
    apply List.map_congr_left
    intro e he
    exact (h.edge_id (Array.mem_toList_iff.mp he)).symm
  rw [hsame]
  exact h.edges.nodup

omit [Scalar α] in
theorem Sound.addEdge_again {g : Graph F α} (h : g.Sound) {e : Edge} (he : e ∈ g.edges) {source target : F}
    (hsource : Handle.nodeId source = e.source) (htarget : Handle.nodeId target = e.target) :
    g.addEdge source target = .ok (g, e.id) := by
  have hends := h.ends he
  have hthere : g.edgeIndex.contains e.id = true :=
    Std.TreeMap.contains_iff_mem.mpr (h.edges.mem_iff.mpr ⟨e, he, rfl⟩)
  rw [← hsource, ← htarget] at hends
  have hbetween := h.between he
  rw [Wired.addEdge_eq, if_pos (h.contains_iff.mpr hends.1), if_pos (h.contains_iff.mpr hends.2), hsource, htarget,
    ← hbetween, Graph.pushEdge, if_pos hthere, hbetween]
  rfl

omit [Scalar α] in
/-- The first end without a node is the one that is named. -/
theorem addEdge_error_iff {g : Graph F α} {source target : F} {error : GraphError} :
    g.addEdge source target = .error error ↔
      (g.contains source = false ∧ error = .unknownEndpoint (Handle.describe source)) ∨
      (g.contains source = true ∧ g.contains target = false ∧
        error = .unknownEndpoint (Handle.describe target)) := by
  rw [Wired.addEdge_eq]
  cases g.contains source with
  | false => simp [eq_comm (b := error)]
  | true =>
    cases g.contains target with
    | false => simp [eq_comm (b := error)]
    | true => simp

end Graph

namespace Record

variable [Handle F] {used : F → Prop} {r : Record F α}

/-- Functions in use that share a node are one function, so those with a node are those that were added. -/
theorem Kept.contains_iff (h : r.Kept used)
    (hinjective : ∀ f g, used f → used g → Handle.nodeId f = Handle.nodeId g → compare f g = .eq) {f : F}
    (hf : used f) : r.wired.graph.contains f = true ↔ Listed r.added f := by
  rw [h.sound.graph.contains_iff, Graph.mem_ids]
  constructor
  · rintro ⟨n, hn, hid⟩
    have hadded : n.function ∈ r.added := h.added _ (Graph.mem_handles.mpr ⟨n, hn, rfl⟩)
    rw [h.sound.graph.function hn] at hid
    exact ⟨n.function, hadded, hinjective _ _ (h.used _ hadded) hf hid⟩
  · rintro ⟨f', hadded, hcompare⟩
    obtain ⟨m, hm, hid⟩ := h.found f' hadded
    obtain ⟨n, hn, rfl⟩ := Graph.mem_handles.mp hm
    exact ⟨n, hn, hid.trans (Handle.nodeId_congr hcompare)⟩

variable [Scalar α]

theorem Kept.represents (h : r.Kept used)
    (hinjective : ∀ f g, used f → used g → Handle.nodeId f = Handle.nodeId g → compare f g = .eq) :
    r.wired.graph.Represents used r.added := by
  have hsound := h.sound.graph
  have hcontains {f : F} (hf : used f) := h.contains_iff hinjective hf
  have hlisted {f : F} (hf : Listed r.added f) : r.wired.graph.contains f = true := by
    obtain ⟨f', hadded, hcompare⟩ := hf
    rw [Graph.contains, ← Handle.nodeId_congr hcompare]
    exact (hcontains (h.used f' hadded)).mpr (.of_mem hadded)
  constructor
  case node_ids => exact fun n hn => ⟨hsound.function hn, h.added _ (Graph.mem_handles.mpr ⟨n, hn, rfl⟩)⟩
  case distinct => exact hsound.nodes.nodup
  case node_table => exact hsound.nodes
  case edge_table => exact hsound.edges
  case node_found => exact fun id n => hsound.node?_eq_some
  case edge_found => exact fun id e => hsound.edges.found_iff
  case edge_ids => exact fun e he => hsound.edge_id he
  case one_edge => exact hsound.nodup_pairs
  case ends =>
    intro e he
    obtain ⟨hsource, htarget⟩ := hsound.ends he
    exact ⟨Graph.mem_ids.mp hsource, Graph.mem_ids.mp htarget⟩
  case outgoing => exact fun id => ⟨List.nodup_reverse.mpr (hsound.nodup_edges.filter _), fun e => Graph.mem_outgoing⟩
  case incoming => exact fun id => ⟨List.nodup_reverse.mpr (hsound.nodup_edges.filter _), fun e => Graph.mem_incoming⟩
  case contains_iff => exact fun f hf => hcontains hf
  case addNode_again =>
    intro f hf
    exact if_pos (hlisted hf)
  case addEdge_again => exact fun e he source target => hsound.addEdge_again he
  case addEdge_error =>
    intro source target hsource htarget error
    rw [Graph.addEdge_error_iff, ← hcontains hsource, ← hcontains htarget, Bool.not_eq_true, Bool.not_eq_true]
  case unchanged =>
    intro source target error herror
    rw [GraphOperation.change, herror]

/-- If the functions in use are told apart by the ids of their nodes, every graph at hand represents what was added to
it, and so do the lists of edges that are kept beside it. -/
theorem represented (work : List (Nat × GraphOperation F α))
    (hinjective : ∀ f g, used f → used g → Handle.nodeId f = Handle.nodeId g → compare f g = .eq)
    (hused : ∀ one ∈ work, ∀ f ∈ one.2.functions, used f) :
    (run work).map (fun r => r.wired.graph) = Workbench.run work ∧
      ∀ r ∈ run work, r.wired.graph.Represents used r.added ∧
        ∀ id, r.wired.outgoing id = r.wired.graph.outgoing id ∧ r.wired.incoming id = r.wired.graph.incoming id := by
  obtain ⟨hkept, hgraphs⟩ := kept_run work hused
  refine ⟨hgraphs, fun r hr => ⟨(hkept r hr).represents hinjective, fun id => ⟨?_, ?_⟩⟩⟩
  · exact (hkept r hr).sound.outgoing_eq id
  · exact (hkept r hr).sound.incoming_eq id

end Record

namespace Workbench

/-- Calls to another function, to the caller itself and to a function without a node, the first of them twice; then a
restriction to the caller, which keeps the call to itself. -/
def selfCall : List (Nat × GraphOperation SourceFunction Rat) :=
  let caller := SourceFunction.named "main"
  let callee := SourceFunction.named "run"
  [(0, .addNode caller), (0, .addNode callee), (0, .addNode caller), (0, .addEdge caller callee),
    (0, .addEdge caller caller), (0, .addEdge caller callee), (0, .addEdge caller (SourceFunction.named "log")),
    (0, .restrict ⟨[Handle.nodeId caller], [⟨Handle.nodeId caller, Handle.nodeId callee⟩,
      ⟨Handle.nodeId caller, Handle.nodeId caller⟩]⟩), (1, .restoreLayout)]

theorem selfCall_represented :
    ∃ r ∈ Record.run selfCall, ∃ part ∈ Record.run selfCall,
      r.wired.graph.Represents (· ∈ ["main", "run", "log"].map SourceFunction.named) r.added ∧
      part.wired.graph.Represents (· ∈ ["main", "run", "log"].map SourceFunction.named) part.added ∧
      (r.wired.graph.nodes.size, r.wired.graph.edges.size) = (2, 2) ∧
      (part.wired.graph.nodes.size, part.wired.graph.edges.size) = (1, 1) ∧
      (r.wired.outgoing (Handle.nodeId (SourceFunction.named "main"))).map Edge.isLoop = [true, false] := by
  have hinjective : ∀ f g, f ∈ ["main", "run", "log"].map SourceFunction.named →
      g ∈ ["main", "run", "log"].map SourceFunction.named →
      Handle.nodeId f = Handle.nodeId g → compare f g = .eq := by
    intro f g hf hg hid
    obtain ⟨a, ha, rfl⟩ := List.mem_map.mp hf
    obtain ⟨b, hb, rfl⟩ := List.mem_map.mp hg
    have hname : ∀ a ∈ ["main", "run", "log"], ∀ b ∈ ["main", "run", "log"],
        Handle.nodeId (SourceFunction.named a) = Handle.nodeId (SourceFunction.named b) → a = b := by
      decide +kernel
    rw [hname a ha b hb hid]
    exact compare_refl _
  have hused : ∀ one ∈ selfCall, ∀ f ∈ one.2.functions, f ∈ ["main", "run", "log"].map SourceFunction.named := by
    simp [selfCall, GraphOperation.functions]
  obtain ⟨-, hall⟩ := Record.represented selfCall hinjective hused
  have hfirst : (Record.run selfCall).get ⟨0, by decide +kernel⟩ ∈ Record.run selfCall := List.get_mem _ _
  have hsecond : (Record.run selfCall).get ⟨1, by decide +kernel⟩ ∈ Record.run selfCall := List.get_mem _ _
  refine ⟨_, hfirst, _, hsecond, (hall _ hfirst).1, (hall _ hsecond).1, ?_, ?_, ?_⟩
  · decide +kernel
  · decide +kernel
  · decide +kernel

end Workbench
end CallChart
