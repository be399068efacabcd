import CallChart.Layout.Fit
import CallChart.Proofs.Walks

/-! Graphs as they come about: several at hand, each of which can be added to, moved, copied and
restricted in any order. Whatever is done, the positions by which nodes and edges are found stay exact, and
components that are remembered are those of the graph as it is. -/
namespace CallChart

variable {F α : Type}

/-- What can be done with a graph at hand. -/
inductive GraphOperation (F α : Type) where
  | addNode (f : F)
  | addEdge (source target : F)
  /-- Asks for the components, which are remembered. -/
  | components
  | clone
  | restrict (c : Component)
  | setPoint (f : F) (p : Point α)
  | applyLayout (points : Placement α)
  | applyPoints (points : Placement α)
  | restoreLayout
  | fitToView (inset : α)

namespace GraphOperation

variable [Handle F] [Scalar α]

/-- The graph after an operation. An edge that cannot be added leaves it as it was. -/
def change : GraphOperation F α → Graph F α → Graph F α
  | addNode f, g => g.addNode f
  | addEdge source target, g =>
    match g.addEdge source target with
    | .ok (g', _) => g'
    | .error _ => g
  | components, g => g.remember
  | clone, g => g
  | restrict _, g => g
  | setPoint f p, g => g.modifyNode (Handle.nodeId f) fun n => { n with point := p }
  | applyLayout points, g => g.applyLayout points
  | applyPoints points, g => g.applyPoints points
  | restoreLayout, g => g.restoreLayout
  | fitToView inset, g => g.fitToView inset

/-- The graph that an operation makes beside the one at hand. -/
def made : GraphOperation F α → Graph F α → Option (Graph F α)
  | clone, g => some g
  | restrict c, g => some (g.restrict c)
  | _, _ => none

end GraphOperation

/-- The graphs at hand. -/
abbrev Workbench (F α : Type) := List (Graph F α)

namespace Workbench

variable [Handle F] [Scalar α]

/-- Does something with the graph at a position. A graph that this makes comes last. -/
def perform (graphs : Workbench F α) (work : Nat × GraphOperation F α) : Workbench F α :=
  match graphs[work.1]? with
  | some g => graphs.set work.1 (work.2.change g) ++ (work.2.made g).toList
  | none => graphs

/-- The graphs at hand after some work that began with an empty graph. -/
def run (work : List (Nat × GraphOperation F α)) : Workbench F α := work.foldl perform [Graph.empty]

end Workbench

/-! ### Tables -/

/-- An index tells of each key the position of the item that has it. -/
def Located {β κ : Type} [Ord κ] (items : Array β) (key : β → κ) (index : Std.TreeMap κ Nat) : Prop :=
  ∀ k i, index[k]? = some i ↔ ∃ x, items[i]? = some x ∧ key x = k

namespace Located

variable {β κ : Type} [Ord κ] {items : Array β} {key : β → κ} {index : Std.TreeMap κ Nat}

theorem mem_iff [Std.TransOrd κ] (h : Located items key index) {k : κ} :
    k ∈ index ↔ ∃ x ∈ items, key x = k := by
  rw [Std.TreeMap.mem_iff_isSome_getElem?, Option.isSome_iff_exists]
  constructor
  · rintro ⟨i, hi⟩
    obtain ⟨x, hx, hk⟩ := (h k i).mp hi
    exact ⟨x, Array.mem_of_getElem? hx, hk⟩
  · rintro ⟨x, hx, hk⟩
    obtain ⟨i, hi⟩ := Array.getElem?_of_mem hx
    exact ⟨i, (h k i).mpr ⟨x, hi, hk⟩⟩

/-- What is found under a key is the item that has it. -/
theorem found_iff (h : Located items key index) {k : κ} {x : β} :
    (index[k]?.bind fun i => items[i]?) = some x ↔ x ∈ items ∧ key x = k := by
  rw [Option.bind_eq_some_iff]
  constructor
  · rintro ⟨i, hi, hx⟩
    obtain ⟨y, hy, hk⟩ := (h k i).mp hi
    obtain rfl := Option.some.inj (hx.symm.trans hy)
    exact ⟨Array.mem_of_getElem? hx, hk⟩
  · rintro ⟨hx, hk⟩
    obtain ⟨i, hi⟩ := Array.getElem?_of_mem hx
    exact ⟨i, (h k i).mpr ⟨x, hi, hk⟩, hi⟩

/-- No two items have one key. -/
theorem nodup (h : Located items key index) : (items.toList.map key).Nodup := by
  rw [List.nodup_iff_getElem?_ne_getElem?]
  intro i j hij hj heq
  rw [List.getElem?_map, List.getElem?_map, Array.getElem?_toList, Array.getElem?_toList] at heq
  rw [List.length_map, Array.length_toList] at hj
  rw [Array.getElem?_eq_getElem (Nat.lt_trans hij hj), Array.getElem?_eq_getElem hj] at heq
  have hi := (h (key items[j]) i).mpr ⟨_, Array.getElem?_eq_getElem (Nat.lt_trans hij hj), Option.some.inj heq⟩
  have hj := (h (key items[j]) j).mpr ⟨_, Array.getElem?_eq_getElem hj, rfl⟩
  exact Nat.ne_of_lt hij (Option.some.inj (hi.symm.trans hj))

/-- An item with a new key is added at the end. -/
theorem push [Std.TransOrd κ] [Std.LawfulEqOrd κ] (h : Located items key index) {x : β}
    (hnew : key x ∉ index) : Located (items.push x) key (index.insert (key x) items.size) := by
  intro k i
  rw [Std.TreeMap.getElem?_insert, Array.getElem?_push]
  split
  · next hk =>
    obtain rfl := Std.LawfulEqCmp.eq_of_compare hk
    split
    · next hi => simp [hi]
    · next hi =>
      refine iff_of_false (fun heq => hi (Option.some.inj heq).symm) ?_
      rintro ⟨y, hy, hk⟩
      exact hnew (h.mem_iff.mpr ⟨y, Array.mem_of_getElem? hy, hk⟩)
  · next hk =>
    split
    · next hi =>
      subst hi
      refine iff_of_false (fun heq => ?_) ?_
      · obtain ⟨y, hy, -⟩ := (h k items.size).mp heq
        simp at hy
      · rintro ⟨y, hy, hkey⟩
        obtain rfl := Option.some.inj hy
        exact hk (hkey ▸ Std.ReflCmp.compare_self)
    · exact h k i

end Located

/-! ### Soundness -/

/-- What a node is known by, without its place. -/
def Node.handle (n : Node F α) : NodeId × F := (n.id, n.function)

namespace Graph

variable [Handle F] {g g' : Graph F α}

/-- What every graph at hand satisfies. -/
structure Sound (g : Graph F α) : Prop where
  nodes : Located g.nodes Node.id g.nodeIndex
  edges : Located g.edges Edge.id g.edgeIndex
  function {n : Node F α} : n ∈ g.nodes → n.id = Handle.nodeId n.function
  between {e : Edge} : e ∈ g.edges → e = .between e.source e.target
  ends {e : Edge} : e ∈ g.edges → e.source ∈ g.ids ∧ e.target ∈ g.ids
  known {cs : List Component} : g.knownComponents = some cs → cs = g.findComponents

omit [Handle F] in
theorem mem_ids {id : NodeId} : id ∈ g.ids ↔ ∃ n ∈ g.nodes, n.id = id := by
  simp [ids]

theorem Sound.nodup_edges (hg : g.Sound) : g.edges.toList.Nodup := hg.edges.nodup.of_map

theorem sound_empty : (empty : Graph F α).Sound where
  nodes id i := by simp [empty]
  edges id i := by simp [empty]
  function := by simp [empty]
  between := by simp [empty]
  ends := by simp [empty]
  known := nofun

theorem Sound.pushNode (h : g.Sound) {n : Node F α} (hn : n.id = Handle.nodeId n.function) :
    (g.pushNode n).Sound := by
  unfold Graph.pushNode
  split
  · exact h
  · next hnew =>
    have hids (id : NodeId) (hin : id ∈ g.ids) : id ∈ (g.nodes.push n).toList.map Node.id := by
      rw [Array.toList_push, List.map_append]
      exact List.mem_append_left _ hin
    refine ⟨h.nodes.push fun hin => hnew (Std.TreeMap.contains_iff_mem.mpr hin), h.edges, ?_, h.between, ?_, nofun⟩
    · intro m hm
      rcases Array.mem_push.mp hm with hm | rfl
      · exact h.function hm
      · exact hn
    · intro e he
      exact ⟨hids _ (h.ends he).1, hids _ (h.ends he).2⟩

theorem Sound.pushEdge (h : g.Sound) {source target : NodeId} (hsource : source ∈ g.ids)
    (htarget : target ∈ g.ids) : (g.pushEdge (.between source target)).Sound := by
  unfold Graph.pushEdge
  split
  · exact h
  · next hnew =>
    refine ⟨h.nodes, h.edges.push fun hin => hnew (Std.TreeMap.contains_iff_mem.mpr hin), h.function, ?_, ?_, nofun⟩
    · intro e he
      rcases Array.mem_push.mp he with he | rfl
      · exact h.between he
      · rfl
    · intro e he
      rcases Array.mem_push.mp he with he | rfl
      · exact h.ends he
      · exact ⟨hsource, htarget⟩

/-! The components depend on the ids of the nodes and on the edges only. -/

omit [Handle F] in
theorem walk_congr (hedges : g'.edges = g.edges) (steps : Nat) (queue : List NodeId) (seen : Std.TreeSet NodeId) :
    g'.walk steps queue seen = g.walk steps queue seen := by
  have hneighbours : g'.neighbours = g.neighbours := by
    funext id
    rw [neighbours, neighbours, outgoing, outgoing, incoming, incoming, hedges]
  induction steps generalizing queue seen with
  | zero => rfl
  | succ steps ih =>
    cases queue with
    | nil => rfl
    | cons id queue => simp only [walk, hneighbours, ih]

omit [Handle F] in
theorem findComponents_congr (hids : g'.ids = g.ids) (hedges : g'.edges = g.edges) :
    g'.findComponents = g.findComponents := by
  have hsize : g'.nodes.size = g.nodes.size := by simpa [ids] using congrArg List.length hids
  have hfrom (seen : Std.TreeSet NodeId) (names : List NodeId) :
      g'.connectedFrom seen names = g.connectedFrom seen names := by
    induction names generalizing seen with
    | nil => rfl
    | cons id rest ih => simp only [connectedFrom, walk_congr hedges, hsize, ih]
  have hnodes : g'.nodes.toList.map Node.id = g.nodes.toList.map Node.id := hids
  simp only [findComponents, hfrom, hnodes, hedges]

omit [Handle F] in
theorem components_of_known (h : ∀ {cs}, g.knownComponents = some cs → cs = g.findComponents) :
    g.components = g.findComponents := by
  unfold components
  cases hknown : g.knownComponents with
  | none => rfl
  | some cs => exact h hknown

theorem Sound.components (h : g.Sound) : g.components = g.findComponents := components_of_known h.known

theorem Sound.remember (h : g.Sound) : g.remember.Sound := by
  refine ⟨h.nodes, h.edges, h.function, h.between, h.ends, fun {cs} hknown => ?_⟩
  rw [← Option.some.inj hknown, h.components]
  exact findComponents_congr (g := g.remember) rfl rfl

/-- The nodes of one graph are those of the other, perhaps at other places. -/
structure Moved (g g' : Graph F α) : Prop where
  nodes : g'.nodes.toList.map Node.handle = g.nodes.toList.map Node.handle
  edges : g'.edges = g.edges
  nodeIndex : g'.nodeIndex = g.nodeIndex
  edgeIndex : g'.edgeIndex = g.edgeIndex
  known : g'.knownComponents = g.knownComponents

omit [Handle F] in
theorem Moved.ids (h : g.Moved g') : g'.ids = g.ids := by
  simpa [Graph.ids, Node.handle, Function.comp_def] using congrArg (List.map Prod.fst) h.nodes

theorem Sound.moved (h : g.Sound) (hm : g.Moved g') : g'.Sound := by
  have hat (i : Nat) : (g'.nodes[i]?).map Node.handle = (g.nodes[i]?).map Node.handle := by
    simpa using congrArg (fun handles : List (NodeId × F) => handles[i]?) hm.nodes
  have hsame := findComponents_congr hm.ids hm.edges
  refine ⟨fun id i => ?_, ?_, fun {n} hn => ?_, ?_, ?_, ?_⟩
  · have hid (nodes : Array (Node F α)) : (∃ n, nodes[i]? = some n ∧ n.id = id) ↔
        ∃ handle, (nodes[i]?).map Node.handle = some handle ∧ handle.1 = id := by
      simp [Node.handle]
    rw [hm.nodeIndex, h.nodes id i, hid, hid, hat]
  · rw [hm.edges, hm.edgeIndex]
    exact h.edges
  · have hin : n.handle ∈ g.nodes.toList.map Node.handle :=
      hm.nodes ▸ List.mem_map_of_mem (Array.mem_toList_iff.mpr hn)
    obtain ⟨m, hmem, hsame⟩ := List.mem_map.mp hin
    obtain ⟨hid, hfunction⟩ := Prod.mk.inj hsame
    rw [← hid, ← hfunction]
    exact h.function (Array.mem_toList_iff.mp hmem)
  · rw [hm.edges]
    exact h.between
  · rw [hm.edges, hm.ids]
    exact h.ends
  · rw [hm.known, hsame]
    exact h.known

omit [Handle F] in
theorem moved_map {move : Node F α → Node F α} (hmove : ∀ n, (move n).handle = n.handle) :
    g.Moved { g with nodes := g.nodes.map move } := by
  refine ⟨?_, rfl, rfl, rfl, rfl⟩
  rw [Array.toList_map, List.map_map]
  exact List.map_congr_left fun n _ => hmove n

omit [Handle F] in
theorem moved_place (points : Placement α) {move : Node F α → Point α → Node F α}
    (hmove : ∀ n p, (move n p).handle = n.handle) : g.Moved (g.place points move) := by
  refine moved_map fun n => ?_
  split
  · exact hmove n _
  · rfl

omit [Handle F] in
theorem moved_modifyNode (id : NodeId) {change : Node F α → Node F α} (hchange : ∀ n, (change n).handle = n.handle) :
    g.Moved (g.modifyNode id change) := by
  unfold modifyNode
  split
  · next i _ =>
    refine ⟨List.ext_getElem? fun j => ?_, rfl, rfl, rfl, rfl⟩
    simp only [List.getElem?_map, Array.getElem?_toList, Array.getElem?_modify]
    split
    · cases g.nodes[j]? with
      | none => rfl
      | some n => exact congrArg some (hchange n)
    · rfl
  · exact ⟨rfl, rfl, rfl, rfl, rfl⟩

/-! ### Restrictions -/

theorem Sound.node?_eq_some (h : g.Sound) {id : NodeId} {n : Node F α} :
    g.node? id = some n ↔ n ∈ g.nodes ∧ n.id = id :=
  h.nodes.found_iff

theorem Sound.foldl_pushNode {ns : List (Node F α)} (h : g.Sound) (hns : ∀ n ∈ ns, n.id = Handle.nodeId n.function) :
    (ns.foldl Graph.pushNode g).Sound := by
  induction ns generalizing g with
  | nil => exact h
  | cons n rest ih =>
    obtain ⟨hn, hrest⟩ := List.forall_mem_cons.mp hns
    exact ih (h.pushNode hn) hrest

omit [Handle F] in
theorem nodes_pushEdge (g : Graph F α) (e : Edge) : (g.pushEdge e).nodes = g.nodes := by
  unfold Graph.pushEdge
  split <;> rfl

omit [Handle F] in
theorem ids_pushEdge (g : Graph F α) (e : Edge) : (g.pushEdge e).ids = g.ids := by
  rw [ids, nodes_pushEdge, ids]

theorem Sound.foldl_pushEdge {ids : List EdgeId} (h : g.Sound)
    (hids : ∀ id ∈ ids, id.source ∈ g.ids ∧ id.target ∈ g.ids) :
    (ids.foldl (fun sub id => sub.pushEdge (.between id.source id.target)) g).Sound := by
  induction ids generalizing g with
  | nil => exact h
  | cons id rest ih =>
    obtain ⟨hid, hrest⟩ := List.forall_mem_cons.mp hids
    refine ih (h.pushEdge hid.1 hid.2) fun other hother => ?_
    rw [ids_pushEdge]
    exact hrest other hother

theorem Sound.restrict (h : g.Sound) (c : Component) : (g.restrict c).Sound := by
  have hnodes : ((c.nodes.filterMap g.node?).foldl Graph.pushNode Graph.empty).Sound := by
    refine sound_empty.foldl_pushNode fun n hn => ?_
    obtain ⟨id, -, hfound⟩ := List.mem_filterMap.mp hn
    exact h.function (h.node?_eq_some.mp hfound).1
  refine hnodes.foldl_pushEdge fun id hid => ?_
  have hin (end_ : NodeId) (hc : ((c.nodes.filterMap g.node?).foldl Graph.pushNode Graph.empty).nodeIndex.contains
      end_ = true) := mem_ids.mpr (hnodes.nodes.mem_iff.mp (Std.TreeMap.contains_iff_mem.mp hc))
  obtain ⟨hsource, htarget⟩ := Bool.and_eq_true_iff.mp (List.mem_filter.mp hid).2
  exact ⟨hin _ hsource, hin _ htarget⟩

/-! ### All operations -/

theorem Sound.contains_iff (h : g.Sound) {f : F} : g.contains f = true ↔ Handle.nodeId f ∈ g.ids := by
  rw [Graph.contains, Std.TreeMap.contains_iff_mem, h.nodes.mem_iff, mem_ids]

theorem Sound.addEdge (h : g.Sound) {source target : F} {id : EdgeId}
    (hadd : g.addEdge source target = .ok (g', id)) : g'.Sound := by
  unfold Graph.addEdge endpoint at hadd
  split at hadd
  · next hsource =>
    split at hadd
    · next htarget =>
      cases hadd
      exact h.pushEdge (h.contains_iff.mp hsource) (h.contains_iff.mp htarget)
    · cases hadd
  · cases hadd

variable [Scalar α]

theorem Sound.addNode (h : g.Sound) (f : F) : (g.addNode f).Sound := h.pushNode rfl

theorem Sound.change (h : g.Sound) (work : GraphOperation F α) : (work.change g).Sound := by
  cases work with
  | addNode f => exact h.addNode f
  | addEdge source target =>
    rw [GraphOperation.change]
    split
    · next hadd => exact h.addEdge hadd
    · exact h
  | components => exact h.remember
  | clone => exact h
  | restrict c => exact h
  | setPoint f p => exact h.moved (moved_modifyNode _ fun _ => rfl)
  | applyLayout points => exact h.moved (moved_place _ fun _ _ => rfl)
  | applyPoints points => exact h.moved (moved_place _ fun _ _ => rfl)
  | restoreLayout => exact h.moved (moved_map fun _ => rfl)
  | fitToView inset => exact h.moved (moved_place _ fun _ _ => rfl)

omit [Scalar α] in
theorem Sound.made (h : g.Sound) {work : GraphOperation F α} (hmade : work.made g = some g') : g'.Sound := by
  cases work with
  | clone => exact Option.some.inj hmade ▸ h
  | restrict c => exact Option.some.inj hmade ▸ h.restrict c
  | _ => cases hmade

/-- Some work that begins with an empty graph leads to the graph. -/
def Reached (g : Graph F α) : Prop := ∃ work, g ∈ Workbench.run work

end Graph

namespace Workbench

variable [Handle F] [Scalar α]

theorem sound_perform {graphs : Workbench F α} (h : ∀ g ∈ graphs, g.Sound) (work : Nat × GraphOperation F α) :
    ∀ g ∈ graphs.perform work, g.Sound := by
  unfold perform
  split
  · next g hg =>
    have hold := h g (List.mem_of_getElem? hg)
    intro g' hg'
    rcases List.mem_append.mp hg' with hset | hmade
    · rcases List.mem_or_eq_of_mem_set hset with hin | rfl
      · exact h g' hin
      · exact hold.change work.2
    · exact hold.made (Option.mem_toList.mp hmade)
  · exact h

/-- Whatever was done, every graph at hand is sound. -/
theorem sound_run (work : List (Nat × GraphOperation F α)) : ∀ g ∈ run work, g.Sound := by
  suffices hall : ∀ graphs : Workbench F α, (∀ g ∈ graphs, g.Sound) → ∀ g ∈ work.foldl perform graphs, g.Sound from
    hall _ fun g hg => List.mem_singleton.mp hg ▸ Graph.sound_empty
  induction work with
  | nil => exact fun _ h => h
  | cons one rest ih => exact fun _ h => ih _ (sound_perform h one)

end Workbench

theorem Graph.Reached.sound [Handle F] [Scalar α] {g : Graph F α} (h : g.Reached) : g.Sound := by
  obtain ⟨work, hg⟩ := h
  exact Workbench.sound_run work g hg

end CallChart
