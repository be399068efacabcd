import CallChart.Proofs.CallList
import CallChart.Proofs.Sets
import CallChart.Proofs.Workbench
import Mathlib.Data.List.Perm.Lattice

/-! The components of a graph divide its nodes as undirected paths of edges do, whatever was done to the
graph before and whether or not its components were remembered. -/
namespace CallChart

variable {F α : Type}

namespace Graph

variable {g : Graph F α} {seen seen' : NodeId → Prop} {names : List NodeId} {parts : List (List NodeId)}

/-- The nodes `names` are gone through in order: a node that was seen is passed over, and with any other one
everything that is linked to it makes up a part and counts as seen. -/
inductive Parted (g : Graph F α) : (NodeId → Prop) → List NodeId → List (List NodeId) → Prop where
  | nil {seen : NodeId → Prop} : Parted g seen [] []
  | skip {seen : NodeId → Prop} {id : NodeId} {rest : List NodeId} {parts : List (List NodeId)} :
      seen id → Parted g seen rest parts → Parted g seen (id :: rest) parts
  | part {seen seen' : NodeId → Prop} {id : NodeId} {rest nodes : List NodeId} {parts : List (List NodeId)} :
      ¬ seen id → nodes.Nodup → (∀ x, x ∈ nodes ↔ g.Linked id x) → (∀ x, seen' x ↔ seen x ∨ g.Linked id x) →
      Parted g seen' rest parts → Parted g seen (id :: rest) (nodes :: parts)

/-- What was seen so far is complete: whatever is linked to it was seen. -/
def Complete (g : Graph F α) (seen : NodeId → Prop) : Prop := ∀ x y, seen x → g.Linked x y → seen y

theorem Complete.later {id : NodeId} (h : g.Complete seen) (hseen : ∀ x, seen' x ↔ seen x ∨ g.Linked id x) :
    g.Complete seen' := by
  intro x y hx hxy
  rw [hseen] at hx ⊢
  exact hx.imp (fun hs => h x y hs hxy) fun hid => hid.trans hxy

/-- A walk from a new node visits what is linked to it and has seen nothing else that is new. -/
theorem walk_class (hids : g.ids.Nodup) (hends : ∀ a b, g.Joined a b → b ∈ g.ids) {id : NodeId} (hin : id ∈ g.ids)
    {known : Std.TreeSet NodeId} (hknown : g.Complete (· ∈ known)) (hnew : id ∉ known) :
    let walked := g.walk g.nodes.size [id] (known.insert id)
    walked.1.Nodup ∧ (∀ x, x ∈ walked.1 ↔ g.Linked id x) ∧ ∀ x, x ∈ walked.2 ↔ x ∈ known ∨ g.Linked id x := by
  intro walked
  have hwalk : g.Explored [id] (known.insert id) walked.1 walked.2 := explored_component hids hends hin
  have hvisited (x : NodeId) : x ∈ walked.1 ↔ g.Linked id x :=
    hwalk.mem_iff hnew fun x y hx hxy => hknown x y hx (.single hxy)
  refine ⟨hwalk.nodup, hvisited, fun x => ?_⟩
  rw [hwalk.seen, Std.TreeSet.mem_insert, Std.LawfulEqCmp.compare_eq_iff_eq, hvisited, or_comm (a := id = x), or_assoc]
  refine or_congr_right (or_iff_right_of_imp ?_)
  rintro rfl
  exact .refl

theorem parted_connectedFrom (hids : g.ids.Nodup) (hends : ∀ a b, g.Joined a b → b ∈ g.ids)
    (hnames : ∀ x ∈ names, x ∈ g.ids) {known : Std.TreeSet NodeId} (hknown : g.Complete (· ∈ known)) :
    g.Parted (· ∈ known) names (g.connectedFrom known names) := by
  induction names generalizing known with
  | nil => exact .nil
  | cons id rest ih =>
    obtain ⟨hid, hrest⟩ := List.forall_mem_cons.mp hnames
    rw [connectedFrom]
    split
    · next hs => exact .skip (Std.TreeSet.contains_iff_mem.mp hs) (ih hrest hknown)
    · next hs =>
      have hnew : id ∉ known := fun hin => hs (Std.TreeSet.contains_iff_mem.mpr hin)
      obtain ⟨hnodup, hvisited, hafter⟩ := walk_class hids hends hid hknown hnew
      exact .part hnew hnodup hvisited hafter (ih hrest (hknown.later hafter))

/-- Each set of connected nodes is what a walk visits that began when nothing in it had been seen. -/
theorem exists_walk_of_mem (hids : g.ids.Nodup) (hends : ∀ a b, g.Joined a b → b ∈ g.ids)
    (hnames : ∀ x ∈ names, x ∈ g.ids) {known : Std.TreeSet NodeId} (hknown : g.Complete (· ∈ known))
    {part : List NodeId} (hpart : part ∈ g.connectedFrom known names) :
    ∃ id ∈ g.ids, ∃ before : Std.TreeSet NodeId, g.Complete (· ∈ before) ∧ id ∉ before ∧
      part = (g.walk g.nodes.size [id] (before.insert id)).1 := by
  induction names generalizing known with
  | nil => cases hpart
  | cons id rest ih =>
    obtain ⟨hid, hrest⟩ := List.forall_mem_cons.mp hnames
    rw [connectedFrom] at hpart
    split at hpart
    · exact ih hrest hknown hpart
    · next hs =>
      have hnew : id ∉ known := fun hin => hs (Std.TreeSet.contains_iff_mem.mpr hin)
      rcases List.mem_cons.mp hpart with rfl | hlater
      · exact ⟨id, hid, known, hknown, hnew, rfl⟩
      · exact ih hrest (hknown.later (walk_class hids hends hid hknown hnew).2.2) hlater

namespace Parted

/-- A part is made up of what is linked to a node that had not been seen. -/
theorem mem_part (h : g.Parted seen names parts) {part : List NodeId} (hpart : part ∈ parts) :
    part.Nodup ∧ ∃ id ∈ names, ∀ x, x ∈ part ↔ g.Linked id x := by
  induction h with
  | nil => cases hpart
  | skip _ _ ih =>
    obtain ⟨hnodup, id, hid, hlinked⟩ := ih hpart
    exact ⟨hnodup, id, List.mem_cons_of_mem _ hid, hlinked⟩
  | part _ hnodup hlinked _ _ ih =>
    rcases List.mem_cons.mp hpart with rfl | hrest
    · exact ⟨hnodup, _, List.mem_cons_self, hlinked⟩
    · obtain ⟨hnodup, id, hid, hlinked⟩ := ih hrest
      exact ⟨hnodup, id, List.mem_cons_of_mem _ hid, hlinked⟩

theorem not_seen (h : g.Parted seen names parts) (hseen : g.Complete seen) {part : List NodeId}
    (hpart : part ∈ parts) {x : NodeId} (hx : x ∈ part) : ¬ seen x := by
  induction h with
  | nil => cases hpart
  | skip _ _ ih => exact ih hseen hpart
  | part hnew _ hlinked hlater _ ih =>
    rcases List.mem_cons.mp hpart with rfl | hrest
    · exact fun hs => hnew (hseen _ _ hs ((hlinked x).mp hx).symm)
    · exact fun hs => ih (hseen.later hlater) hrest ((hlater x).mpr (.inl hs))

/-- Every node gone through was seen before or is in a part. -/
theorem cover (h : g.Parted seen names parts) {x : NodeId} (hx : x ∈ names) :
    seen x ∨ ∃ part ∈ parts, x ∈ part := by
  induction h with
  | nil => cases hx
  | skip hs _ ih =>
    rcases List.mem_cons.mp hx with rfl | hrest
    · exact .inl hs
    · exact ih hrest
  | part _ _ hlinked hlater _ ih =>
    rcases List.mem_cons.mp hx with rfl | hrest
    · exact .inr ⟨_, List.mem_cons_self, (hlinked _).mpr .refl⟩
    · rcases ih hrest with hs | ⟨part, hpart, hin⟩
      · refine ((hlater x).mp hs).imp_right fun hl => ?_
        exact ⟨_, List.mem_cons_self, (hlinked x).mpr hl⟩
      · exact .inr ⟨part, List.mem_cons_of_mem _ hpart, hin⟩

theorem disjoint (h : g.Parted seen names parts) (hseen : g.Complete seen) : parts.Pairwise List.Disjoint := by
  induction h with
  | nil => exact .nil
  | skip _ _ ih => exact ih hseen
  | part _ _ hlinked hlater hrest ih =>
    refine .cons (fun part hpart x hx hin => ?_) (ih (hseen.later hlater))
    exact hrest.not_seen (hseen.later hlater) hpart hin ((hlater x).mpr (.inr ((hlinked x).mp hx)))

/-- Each part has a node that comes before all nodes of later parts. -/
theorem ordered (h : g.Parted seen names parts) (hseen : g.Complete seen)
    (hnames : ∀ part ∈ parts, ∀ x ∈ part, x ∈ names) :
    parts.Pairwise fun part later => ∃ a ∈ part, ∀ b ∈ later, [a, b].Sublist names := by
  induction h with
  | nil => exact .nil
  | @skip seen id rest parts hs hrest ih =>
    have htail : ∀ part ∈ parts, ∀ x ∈ part, x ∈ rest := by
      intro part hpart x hx
      refine (List.mem_cons.mp (hnames part hpart x hx)).resolve_left ?_
      rintro rfl
      exact hrest.not_seen hseen hpart hx hs
    refine (ih hseen htail).imp ?_
    rintro part later ⟨a, ha, hbefore⟩
    exact ⟨a, ha, fun b hb => (hbefore b hb).cons _⟩
  | @part seen seen' id rest nodes parts hnew _ hlinked hlater hrest ih =>
    have hcomplete := hseen.later hlater
    have htail : ∀ part ∈ parts, ∀ x ∈ part, x ∈ rest := by
      intro part hpart x hx
      refine (List.mem_cons.mp (hnames part (List.mem_cons_of_mem _ hpart) x hx)).resolve_left ?_
      rintro rfl
      exact hrest.not_seen hcomplete hpart hx ((hlater x).mpr (.inr .refl))
    refine .cons (fun later hlater => ⟨id, (hlinked id).mpr .refl, fun b hb => ?_⟩) ((ih hcomplete htail).imp ?_)
    · exact (List.singleton_sublist.mpr (htail later hlater b hb)).cons_cons id
    · rintro part later ⟨a, ha, hbefore⟩
      exact ⟨a, ha, fun b hb => (hbefore b hb).cons _⟩

end Parted

/-! ### Components -/

/-- The components of a graph: its nodes in largest sets that undirected paths of edges connect, each with
its edges. -/
structure Divided (g : Graph F α) (cs : List Component) : Prop where
  /-- Every node is in one component, and is listed there once. -/
  nodes : (cs.flatMap Component.nodes).Perm g.ids
  nodup : (cs.flatMap Component.nodes).Nodup
  nonempty {c : Component} : c ∈ cs → c.nodes ≠ []
  /-- Two nodes share a component exactly if a path joins them. -/
  shared {a b : NodeId} : a ∈ g.ids → b ∈ g.ids → ((∃ c ∈ cs, a ∈ c.nodes ∧ b ∈ c.nodes) ↔ g.Linked a b)
  /-- The earliest node of a component was added before all nodes of later components. -/
  ordered : cs.Pairwise fun c later => ∃ a ∈ c.nodes, ∀ b ∈ later.nodes, [a, b].Sublist g.ids
  /-- The edges of a component, as they were added, are those with both ends in it. -/
  edges {c : Component} : c ∈ cs →
    c.edges = (g.edges.toList.filter fun e => e.source ∈ c.nodes ∧ e.target ∈ c.nodes).map Edge.id
  /-- Every edge is in one component, and is listed there once. -/
  allEdges : (cs.flatMap Component.edges).Perm (g.edges.toList.map Edge.id)
  nodupEdges : (cs.flatMap Component.edges).Nodup

variable [Handle F]

theorem Sound.joined_mem_ids (h : g.Sound) (a b : NodeId) (hab : g.Joined a b) : b ∈ g.ids := by
  obtain ⟨e, he, ⟨-, rfl⟩ | ⟨rfl, -⟩⟩ := hab
  · exact (h.ends he).2
  · exact (h.ends he).1

theorem Sound.linked_mem_ids (h : g.Sound) {a b : NodeId} (ha : a ∈ g.ids) (hab : g.Linked a b) : b ∈ g.ids := by
  induction hab with
  | refl => exact ha
  | tail _ hbc _ => exact h.joined_mem_ids _ _ hbc

theorem Sound.map_nodes_components (h : g.Sound) : g.components.map Component.nodes = g.connectedFrom ∅ g.ids := by
  rw [h.components, findComponents, List.map_map]
  exact List.map_id _

/-- The sets of nodes of the components are found by going through the nodes as they were added. -/
theorem Sound.parted (h : g.Sound) : g.Parted (fun _ => False) g.ids (g.components.map Component.nodes) := by
  have hparted : g.Parted (· ∈ (∅ : Std.TreeSet NodeId)) g.ids (g.connectedFrom ∅ g.ids) :=
    parted_connectedFrom h.nodes.nodup h.joined_mem_ids (fun _ hx => hx) fun x y hx => by simp at hx
  simpa [h.map_nodes_components] using hparted

theorem Sound.component_class (h : g.Sound) {c : Component} (hc : c ∈ g.components) :
    c.nodes.Nodup ∧ ∃ id ∈ g.ids, ∀ x, x ∈ c.nodes ↔ g.Linked id x :=
  h.parted.mem_part (List.mem_map_of_mem hc)

/-- A component with a node has all that is linked to the node. -/
theorem Sound.mem_component_iff (h : g.Sound) {c : Component} (hc : c ∈ g.components) {a b : NodeId}
    (ha : a ∈ c.nodes) : b ∈ c.nodes ↔ g.Linked a b := by
  obtain ⟨-, id, -, hmem⟩ := h.component_class hc
  rw [hmem]
  exact ⟨((hmem a).mp ha).symm.trans, ((hmem a).mp ha).trans⟩

theorem Sound.mem_ids_of_component (h : g.Sound) {c : Component} (hc : c ∈ g.components) {x : NodeId}
    (hx : x ∈ c.nodes) : x ∈ g.ids := by
  obtain ⟨-, id, hid, hmem⟩ := h.component_class hc
  exact h.linked_mem_ids hid ((hmem x).mp hx)

theorem Sound.exists_component (h : g.Sound) {x : NodeId} (hx : x ∈ g.ids) :
    ∃ c ∈ g.components, x ∈ c.nodes := by
  simpa using h.parted.cover hx

theorem Sound.component_ne_nil (h : g.Sound) {c : Component} (hc : c ∈ g.components) : c.nodes ≠ [] := by
  intro hnil
  obtain ⟨-, id, -, hmem⟩ := h.component_class hc
  have hid := (hmem id).mpr .refl
  rw [hnil] at hid
  exact List.not_mem_nil hid

theorem Sound.components_disjoint (h : g.Sound) :
    g.components.Pairwise fun c d => c.nodes.Disjoint d.nodes :=
  List.pairwise_map.mp (h.parted.disjoint fun _ _ hs _ => hs)

/-- An edge has both of its ends in a component if it has one there. -/
theorem Sound.source_mem_iff (h : g.Sound) {c : Component} (hc : c ∈ g.components) {e : Edge} (he : e ∈ g.edges) :
    e.source ∈ c.nodes ↔ e.target ∈ c.nodes := by
  have hjoined : g.Joined e.source e.target := ⟨e, he, .inl ⟨rfl, rfl⟩⟩
  exact ⟨fun hs => (h.mem_component_iff hc hs).mpr (.single hjoined),
    fun ht => (h.mem_component_iff hc ht).mpr (.single hjoined.symm)⟩

theorem Sound.component_edges (h : g.Sound) {c : Component} (hc : c ∈ g.components) :
    c.edges = (g.edges.toList.filter fun e => e.source ∈ c.nodes ∧ e.target ∈ c.nodes).map Edge.id := by
  have hfound : c.edges =
      (g.edges.toList.filter fun e => (Std.TreeSet.ofList c.nodes).contains e.source).map Edge.id := by
    rw [h.components, findComponents, List.mem_map] at hc
    obtain ⟨nodes, -, rfl⟩ := hc
    rfl
  rw [hfound]
  refine congrArg _ (List.filter_congr fun e he => ?_)
  have hboth := h.source_mem_iff hc (Array.mem_toList_iff.mp he)
  rw [Bool.eq_iff_iff, Std.TreeSet.contains_iff_mem, mem_ofList_iff, decide_eq_true_eq, ← hboth, and_self]
  simp [Listed]

theorem Sound.mem_component_edges (h : g.Sound) {c : Component} (hc : c ∈ g.components) {id : EdgeId} :
    id ∈ c.edges ↔ ∃ e ∈ g.edges, e.source ∈ c.nodes ∧ e.id = id := by
  rw [h.component_edges hc, List.mem_map]
  refine exists_congr fun e => ?_
  rw [List.mem_filter, decide_eq_true_eq, Array.mem_toList_iff, and_assoc]
  refine and_congr_right fun he => and_congr_left fun _ => ?_
  rw [← h.source_mem_iff hc he, and_self]

/-- The components of a sound graph divide it. -/
theorem Sound.divided (h : g.Sound) : g.Divided g.components := by
  have hnodup : (g.components.flatMap Component.nodes).Nodup :=
    List.nodup_flatMap.mpr ⟨fun c hc => (h.component_class hc).1, h.components_disjoint⟩
  have hnodupEdges : (g.components.flatMap Component.edges).Nodup := by
    refine List.nodup_flatMap.mpr ⟨fun c hc => ?_, ?_⟩
    · rw [h.component_edges hc]
      exact h.edges.nodup.sublist (List.filter_sublist.map _)
    · refine h.components_disjoint.imp_of_mem fun {c d} hc hd hdisjoint id hcid hdid => ?_
      obtain ⟨e, he, hce, rfl⟩ := (h.mem_component_edges hc).mp hcid
      obtain ⟨e', he', hde, hid⟩ := (h.mem_component_edges hd).mp hdid
      have hsource : e'.source = e.source := by
        rw [h.between he, h.between he'] at hid
        exact congrArg EdgeId.source hid
      exact hdisjoint hce (hsource ▸ hde)
  refine ⟨?_, hnodup, h.component_ne_nil, ?_, ?_, h.component_edges, ?_, hnodupEdges⟩
  · refine (List.perm_ext_iff_of_nodup hnodup h.nodes.nodup).mpr fun x => ?_
    rw [List.mem_flatMap]
    exact ⟨fun ⟨c, hc, hx⟩ => h.mem_ids_of_component hc hx, h.exists_component⟩
  · intro a b ha _
    constructor
    · rintro ⟨c, hc, hac, hbc⟩
      exact (h.mem_component_iff hc hac).mp hbc
    · intro hab
      obtain ⟨c, hc, hac⟩ := h.exists_component ha
      exact ⟨c, hc, hac, (h.mem_component_iff hc hac).mpr hab⟩
  · refine List.pairwise_map.mp (h.parted.ordered (fun _ _ hs _ => hs) fun part hpart x hx => ?_)
    obtain ⟨c, hc, rfl⟩ := List.mem_map.mp hpart
    exact h.mem_ids_of_component hc hx
  · refine (List.perm_ext_iff_of_nodup hnodupEdges h.edges.nodup).mpr fun id => ?_
    rw [List.mem_flatMap, List.mem_map]
    constructor
    · rintro ⟨c, hc, hid⟩
      obtain ⟨e, he, -, rfl⟩ := (h.mem_component_edges hc).mp hid
      exact ⟨e, Array.mem_toList_iff.mpr he, rfl⟩
    · rintro ⟨e, he, rfl⟩
      have hmem := Array.mem_toList_iff.mp he
      obtain ⟨c, hc, hin⟩ := h.exists_component (h.ends hmem).1
      exact ⟨c, hc, (h.mem_component_edges hc).mpr ⟨e, hmem, hin, rfl⟩⟩

end Graph

namespace Workbench

variable [Handle F] [Scalar α]

/-- Whatever is done with graphs and their copies in whatever order, the components of each graph divide
that graph as it is now. -/
theorem components_up_to_date (work : List (Nat × GraphOperation F α)) :
    ∀ g ∈ run work, g.Divided g.components :=
  fun g hg => (sound_run work g hg).divided

/-- Two nodes whose components are asked for, a copy, and then a call between the two in the first graph. -/
def joinedLater : List (Nat × GraphOperation SourceFunction Rat) :=
  let caller := SourceFunction.named "main"
  let callee := SourceFunction.named "run"
  [(0, .addNode caller), (0, .addNode callee), (0, .components), (0, .clone), (0, .addEdge caller callee)]

theorem joinedLater_components :
    ∃ g ∈ run joinedLater, ∃ copy ∈ run joinedLater, g.Divided g.components ∧ copy.Divided copy.components ∧
      g.components.map (fun c => (c.nodes.length, c.edges.length)) = [(2, 1)] ∧
      copy.components.map (fun c => (c.nodes.length, c.edges.length)) = [(1, 0), (1, 0)] := by
  have hfirst : (run joinedLater).get ⟨0, by decide +kernel⟩ ∈ run joinedLater := List.get_mem _ _
  have hsecond : (run joinedLater).get ⟨1, by decide +kernel⟩ ∈ run joinedLater := List.get_mem _ _
  refine ⟨_, hfirst, _, hsecond, components_up_to_date _ _ hfirst, components_up_to_date _ _ hsecond, ?_, ?_⟩
  · decide +kernel
  · decide +kernel

end Workbench
end CallChart
