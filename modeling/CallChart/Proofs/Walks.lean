import CallChart.Graph.Component
import Mathlib.Data.List.Nodup
import Mathlib.Data.List.Perm.Subperm
import Mathlib.Logic.Relation

/-! Nodes that a path of edges joins, and the breadth-first walk that finds them. -/
namespace CallChart

namespace Graph

variable {F α : Type} {g : Graph F α} {seen : Std.TreeSet NodeId} {id : NodeId}

/-- The ids of the nodes in the order in which they were added. -/
def ids (g : Graph F α) : List NodeId := g.nodes.toList.map Node.id

/-- An edge has the two nodes as its ends, whichever way it points. -/
def Joined (g : Graph F α) (a b : NodeId) : Prop :=
  ∃ e ∈ g.edges, e.source = a ∧ e.target = b ∨ e.source = b ∧ e.target = a

/-- An undirected path of edges leads from one node to the other. -/
def Linked (g : Graph F α) : NodeId → NodeId → Prop := Relation.ReflTransGen g.Joined

theorem Joined.symm {a b : NodeId} (h : g.Joined a b) : g.Joined b a := by
  obtain ⟨e, he, hends⟩ := h
  exact ⟨e, he, hends.symm⟩

theorem Linked.symm {a b : NodeId} (h : g.Linked a b) : g.Linked b a :=
  have : Std.Symm g.Joined := ⟨fun _ _ => Joined.symm⟩
  Relation.ReflTransGen.stdSymm.symm _ _ h

/-- Two nodes are joined or linked alike in graphs with the same edges. -/
theorem joined_congr {F' α' : Type} {g' : Graph F' α'} (h : ∀ e, e ∈ g.edges ↔ e ∈ g'.edges) :
    g.Joined = g'.Joined := by
  funext a b
  exact propext (exists_congr fun e => and_congr_left fun _ => h e)

theorem linked_congr {F' α' : Type} {g' : Graph F' α'} (h : ∀ e, e ∈ g.edges ↔ e ∈ g'.edges) :
    g.Linked = g'.Linked :=
  congrArg Relation.ReflTransGen (joined_congr h)

theorem mem_outgoing {e : Edge} : e ∈ g.outgoing id ↔ e ∈ g.edges ∧ e.source = id := by
  simp [outgoing]

theorem mem_incoming {e : Edge} : e ∈ g.incoming id ↔ e ∈ g.edges ∧ e.target = id := by
  simp [incoming]

theorem mem_neighbours {a b : NodeId} : b ∈ g.neighbours a ↔ g.Joined a b := by
  simp only [neighbours, List.mem_append, List.mem_map, mem_outgoing, mem_incoming, Joined, and_or_left,
    exists_or, and_assoc, and_comm (a := (_ : Edge).target = a)]

/-! ### What is new in a list of nodes -/

theorem mem_unseen {ids : List NodeId} {x : NodeId} : x ∈ (unseen seen ids).1 ↔ x ∈ ids ∧ x ∉ seen := by
  induction ids generalizing seen with
  | nil => simp [unseen]
  | cons y rest ih =>
    rw [unseen]
    split
    · next hy =>
      rw [ih, List.mem_cons]
      refine ⟨fun h => ⟨.inr h.1, h.2⟩, fun h => ⟨h.1.resolve_left ?_, h.2⟩⟩
      rintro rfl
      exact h.2 hy
    · next hy =>
      simp only [List.mem_cons, ih, Std.TreeSet.mem_insert, Std.LawfulEqCmp.compare_eq_iff_eq]
      rw [Std.TreeSet.contains_iff_mem] at hy
      by_cases heq : y = x
      · subst heq
        simp [hy]
      · simp [heq, Ne.symm heq]

theorem nodup_unseen (seen : Std.TreeSet NodeId) (ids : List NodeId) : (unseen seen ids).1.Nodup := by
  induction ids generalizing seen with
  | nil => exact List.nodup_nil
  | cons y rest ih =>
    rw [unseen]
    split
    · exact ih seen
    · refine List.nodup_cons.mpr ⟨fun hy => ?_, ih _⟩
      exact (mem_unseen.mp hy).2 Std.TreeSet.mem_insert_self

theorem mem_seen_unseen {ids : List NodeId} {x : NodeId} :
    x ∈ (unseen seen ids).2 ↔ x ∈ seen ∨ x ∈ ids := by
  induction ids generalizing seen with
  | nil => simp [unseen]
  | cons y rest ih =>
    rw [unseen]
    split
    · next hy =>
      rw [ih, List.mem_cons]
      refine or_congr_right' fun hx => (or_iff_right ?_).symm
      rintro rfl
      exact hx hy
    · simp only [ih, List.mem_cons, Std.TreeSet.mem_insert, Std.LawfulEqCmp.compare_eq_iff_eq, eq_comm (a := x),
        or_assoc, or_left_comm]

/-! ### A walk -/

/-- How many nodes of a graph have not been seen. -/
def hidden (g : Graph F α) (seen : Std.TreeSet NodeId) : Nat := (g.ids.filter (· ∉ seen)).length

theorem hidden_unseen (hids : g.ids.Nodup) {ids : List NodeId} (hsub : ∀ x ∈ ids, x ∈ g.ids) :
    (unseen seen ids).1.length + g.hidden (unseen seen ids).2 ≤ g.hidden seen := by
  rw [hidden, hidden, ← List.length_append]
  refine (List.Nodup.subperm ?_ fun x hx => ?_).length_le
  · refine (nodup_unseen seen ids).append (hids.filter _) fun x hfound hleft => ?_
    have hnot := (List.mem_filter.mp hleft).2
    simp only [mem_seen_unseen, decide_eq_true_eq, not_or] at hnot
    exact hnot.2 (mem_unseen.mp hfound).1
  · simp only [List.mem_append, List.mem_filter, mem_unseen, mem_seen_unseen, decide_eq_true_eq, not_or] at hx ⊢
    rcases hx with ⟨hin, hnew⟩ | ⟨hin, hnew, -⟩
    · exact ⟨hsub x hin, hnew⟩
    · exact ⟨hin, hnew⟩

/-- What a walk from a queue comes to: it visits the queue and what is newly seen, and leaves out no
neighbour of a node that it visits. -/
structure Explored (g : Graph F α) (queue : List NodeId) (before : Std.TreeSet NodeId) (visited : List NodeId)
    (after : Std.TreeSet NodeId) : Prop where
  nodup : visited.Nodup
  seen {x : NodeId} : x ∈ after ↔ x ∈ before ∨ x ∈ visited
  starts {x : NodeId} : x ∈ queue → x ∈ visited
  new {x : NodeId} : x ∈ visited → x ∈ queue ∨ x ∉ before
  closed {x y : NodeId} : x ∈ visited → g.Joined x y → y ∈ after
  linked {x : NodeId} : x ∈ visited → ∃ q ∈ queue, g.Linked q x

theorem explored_nil (g : Graph F α) (seen : Std.TreeSet NodeId) : g.Explored [] seen [] seen :=
  ⟨List.nodup_nil, by simp, by simp, by simp, by simp, by simp⟩

/-- The first node of the queue is visited, and its new neighbours wait behind the others. -/
theorem Explored.cons {queue visited : List NodeId} {after : Std.TreeSet NodeId}
    (h : g.Explored (queue ++ (unseen seen (g.neighbours id)).1) (unseen seen (g.neighbours id)).2 visited after)
    (hid : id ∉ queue) (hseen : id ∈ seen) : g.Explored (id :: queue) seen (id :: visited) after := by
  have hmem (x : NodeId) : x ∈ (unseen seen (g.neighbours id)).2 ↔ x ∈ seen ∨ g.Joined id x := by
    rw [mem_seen_unseen, mem_neighbours]
  have hfound (x : NodeId) : x ∈ (unseen seen (g.neighbours id)).1 ↔ g.Joined id x ∧ x ∉ seen := by
    rw [mem_unseen, mem_neighbours]
  have hnew {x : NodeId} (hx : x ∈ visited) : x ∈ queue ∨ x ∉ seen := by
    refine (h.new hx).elim (fun hq => ?_) fun hnot => .inr fun hs => hnot ((hmem x).mpr (.inl hs))
    exact (List.mem_append.mp hq).imp_right fun hf => ((hfound x).mp hf).2
  refine ⟨?_, ?_, ?_, ?_, ?_, ?_⟩
  · refine List.nodup_cons.mpr ⟨fun hin => ?_, h.nodup⟩
    exact (hnew hin).elim hid fun hnot => hnot hseen
  · intro x
    rw [h.seen, hmem, List.mem_cons]
    constructor
    · rintro ((hs | hj) | hv)
      · exact .inl hs
      · by_cases hs : x ∈ seen
        · exact .inl hs
        · exact .inr (.inr (h.starts (List.mem_append_right _ ((hfound x).mpr ⟨hj, hs⟩))))
      · exact .inr (.inr hv)
    · rintro (hs | rfl | hv)
      · exact .inl (.inl hs)
      · exact .inl (.inl hseen)
      · exact .inr hv
  · intro x hx
    exact List.mem_cons.mpr ((List.mem_cons.mp hx).imp_right fun hq => h.starts (List.mem_append_left _ hq))
  · intro x hx
    rcases List.mem_cons.mp hx with rfl | hv
    · exact .inl List.mem_cons_self
    · exact (hnew hv).imp_left (List.mem_cons_of_mem _)
  · intro x y hx hxy
    rcases List.mem_cons.mp hx with rfl | hv
    · exact h.seen.mpr (.inl ((hmem y).mpr (.inr hxy)))
    · exact h.closed hv hxy
  · intro x hx
    rcases List.mem_cons.mp hx with rfl | hv
    · exact ⟨x, List.mem_cons_self, .refl⟩
    · obtain ⟨q, hq, hlinked⟩ := h.linked hv
      rcases List.mem_append.mp hq with hq | hf
      · exact ⟨q, List.mem_cons_of_mem _ hq, hlinked⟩
      · exact ⟨id, List.mem_cons_self, .head ((hfound q).mp hf).1 hlinked⟩

/-- A walk with as many steps as there are nodes that wait or have not been seen ends when none waits. -/
theorem explored_walk (hids : g.ids.Nodup) (hends : ∀ a b, g.Joined a b → b ∈ g.ids) {steps : Nat}
    {queue : List NodeId} (hqueue : queue.Nodup) (hseen : ∀ x ∈ queue, x ∈ seen)
    (hsteps : queue.length + g.hidden seen ≤ steps) :
    g.Explored queue seen (g.walk steps queue seen).1 (g.walk steps queue seen).2 := by
  induction steps generalizing queue seen with
  | zero =>
    obtain rfl : queue = [] := List.eq_nil_of_length_eq_zero (by omega)
    exact explored_nil g seen
  | succ steps ih =>
    cases queue with
    | nil => exact explored_nil g seen
    | cons id queue =>
      obtain ⟨hid, hrest⟩ := List.nodup_cons.mp hqueue
      obtain ⟨hidseen, hqueued⟩ := List.forall_mem_cons.mp hseen
      have hfewer : (unseen seen (g.neighbours id)).1.length + g.hidden (unseen seen (g.neighbours id)).2 ≤
          g.hidden seen := hidden_unseen hids fun x hx => hends id x (mem_neighbours.mp hx)
      refine Explored.cons (ih ?_ ?_ ?_) hid hidseen
      · exact hrest.append (nodup_unseen _ _) fun x hx hnew => (mem_unseen.mp hnew).2 (hqueued x hx)
      · intro x hx
        exact mem_seen_unseen.mpr ((List.mem_append.mp hx).imp (hqueued x) fun hnew => (mem_unseen.mp hnew).1)
      · simp only [List.length_cons, List.length_append] at hsteps ⊢
        omega

/-- As many steps as there are nodes are enough for a walk from one node. -/
theorem explored_component (hids : g.ids.Nodup) (hends : ∀ a b, g.Joined a b → b ∈ g.ids) (hin : id ∈ g.ids) :
    g.Explored [id] (seen.insert id) (g.walk g.nodes.size [id] (seen.insert id)).1
      (g.walk g.nodes.size [id] (seen.insert id)).2 := by
  refine explored_walk hids hends (List.nodup_singleton id) (fun x hx => ?_) ?_
  · exact List.mem_singleton.mp hx ▸ Std.TreeSet.mem_insert_self
  · have hone : (g.ids.filter (· ∉ seen.insert id)).length < g.ids.length :=
      List.length_filter_lt_length_iff_exists.mpr ⟨id, hin, by simp⟩
    have hsize : g.ids.length = g.nodes.size := by simp [ids]
    rw [List.length_singleton, hidden]
    omega

/-- If everything joined to a node seen is seen too, the walk from a new node visits what is linked to it. -/
theorem Explored.mem_iff {visited : List NodeId} {after : Std.TreeSet NodeId}
    (h : g.Explored [id] (seen.insert id) visited after) (hnew : id ∉ seen)
    (hclosed : ∀ x y, x ∈ seen → g.Joined x y → y ∈ seen) {x : NodeId} : x ∈ visited ↔ g.Linked id x := by
  constructor
  · intro hx
    obtain ⟨q, hq, hlinked⟩ := h.linked hx
    exact List.mem_singleton.mp hq ▸ hlinked
  · intro hlinked
    induction hlinked with
    | refl => exact h.starts List.mem_cons_self
    | @tail x y _ hxy ih =>
      have hx : x ∉ seen := by
        rcases h.new ih with hq | hnot
        · exact List.mem_singleton.mp hq ▸ hnew
        · exact fun hs => hnot (Std.TreeSet.mem_insert.mpr (.inr hs))
      rcases h.seen.mp (h.closed ih hxy) with hy | hy
      · rcases Std.TreeSet.mem_insert.mp hy with heq | hs
        · exact Std.LawfulEqCmp.compare_eq_iff_eq.mp heq ▸ h.starts List.mem_cons_self
        · exact absurd (hclosed y x hs hxy.symm) hx
      · exact hy

end Graph
end CallChart
