import CallChart.Proofs.CacheTrust

/-! The stored calls and the neighbours recorded for their ends, which tell the same calls. A cache that
was pruned therefore serves every set that it covers. -/
namespace CallChart

variable {F : Type} [Handle F]

namespace Cache

variable {c : Cache F} {scope : Std.TreeSet F} {v : Versions}

theorem mem_dependencies_foldl_record {calls : List (Call F)} {k : Call F} :
    k ∈ (calls.foldl (fun c call => c.record call v) c).dependencies ↔
      Listed calls k ∨ k ∈ c.dependencies := by
  induction calls generalizing c with
  | nil => simp
  | cons call rest ih =>
    have hrecord : k ∈ (c.record call v).dependencies ↔ compare call k = .eq ∨ k ∈ c.dependencies :=
      Std.TreeMap.mem_insert
    rw [List.foldl_cons, ih, hrecord, Listed.cons, or_left_comm, or_assoc]

theorem mem_dependencies_foldl_remove {calls : List (Call F)} {k : Call F} :
    k ∈ (calls.foldl remove c).dependencies ↔ ¬ Listed calls k ∧ k ∈ c.dependencies := by
  induction calls generalizing c with
  | nil => simp
  | cons call rest ih =>
    have hremove : k ∈ (c.remove call).dependencies ↔ compare call k ≠ .eq ∧ k ∈ c.dependencies :=
      Std.TreeMap.mem_erase
    rw [List.foldl_cons, ih, hremove, Listed.cons, not_or, ← and_assoc, and_comm (a := ¬ _)]

/-- The calls that an answer tells are stored as they were learned. -/
theorem getElem?_replace_of_adds {coverage : Coverage} {f : F} {answer : List F} {k : Call F}
    (h : Adds coverage f answer k) : ∃ g ∈ answer, compare (coverage.call f g) k = .eq ∧
      (c.replaceNeighbours coverage f answer v).dependencies[k]? = some (.capture (coverage.call f g) v) := by
  have hmem : k ∈ (c.replaceNeighbours coverage f answer v).dependencies := by
    rw [replaceNeighbours, dependencies_markCovered, mem_dependencies_foldl_record]
    exact .inl (coverage.listed_map_call.mpr h)
  have hd := Std.TreeMap.getElem?_eq_some_getElem hmem
  rcases getElem?_replace hd with ⟨g, hg, hk, heq⟩ | ⟨hnot, -⟩
  · exact ⟨g, hg, hk, hd.trans (congrArg some heq)⟩
  · exact absurd h hnot

/-- A function is recorded as a neighbour of another exactly if the call between them is stored. -/
def Synced (c : Cache F) : Prop :=
  ∀ coverage f g, g ∈ c.neighbours coverage f ↔ coverage.call f g ∈ c.dependencies

theorem synced_empty : (empty : Cache F).Synced := by
  intro coverage f g
  have hcall : coverage.call f g ∉ (empty : Cache F).dependencies := Std.TreeMap.not_mem_emptyc
  have hnone (sets : Std.TreeMap F (Std.TreeSet F)) (hsets : sets = ∅) : g ∉ (sets[f]?).getD ∅ := by
    subst hsets
    simp
  refine iff_of_false ?_ hcall
  cases coverage with
  | callers => exact hnone _ rfl
  | callees => exact hnone _ rfl

theorem Synced.counted (h : c.Synced) (hits misses : Nat) :
    { c with hits := hits, misses := misses }.Synced := h

theorem Synced.learned (h : c.Synced) (coverage : Coverage) (f : F) (answer : List F) (v : Versions) :
    (c.replaceNeighbours coverage f answer v).Synced := by
  intro side g g'
  have hstored : side.call g g' ∈ (c.replaceNeighbours coverage f answer v).dependencies ↔
      Adds coverage f answer (side.call g g') ∨
        ¬ c.Drops coverage f answer (side.call g g') ∧ side.call g g' ∈ c.dependencies := by
    rw [replaceNeighbours, dependencies_markCovered, mem_dependencies_foldl_record,
      mem_dependencies_foldl_remove, coverage.listed_map_call, listed_gone_iff, Adds]
  rw [mem_neighbours_replace, hstored, h side g g']

theorem Synced.pruned (h : c.Synced) (scope : Std.TreeSet F) (v : Versions) :
    (c.prune scope v).2.Synced := by
  intro coverage f g
  have hstored : coverage.call f g ∈ (c.prune scope v).2.dependencies ↔
      ¬ Listed (c.staleCalls scope v) (coverage.call f g) ∧ coverage.call f g ∈ c.dependencies :=
    mem_dependencies_foldl_remove
  rw [mem_neighbours_prune, hstored, h coverage f g]

/-- After pruning, every covered set is served. -/
theorem Synced.served_of_token (h : c.Synced) {coverage : Coverage} {f : F} {t : Nat}
    (ht : (c.prune scope v).2.token? coverage f = some t) :
    (c.prune scope v).2.freshNeighbours? coverage f v =
      some ((c.prune scope v).2.neighbours coverage f).toList := by
  obtain ⟨-, -, rfl, -⟩ := token?_prune.mp ht
  refine freshNeighbours?_eq_some.mpr ⟨rfl, ht, fun g hg => ?_⟩
  have hstored := (h.pruned scope v coverage f g).mp (Std.TreeSet.mem_of_mem_toList hg)
  have hd := Std.TreeMap.getElem?_eq_some_getElem hstored
  have hkept := (getElem?_prune.mp hd).2
  simp only [isStale, Bool.or_eq_false_iff, Bool.not_eq_false'] at hkept
  exact ⟨_, hd, hkept.2⟩

/-- After pruning, recorded neighbours are in the scope. -/
theorem Synced.mem_scope (h : c.Synced) {coverage : Coverage} {f g : F}
    (hg : g ∈ (c.prune scope v).2.neighbours coverage f) : g ∈ scope := by
  have hstored := (h.pruned scope v coverage f g).mp hg
  have hkept := (getElem?_prune.mp (Std.TreeMap.getElem?_eq_some_getElem hstored)).2
  simp only [isStale, Bool.or_eq_false_iff, Bool.not_eq_false'] at hkept
  cases coverage with
  | callers => exact hkept.1.1
  | callees => exact hkept.1.2

/-- After pruning, the covered sets are the index's answers exactly if those that are served are. -/
theorem Synced.agrees_iff (h : c.Synced) {index : CallIndex F} :
    (c.prune scope v).2.Agrees index ↔
      ∀ coverage f known, (c.prune scope v).2.freshNeighbours? coverage f v = some known →
        index.IsAnswer coverage f known := by
  constructor
  · exact fun hagrees coverage f known hknown => (hagrees coverage).served hknown
  · intro hserved coverage f t ht g
    rw [← listed_toList_iff]
    exact hserved coverage f _ (h.served_of_token ht) g

end Cache
end CallChart
