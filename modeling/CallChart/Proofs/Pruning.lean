import CallChart.Proofs.CacheLikeness
import CallChart.Proofs.LookupHistory

/-! What pruning takes away. A call goes exactly if one of its ends is out of the scope or one of its files was edited,
and it takes the marks of both of its ends with it. So a set of neighbours is either served as it was before, or not at
all. -/
namespace CallChart

variable {F : Type} [Handle F]

/-- Both ends of a stored call are in the scope, and neither file was edited since its discovery. -/
def Dependency.Survives (scope : Std.TreeSet F) (v : Versions) (k : Call F) (d : Dependency F) : Prop :=
  (k.caller ∈ scope ∧ k.callee ∈ scope) ∧
    v.ofFile (Handle.sourceFile k.caller) = d.callerVersion ∧ v.ofFile (Handle.sourceFile k.callee) = d.calleeVersion

namespace Cache

variable {c : Cache F} {scope : Std.TreeSet F} {v : Versions} {coverage : Coverage} {f g : F} {k : Call F}
  {d : Dependency F}

theorem isStale_eq_false_iff :
    isStale scope v k d = false ↔ (k.caller ∈ scope ∧ k.callee ∈ scope) ∧ d.isFresh v = true := by
  simp only [isStale, Bool.or_eq_false_iff, Bool.not_eq_false', Std.TreeSet.contains_iff_mem]

/-! ### How many calls are taken away -/

theorem size_foldl_remove {calls : List (Call F)} (hdistinct : calls.Pairwise fun j k => compare j k ≠ .eq)
    (hstored : ∀ k ∈ calls, k ∈ c.dependencies) : calls.length + (calls.foldl remove c).size = c.size := by
  induction calls generalizing c with
  | nil => exact Nat.zero_add _
  | cons call rest ih =>
    obtain ⟨hcall, hrest⟩ := List.pairwise_cons.mp hdistinct
    obtain ⟨hfirst, hothers⟩ := List.forall_mem_cons.mp hstored
    have hkept : ∀ k ∈ rest, k ∈ (c.remove call).dependencies := fun k hk =>
      Std.TreeMap.mem_erase.mpr ⟨hcall k hk, hothers k hk⟩
    have hsize : (c.remove call).size = c.size - 1 :=
      Std.TreeMap.size_erase.trans (if_pos (Std.TreeMap.contains_iff_mem.mpr hfirst))
    have hpos : 0 < c.size := by
      have hne := Std.TreeMap.isEmpty_eq_false_of_contains (Std.TreeMap.contains_iff_mem.mpr hfirst)
      rw [Std.TreeMap.isEmpty_eq_size_eq_zero, beq_eq_false_iff_ne] at hne
      exact Nat.pos_of_ne_zero hne
    have hall := ih hrest hkept
    rw [List.length_cons, List.foldl_cons]
    omega

theorem distinct_staleCalls : (c.staleCalls scope v).Pairwise fun j k => compare j k ≠ .eq :=
  List.pairwise_map.mpr (Std.TreeMap.distinct_keys_toList.sublist List.filter_sublist)

/-- As many calls are counted as are gone. -/
theorem prune_add_size (c : Cache F) (scope : Std.TreeSet F) (v : Versions) :
    (c.prune scope v).1 + (c.prune scope v).2.size = c.size := by
  refine size_foldl_remove distinct_staleCalls fun k hk => ?_
  obtain ⟨d, hd, -⟩ := listed_staleCalls_iff.mp (.of_mem hk)
  exact Std.TreeMap.mem_iff_isSome_getElem?.mpr (Option.isSome_of_eq_some hd)

theorem pruned_prune (c : Cache F) (scope : Std.TreeSet F) (v : Versions) :
    (c.prune scope v).2.pruned = c.pruned + (c.prune scope v).1 := by
  have hkept : ((c.staleCalls scope v).foldl remove c).pruned = c.pruned := by
    refine List.foldlRecOn (motive := fun d : Cache F => d.pruned = c.pruned) _ remove rfl fun d hd k _ => ?_
    exact hd
  exact congrArg (· + (c.staleCalls scope v).length) hkept

/-! ### What is left of the neighbours -/

theorem row?_remove_of_ne {call : Call F} (hne : compare (coverage.near call) f ≠ .eq) :
    (c.remove call).row? coverage f = c.row? coverage f := by
  have hdrop (sets : Std.TreeMap F (Std.TreeSet F)) (a b : F) (ha : compare a f ≠ .eq) :
      (dropNeighbour sets a b)[f]? = sets[f]? := by
    unfold dropNeighbour
    split
    · rw [Std.TreeMap.getElem?_insert, if_neg ha]
    · rfl
  cases coverage <;> exact hdrop _ _ _ hne

theorem row?_foldl_remove_of_ne {calls : List (Call F)} (hne : ∀ k ∈ calls, compare (coverage.near k) f ≠ .eq) :
    (calls.foldl remove c).row? coverage f = c.row? coverage f := by
  induction calls generalizing c with
  | nil => rfl
  | cons call rest ih =>
    obtain ⟨hcall, hrest⟩ := List.forall_mem_cons.mp hne
    rw [List.foldl_cons, ih hrest, row?_remove_of_ne hcall]

theorem neighbours_eq_getD_row? (c : Cache F) (coverage : Coverage) (f : F) :
    c.neighbours coverage f = (c.row? coverage f).getD ∅ := by
  cases coverage <;> rfl

/-- Rows in which nothing is left are dropped. -/
theorem row?_prune : (c.prune scope v).2.row? coverage f =
    (((c.staleCalls scope v).foldl remove c).row? coverage f).filter fun known => !known.isEmpty := by
  cases coverage <;> exact getElem?_filter_congr _ (fun _ _ _ _ => rfl) f

private theorem toList_getD_filter (row : Option (Std.TreeSet F)) :
    ((row.filter fun known => !known.isEmpty).getD ∅).toList = (row.getD ∅).toList := by
  cases row with
  | none => rfl
  | some known =>
    cases hempty : known.isEmpty with
    | false => rw [Option.filter_some, hempty]; rfl
    | true =>
      have hnil : known.toList = [] := List.isEmpty_iff.mp (Std.TreeSet.isEmpty_toList.trans hempty)
      rw [Option.filter_some, hempty, Option.getD_some, hnil]
      rfl

/-- A function of which no call is taken away keeps its neighbours as they are listed. -/
theorem toList_neighbours_prune (hkept : ∀ k ∈ c.staleCalls scope v, compare (coverage.near k) f ≠ .eq) :
    ((c.prune scope v).2.neighbours coverage f).toList = (c.neighbours coverage f).toList := by
  rw [neighbours_eq_getD_row?, neighbours_eq_getD_row?, row?_prune, row?_foldl_remove_of_ne hkept, toList_getD_filter]

/-! ### What is served afterwards -/

/-- The recorded neighbours of a function, and with them the function itself, are in the scope. -/
def Encloses (scope : Std.TreeSet F) (c : Cache F) (coverage : Coverage) (f : F) : Prop :=
  f ∈ scope ∧ ∀ g ∈ c.neighbours coverage f, g ∈ scope

/-- No call of a function is stale that is served and whose neighbours are in the scope. -/
theorem Synced.not_listed_stale (h : c.Synced) (hin : Encloses scope c coverage f) (hserves : c.Serves v coverage f)
    (hk : compare (coverage.near k) f = .eq) : ¬ Listed (c.staleCalls scope v) k := by
  intro hlisted
  obtain ⟨d, hd, hstale⟩ := listed_staleCalls_iff.mp hlisted
  -- the call is one between `f` and a recorded neighbour
  have hmem : coverage.far k ∈ c.neighbours coverage f := by
    rw [← c.neighbours_congr coverage hk, h, coverage.call_near_far]
    exact Std.TreeMap.mem_iff_isSome_getElem?.mpr (Option.isSome_of_eq_some hd)
  have hcall : compare (coverage.call f (coverage.far k)) k = .eq := by
    rw [coverage.compare_iff, Coverage.near_call, Coverage.far_call]
    exact ⟨compare_symm hk, compare_refl _⟩
  obtain ⟨d', hd', hfresh⟩ := (serves_iff.mp hserves).2 _ hmem
  rw [Std.TreeMap.getElem?_congr hcall, hd] at hd'
  obtain rfl := Option.some.inj hd'
  have hends : k.caller ∈ scope ∧ k.callee ∈ scope := by
    have hnear : coverage.near k ∈ scope := (Std.TreeSet.mem_congr hk).mpr hin.1
    have hfar : coverage.far k ∈ scope := hin.2 _ hmem
    cases coverage with
    | callers => exact ⟨hfar, hnear⟩
    | callees => exact ⟨hnear, hfar⟩
  rw [isStale_eq_false_iff.mpr ⟨hends, hfresh⟩] at hstale
  cases hstale

/-- A set whose functions are all in the scope is served as before. -/
theorem Synced.freshNeighbours?_prune (h : c.Synced) (hin : Encloses scope c coverage f) :
    (c.prune scope v).2.freshNeighbours? coverage f v = c.freshNeighbours? coverage f v := by
  have hsame (hkept : ∀ k, compare (coverage.near k) f = .eq → ¬ Listed (c.staleCalls scope v) k) :
      ((c.prune scope v).2.neighbours coverage f).toList = (c.neighbours coverage f).toList :=
    toList_neighbours_prune fun k hk hkf => hkept k hkf (.of_mem hk)
  refine Option.ext fun known => ?_
  rw [freshNeighbours?_eq_some, freshNeighbours?_eq_some, token?_prune]
  constructor
  · rintro ⟨rfl, ⟨htoken, -, -, hkept⟩, hfresh⟩
    rw [hsame hkept] at hfresh ⊢
    refine ⟨rfl, htoken, fun g hg => ?_⟩
    obtain ⟨d, hd, hdfresh⟩ := hfresh g hg
    exact ⟨d, (getElem?_prune.mp hd).1, hdfresh⟩
  · rintro ⟨rfl, htoken, hfresh⟩
    have hserves : c.Serves v coverage f := ⟨_, freshNeighbours?_eq_some.mpr ⟨rfl, htoken, hfresh⟩⟩
    have hkept (k : Call F) (hk : compare (coverage.near k) f = .eq) : ¬ Listed (c.staleCalls scope v) k :=
      h.not_listed_stale hin hserves hk
    refine ⟨(hsame hkept).symm, ⟨htoken, hin.1, rfl, hkept⟩, fun g hg => ?_⟩
    obtain ⟨d, hd, hdfresh⟩ := hfresh g hg
    have hnot : ¬ isStale scope v (coverage.call f g) d = true := by
      intro hstale
      refine hkept _ ?_ (listed_staleCalls_iff.mpr ⟨d, hd, hstale⟩)
      rw [Coverage.near_call]
      exact compare_refl f
    exact ⟨d, getElem?_prune.mpr ⟨hd, Bool.eq_false_iff.mpr hnot⟩, hdfresh⟩

/-- A set with a function out of the scope is not served any more. -/
theorem Synced.freshNeighbours?_prune_eq_none (h : c.Synced) (hout : ¬ Encloses scope c coverage f) :
    (c.prune scope v).2.freshNeighbours? coverage f v = none := by
  refine Option.eq_none_iff_forall_ne_some.mpr fun known hknown => hout ?_
  obtain ⟨-, htoken, -⟩ := freshNeighbours?_eq_some.mp hknown
  obtain ⟨-, hf, -, hkept⟩ := token?_prune.mp htoken
  refine ⟨hf, fun g hg => ?_⟩
  have hstays : g ∈ (c.prune scope v).2.neighbours coverage f := by
    refine mem_neighbours_prune.mpr ⟨hkept _ ?_, hg⟩
    rw [Coverage.near_call]
    exact compare_refl f
  exact h.mem_scope hstays

/-! ### Pruning again -/

/-- Nothing that is left is stale. -/
theorem staleCalls_prune (c : Cache F) (scope : Std.TreeSet F) (v : Versions) :
    (c.prune scope v).2.staleCalls scope v = [] := by
  refine List.eq_nil_iff_forall_not_mem.mpr fun k hk => ?_
  obtain ⟨d, hd, hstale⟩ := listed_staleCalls_iff.mp (.of_mem hk)
  rw [(getElem?_prune.mp hd).2] at hstale
  cases hstale

theorem same_prune_prune (c : Cache F) (scope : Std.TreeSet F) (v : Versions) :
    ((c.prune scope v).2.prune scope v).2.Same (c.prune scope v).2 where
  stored k := by
    have hsame : ((c.prune scope v).2.prune scope v).2.dependencies[k]? = (c.prune scope v).2.dependencies[k]? :=
      Option.ext fun d => getElem?_prune.trans (and_iff_left_of_imp fun hd => (getElem?_prune.mp hd).2)
    rw [hsame]
    exact .refl _
  rows coverage f := by
    rw [row?_prune, staleCalls_prune, List.foldl_nil, row?_prune, Option.filter_filter]
    simp only [Bool.and_self]
  neighbours coverage f g := by
    rw [mem_neighbours_prune, staleCalls_prune]
    exact and_iff_right (Listed.nil _)
  tokens coverage f := by
    refine Option.ext fun t => token?_prune.trans (and_iff_left_of_imp fun ht => ?_)
    obtain ⟨-, hf, rfl, -⟩ := token?_prune.mp ht
    refine ⟨hf, rfl, fun k _ => ?_⟩
    rw [staleCalls_prune]
    exact Listed.nil k

end Cache

namespace Usage

/-- However a cache was used before, pruning leaves those calls that survive as they were stored, and counts the others,
which are gone. Pruning again takes nothing away. The neighbours of a function are served as before if the function
and its neighbours are all in the scope, and else not at all. -/
theorem pruned_exactly (v : Versions) (work : List (CacheOperation F)) (scope : Std.TreeSet F) (w : Versions) :
    let c := (run v work).cache
    let removed := (c.prune scope w).1
    let pruned := (c.prune scope w).2
    (∀ (k : Call F) (d : Dependency F), pruned.dependencies[k]? = some d ↔
        c.dependencies[k]? = some d ∧ d.Survives scope w k) ∧
      removed + pruned.size = c.size ∧ pruned.pruned = c.pruned + removed ∧
      ((pruned.prune scope w).1 = 0 ∧ (pruned.prune scope w).2.Same pruned) ∧
      ∀ (coverage : Coverage) (f : F),
        let inScope := f ∈ scope ∧ ∀ g ∈ c.neighbours coverage f, g ∈ scope
        (inScope → (pruned.cachedNeighbours coverage f w).1 = (c.cachedNeighbours coverage f w).1) ∧
          (¬ inScope → (pruned.cachedNeighbours coverage f w).1 = none) := by
  intro c removed pruned
  have hsynced : c.Synced := synced_run v work
  refine ⟨fun k d => ?_, c.prune_add_size scope w, c.pruned_prune scope w, ⟨?_, c.same_prune_prune scope w⟩,
    fun coverage f => ?_⟩
  · rw [Cache.getElem?_prune, Cache.isStale_eq_false_iff]
    refine and_congr_right fun hd => and_congr_right fun _ => ?_
    exact (named_run v work).isFresh_iff hd
  · exact congrArg List.length (c.staleCalls_prune scope w)
  · rw [Cache.cachedNeighbours_fst, Cache.cachedNeighbours_fst]
    exact ⟨hsynced.freshNeighbours?_prune, hsynced.freshNeighbours?_prune_eq_none⟩

end Usage
end CallChart
