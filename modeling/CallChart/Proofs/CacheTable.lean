import CallChart.Proofs.Sets

/-! What each operation of the cache does to its calls, to the neighbours recorded for a function and
to the tokens. A call is looked at from either of its ends, so one lemma serves both directions. -/
namespace CallChart

variable {F : Type} [Handle F]

namespace Coverage

def opposite : Coverage → Coverage
  | callers => callees
  | callees => callers

/-- The end of a call whose neighbour the other end is. -/
def near (coverage : Coverage) (call : Call F) : F :=
  match coverage with
  | callees => call.caller
  | callers => call.callee

def far (coverage : Coverage) (call : Call F) : F :=
  match coverage with
  | callees => call.callee
  | callers => call.caller

omit [Handle F] in
@[simp] theorem near_call (coverage : Coverage) (f g : F) : coverage.near (coverage.call f g) = f := by
  cases coverage <;> rfl

omit [Handle F] in
@[simp] theorem far_call (coverage : Coverage) (f g : F) : coverage.far (coverage.call f g) = g := by
  cases coverage <;> rfl

omit [Handle F] in
@[simp] theorem call_near_far (coverage : Coverage) (call : Call F) :
    coverage.call (coverage.near call) (coverage.far call) = call := by
  cases coverage <;> rfl

theorem eq_opposite_of_ne {side coverage : Coverage} (h : side ≠ coverage) : side = coverage.opposite := by
  cases side <;> cases coverage
  · exact absurd rfl h
  · rfl
  · rfl
  · exact absurd rfl h

omit [Handle F] in
theorem opposite_call (coverage : Coverage) (f g : F) :
    coverage.opposite.call f g = coverage.call g f := by
  cases coverage <;> rfl

theorem compare_iff (coverage : Coverage) {j k : Call F} :
    compare j k = .eq ↔
      compare (coverage.near j) (coverage.near k) = .eq ∧
        compare (coverage.far j) (coverage.far k) = .eq := by
  cases coverage
  all_goals change compareLex _ _ j k = .eq ↔ _
  all_goals simp only [compareLex, compareOn, Ordering.then_eq_eq, near, far]
  exact And.comm

theorem compare_call (coverage : Coverage) {f f' g g' : F} :
    compare (coverage.call f g) (coverage.call f' g') = .eq ↔
      compare f f' = .eq ∧ compare g g' = .eq := by
  rw [compare_iff coverage]
  simp only [near_call, far_call]

/-- A list of neighbours of `f` lists the calls between them and `f`. -/
theorem listed_map_call (coverage : Coverage) {f : F} {xs : List F} {k : Call F} :
    Listed (xs.map (coverage.call f)) k ↔
      compare f (coverage.near k) = .eq ∧ Listed xs (coverage.far k) := by
  constructor
  · rintro ⟨j, hj, hjk⟩
    obtain ⟨g, hg, rfl⟩ := List.mem_map.mp hj
    rw [compare_iff coverage, near_call, far_call] at hjk
    exact ⟨hjk.1, g, hg, hjk.2⟩
  · rintro ⟨hf, g, hg, hgk⟩
    refine ⟨coverage.call f g, List.mem_map_of_mem hg, ?_⟩
    rw [compare_iff coverage, near_call, far_call]
    exact ⟨hf, hgk⟩

theorem token_congr (coverage : Coverage) {f g : F} (h : compare f g = .eq) (v : Versions) :
    coverage.token f v = coverage.token g v := by
  cases coverage with
  | callers => rfl
  | callees => exact v.ofFile_congr (Handle.sourceFile_congr h)

end Coverage

/-- A filter that only looks at what handles of one function share. -/
theorem getElem?_filter_congr {κ β : Type} [Ord κ] [Std.TransOrd κ] (t : Std.TreeMap κ β)
    {keep : κ → β → Bool} (hkeep : ∀ k k' x, compare k k' = .eq → keep k x = keep k' x) (k : κ) :
    (t.filter keep)[k]? = (t[k]?).filter (keep k) := by
  by_cases hk : k ∈ t
  · rw [Std.TreeMap.getElem?_filter_of_getKey?_eq_some (Std.TreeMap.getKey?_eq_some_getKey hk)]
    congr 1
    funext x
    exact hkeep _ _ x (Std.TreeMap.compare_getKey_self hk)
  · rw [Std.TreeMap.getElem?_filter]
    simp [Std.TreeMap.getElem?_eq_none hk]

namespace Cache

theorem lists_iff {xs : List F} {f : F} : lists xs f = true ↔ Listed xs f := by
  simp [lists, Listed]

theorem neighbours_congr (c : Cache F) (coverage : Coverage) {f f' : F} (h : compare f f' = .eq) :
    c.neighbours coverage f = c.neighbours coverage f' := by
  cases coverage <;> simp only [neighbours, Std.TreeMap.getElem?_congr h]

theorem token?_congr (c : Cache F) (coverage : Coverage) {f f' : F} (h : compare f f' = .eq) :
    c.token? coverage f = c.token? coverage f' := by
  cases coverage <;> simp only [token?, Std.TreeMap.getElem?_congr h]

private theorem mem_insert_table (sets : Std.TreeMap F (Std.TreeSet F)) (a b f g : F) :
    g ∈ ((sets.insert a (((sets[a]?).getD ∅).insert b))[f]?).getD ∅ ↔
      (compare a f = .eq ∧ compare b g = .eq) ∨ g ∈ (sets[f]?).getD ∅ := by
  rw [Std.TreeMap.getElem?_insert]
  by_cases hf : compare a f = .eq
  · rw [if_pos hf, Option.getD_some, Std.TreeSet.mem_insert, Std.TreeMap.getElem?_congr hf]
    simp only [hf, true_and]
  · simp only [hf, if_false, false_and, false_or]

private theorem mem_dropNeighbour (sets : Std.TreeMap F (Std.TreeSet F)) (a b f g : F) :
    g ∈ ((dropNeighbour sets a b)[f]?).getD ∅ ↔
      ¬ (compare a f = .eq ∧ compare b g = .eq) ∧ g ∈ (sets[f]?).getD ∅ := by
  unfold dropNeighbour
  cases hs : sets[a]? with
  | none =>
    by_cases hf : compare a f = .eq
    · have hn : sets[f]? = none := by rw [← Std.TreeMap.getElem?_congr hf, hs]
      simp [hn]
    · simp [hf]
  | some known =>
    simp only [Std.TreeMap.getElem?_insert]
    by_cases hf : compare a f = .eq
    · have hn : sets[f]? = some known := by rw [← Std.TreeMap.getElem?_congr hf, hs]
      simp [hf, hn]
    · simp [hf]

/-! ### One call is recorded -/

theorem mem_neighbours_record (c : Cache F) (call : Call F) (v : Versions) (coverage : Coverage)
    (f g : F) :
    g ∈ (c.record call v).neighbours coverage f ↔
      compare call (coverage.call f g) = .eq ∨ g ∈ c.neighbours coverage f := by
  rw [coverage.compare_iff, Coverage.near_call, Coverage.far_call]
  cases coverage <;> exact mem_insert_table _ _ _ _ _

theorem token?_record (c : Cache F) (call : Call F) (v : Versions) (coverage : Coverage) (f : F) :
    (c.record call v).token? coverage f = c.token? coverage f := by
  cases coverage <;> rfl

theorem getElem?_record (c : Cache F) (call : Call F) (v : Versions) (k : Call F) :
    (c.record call v).dependencies[k]? =
      if compare call k = .eq then some (.capture call v) else c.dependencies[k]? :=
  Std.TreeMap.getElem?_insert

/-! ### One call is removed -/

theorem mem_neighbours_remove (c : Cache F) (call : Call F) (coverage : Coverage) (f g : F) :
    g ∈ (c.remove call).neighbours coverage f ↔
      compare call (coverage.call f g) ≠ .eq ∧ g ∈ c.neighbours coverage f := by
  rw [ne_eq, coverage.compare_iff, Coverage.near_call, Coverage.far_call]
  cases coverage <;> exact mem_dropNeighbour _ _ _ _ _

theorem token?_remove_eq_some {c : Cache F} {call : Call F} {coverage : Coverage} {f : F} {t : Nat} :
    (c.remove call).token? coverage f = some t ↔
      compare (coverage.near call) f ≠ .eq ∧ c.token? coverage f = some t := by
  cases coverage
  all_goals
    simp only [token?, remove, Coverage.near, Std.TreeMap.getElem?_erase]
    split <;> simp_all

theorem getElem?_remove (c : Cache F) (call k : Call F) :
    (c.remove call).dependencies[k]? =
      if compare call k = .eq then none else c.dependencies[k]? :=
  Std.TreeMap.getElem?_erase

/-! ### Many calls, one after the other -/

theorem mem_neighbours_foldl_record (calls : List (Call F)) (c : Cache F) (v : Versions)
    (coverage : Coverage) (f g : F) :
    g ∈ (calls.foldl (fun c call => c.record call v) c).neighbours coverage f ↔
      Listed calls (coverage.call f g) ∨ g ∈ c.neighbours coverage f := by
  induction calls generalizing c with
  | nil => simp
  | cons call rest ih =>
    rw [List.foldl_cons, ih, mem_neighbours_record, Listed.cons, or_left_comm, or_assoc]

theorem token?_foldl_record (calls : List (Call F)) (c : Cache F) (v : Versions)
    (coverage : Coverage) (f : F) :
    (calls.foldl (fun c call => c.record call v) c).token? coverage f = c.token? coverage f := by
  induction calls generalizing c with
  | nil => rfl
  | cons call rest ih => rw [List.foldl_cons, ih, token?_record]

/-- A stored call is one of those just recorded, or was stored before. -/
theorem getElem?_foldl_record {calls : List (Call F)} {c : Cache F} {v : Versions} {k : Call F}
    {d : Dependency F}
    (h : (calls.foldl (fun c call => c.record call v) c).dependencies[k]? = some d) :
    (∃ call ∈ calls, compare call k = .eq ∧ d = .capture call v) ∨
      (¬ Listed calls k ∧ c.dependencies[k]? = some d) := by
  induction calls generalizing c with
  | nil => exact .inr ⟨Listed.nil k, h⟩
  | cons call rest ih =>
    rcases ih h with ⟨other, hm, hk, hd⟩ | ⟨hrest, hc⟩
    · exact .inl ⟨other, List.mem_cons_of_mem call hm, hk, hd⟩
    · rw [getElem?_record] at hc
      split at hc
      · next hk => exact .inl ⟨call, List.mem_cons_self, hk, (Option.some.inj hc).symm⟩
      · next hk => exact .inr ⟨fun hl => (Listed.cons.mp hl).elim hk hrest, hc⟩

/-- Calls that are not recorded now stay as they were stored. -/
theorem getElem?_foldl_record_of_not_listed {calls : List (Call F)} {c : Cache F} {v : Versions} {k : Call F}
    (h : ¬ Listed calls k) :
    (calls.foldl (fun c call => c.record call v) c).dependencies[k]? = c.dependencies[k]? := by
  induction calls generalizing c with
  | nil => rfl
  | cons call rest ih =>
    rw [Listed.cons, not_or] at h
    rw [List.foldl_cons, ih h.2, getElem?_record, if_neg h.1]

theorem mem_neighbours_foldl_remove (calls : List (Call F)) (c : Cache F) (coverage : Coverage)
    (f g : F) :
    g ∈ (calls.foldl remove c).neighbours coverage f ↔
      ¬ Listed calls (coverage.call f g) ∧ g ∈ c.neighbours coverage f := by
  induction calls generalizing c with
  | nil => simp
  | cons call rest ih =>
    rw [List.foldl_cons, ih, mem_neighbours_remove, Listed.cons, not_or, ← and_assoc, and_comm (a := ¬ _)]

theorem token?_foldl_remove {calls : List (Call F)} {c : Cache F} {coverage : Coverage} {f : F}
    {t : Nat} :
    (calls.foldl remove c).token? coverage f = some t ↔
      (∀ call ∈ calls, compare (coverage.near call) f ≠ .eq) ∧ c.token? coverage f = some t := by
  induction calls generalizing c with
  | nil => simp
  | cons call rest ih =>
    rw [List.foldl_cons, ih, token?_remove_eq_some, List.forall_mem_cons]
    exact and_left_comm.trans and_assoc.symm

theorem getElem?_foldl_remove {calls : List (Call F)} {c : Cache F} {k : Call F}
    {d : Dependency F} :
    (calls.foldl remove c).dependencies[k]? = some d ↔
      ¬ Listed calls k ∧ c.dependencies[k]? = some d := by
  induction calls generalizing c with
  | nil => simp
  | cons call rest ih =>
    rw [List.foldl_cons, ih, getElem?_remove, Listed.cons]
    by_cases hk : compare call k = .eq <;> simp [hk]

/-! ### Coverage is marked -/

theorem neighbours_markCovered (c : Cache F) (marked coverage : Coverage) (f g : F) (v : Versions) :
    (c.markCovered marked f v).neighbours coverage g = c.neighbours coverage g := by
  cases marked <;> cases coverage <;> rfl

theorem dependencies_markCovered (c : Cache F) (coverage : Coverage) (f : F) (v : Versions) :
    (c.markCovered coverage f v).dependencies = c.dependencies := by
  cases coverage <;> rfl

theorem token?_markCovered (c : Cache F) (marked coverage : Coverage) (f g : F) (v : Versions) :
    (c.markCovered marked f v).token? coverage g =
      if coverage = marked ∧ compare f g = .eq then some (marked.token f v)
      else c.token? coverage g := by
  cases marked <;> cases coverage <;> simp [markCovered, token?, Std.TreeMap.getElem?_insert]

/-! ### The neighbours of a function are replaced -/

section Replace

variable (c : Cache F) (coverage : Coverage) (f : F) (answer : List F)

/-- The calls between `f` and the neighbours that an answer lists. -/
def Adds (k : Call F) : Prop := compare f (coverage.near k) = .eq ∧ Listed answer (coverage.far k)

/-- The recorded calls between `f` and neighbours that an answer does not list. -/
def Drops (k : Call F) : Prop :=
  compare f (coverage.near k) = .eq ∧ coverage.far k ∈ c.neighbours coverage f ∧
    ¬ Listed answer (coverage.far k)

variable {c coverage f answer}

theorem listed_gone_iff {k : Call F} :
    Listed (c.gone coverage f answer) k ↔ c.Drops coverage f answer k := by
  rw [gone, coverage.listed_map_call, Drops, ← listed_toList_iff]
  refine and_congr_right fun _ => ⟨?_, ?_⟩
  · rintro ⟨g, hg, hgk⟩
    obtain ⟨hmem, hnot⟩ := List.mem_filter.mp hg
    have hn : ¬ Listed answer g := by simpa [← lists_iff] using hnot
    exact ⟨⟨g, hmem, hgk⟩, fun hl => hn (hl.congr (compare_symm hgk))⟩
  · rintro ⟨⟨g, hmem, hgk⟩, hnot⟩
    have hn : ¬ lists answer g = true := fun hl => hnot ((lists_iff.mp hl).congr hgk)
    exact ⟨g, List.mem_filter.mpr ⟨hmem, by simpa using hn⟩, hgk⟩

theorem mem_neighbours_replace {v : Versions} {side : Coverage} {g h : F} :
    h ∈ (c.replaceNeighbours coverage f answer v).neighbours side g ↔
      Adds coverage f answer (side.call g h) ∨
        ¬ c.Drops coverage f answer (side.call g h) ∧ h ∈ c.neighbours side g := by
  rw [replaceNeighbours, neighbours_markCovered, mem_neighbours_foldl_record,
    mem_neighbours_foldl_remove, coverage.listed_map_call, listed_gone_iff, Adds]

/-- The function itself has the neighbours of the answer. -/
theorem mem_neighbours_replace_self {v : Versions} {g h : F} (hg : compare f g = .eq) :
    h ∈ (c.replaceNeighbours coverage f answer v).neighbours coverage g ↔ Listed answer h := by
  rw [mem_neighbours_replace, ← c.neighbours_congr coverage hg]
  simp only [Adds, Drops, Coverage.near_call, Coverage.far_call, hg, true_and]
  grind

/-- Other functions keep their neighbours on the same side. -/
theorem mem_neighbours_replace_of_ne {v : Versions} {g h : F} (hg : compare f g ≠ .eq) :
    h ∈ (c.replaceNeighbours coverage f answer v).neighbours coverage g ↔
      h ∈ c.neighbours coverage g := by
  rw [mem_neighbours_replace]
  simp [Adds, Drops, hg]

/-- A token was set for the answer, or nothing that it vouches for was dropped. -/
theorem token?_replace_iff {v : Versions} {side : Coverage} {g : F} {t : Nat} :
    (c.replaceNeighbours coverage f answer v).token? side g = some t ↔
      (side = coverage ∧ compare f g = .eq ∧ t = coverage.token f v) ∨
        (¬ (side = coverage ∧ compare f g = .eq) ∧ c.token? side g = some t ∧
          ∀ k, compare (side.near k) g = .eq → ¬ c.Drops coverage f answer k) := by
  rw [replaceNeighbours, token?_markCovered]
  split
  · next hside =>
    rw [Option.some.injEq]
    constructor
    · exact fun ht => .inl ⟨hside.1, hside.2, ht.symm⟩
    · rintro (⟨-, -, ht⟩ | ⟨hne, -⟩)
      · exact ht.symm
      · exact absurd hside hne
  · next hside =>
    rw [token?_foldl_record, token?_foldl_remove]
    constructor
    · rintro ⟨hkept, ht⟩
      refine .inr ⟨hside, ht, fun k hk hdrop => ?_⟩
      obtain ⟨j, hj, hjk⟩ := listed_gone_iff.mpr hdrop
      exact hkept j hj (compare_trans (side.compare_iff.mp hjk).1 hk)
    · rintro (⟨hsame, hf, -⟩ | ⟨-, ht, hkept⟩)
      · exact absurd ⟨hsame, hf⟩ hside
      · exact ⟨fun k hk hnear => hkept k hnear (listed_gone_iff.mp (.of_mem hk)), ht⟩

theorem token?_replace {v : Versions} {side : Coverage} {g : F} {t : Nat}
    (h : (c.replaceNeighbours coverage f answer v).token? side g = some t) :
    (side = coverage ∧ compare f g = .eq ∧ t = coverage.token f v) ∨
      (¬ (side = coverage ∧ compare f g = .eq) ∧ c.token? side g = some t ∧
        ∀ k, compare (side.near k) g = .eq → ¬ c.Drops coverage f answer k) :=
  token?_replace_iff.mp h

/-- The function itself is covered from now on. -/
theorem token?_replace_self (v : Versions) :
    (c.replaceNeighbours coverage f answer v).token? coverage f = some (coverage.token f v) := by
  rw [replaceNeighbours, token?_markCovered, if_pos ⟨rfl, compare_refl f⟩]

/-- Other functions keep their tokens on the same side. -/
theorem token?_replace_of_ne {v : Versions} {g : F} (hg : compare f g ≠ .eq) :
    (c.replaceNeighbours coverage f answer v).token? coverage g = c.token? coverage g := by
  rw [replaceNeighbours, token?_markCovered, if_neg fun h => hg h.2, token?_foldl_record]
  refine Option.ext fun t => ?_
  rw [token?_foldl_remove]
  refine and_iff_right fun k hk heq => hg ?_
  have hnear := (listed_gone_iff.mp (.of_mem hk)).1
  exact compare_trans hnear heq

/-- Calls that the answer does not tell are dropped, or stay as they were stored. -/
theorem getElem?_replace_of_not_adds {v : Versions} {k : Call F} {d : Dependency F}
    (hadds : ¬ Adds coverage f answer k) :
    (c.replaceNeighbours coverage f answer v).dependencies[k]? = some d ↔
      ¬ c.Drops coverage f answer k ∧ c.dependencies[k]? = some d := by
  have hnot : ¬ Listed (answer.map (coverage.call f)) k := fun h => hadds (coverage.listed_map_call.mp h)
  rw [replaceNeighbours, dependencies_markCovered, getElem?_foldl_record_of_not_listed hnot, getElem?_foldl_remove,
    listed_gone_iff]

/-- Calls of other functions on the same side stay as they were stored. -/
theorem getElem?_replace_of_ne {v : Versions} {k : Call F} (hk : compare f (coverage.near k) ≠ .eq) :
    (c.replaceNeighbours coverage f answer v).dependencies[k]? = c.dependencies[k]? := by
  have hadds : ¬ Adds coverage f answer k := fun h => hk h.1
  exact Option.ext fun d => (getElem?_replace_of_not_adds hadds).trans (and_iff_right fun h => hk h.1)

theorem getElem?_replace {v : Versions} {k : Call F} {d : Dependency F}
    (h : (c.replaceNeighbours coverage f answer v).dependencies[k]? = some d) :
    (∃ g ∈ answer, compare (coverage.call f g) k = .eq ∧ d = .capture (coverage.call f g) v) ∨
      (¬ Adds coverage f answer k ∧ c.dependencies[k]? = some d) := by
  rw [replaceNeighbours, dependencies_markCovered] at h
  rcases getElem?_foldl_record h with ⟨call, hcall, hk, hd⟩ | ⟨hadds, hc⟩
  · obtain ⟨g, hg, rfl⟩ := List.mem_map.mp hcall
    exact .inl ⟨g, hg, hk, hd⟩
  · rw [coverage.listed_map_call] at hadds
    exact .inr ⟨hadds, (getElem?_foldl_remove.mp hc).2⟩

end Replace

/-! ### The cache is pruned -/

section Prune

variable {c : Cache F} {scope : Std.TreeSet F} {v : Versions}

private theorem isStale_congr {j k : Call F} (h : compare j k = .eq) (d : Dependency F) :
    isStale scope v j d = isStale scope v k d := by
  obtain ⟨hcaller, hcallee⟩ := Coverage.callees.compare_iff.mp h
  change compare j.caller k.caller = .eq at hcaller
  change compare j.callee k.callee = .eq at hcallee
  rw [isStale, isStale, Std.TreeSet.contains_congr hcaller, Std.TreeSet.contains_congr hcallee]

theorem listed_staleCalls_iff {k : Call F} :
    Listed (c.staleCalls scope v) k ↔
      ∃ d, c.dependencies[k]? = some d ∧ isStale scope v k d = true := by
  constructor
  · rintro ⟨j, hj, hjk⟩
    obtain ⟨⟨j', d⟩, hentry, rfl⟩ := List.mem_map.mp hj
    obtain ⟨hmem, hstale⟩ := List.mem_filter.mp hentry
    obtain ⟨-, hd⟩ := Std.TreeMap.mem_toList_iff_getKey?_eq_some_and_getElem?_eq_some.mp hmem
    exact ⟨d, by rw [← Std.TreeMap.getElem?_congr hjk, hd], by rw [← isStale_congr hjk]; exact hstale⟩
  · rintro ⟨d, hd, hstale⟩
    obtain ⟨j, hjk, hmem⟩ := Std.TreeMap.getElem?_eq_some_iff_exists_compare_eq_eq_and_mem_toList.mp hd
    refine ⟨j, List.mem_map.mpr ⟨(j, d), List.mem_filter.mpr ⟨hmem, ?_⟩, rfl⟩, compare_symm hjk⟩
    rw [← isStale_congr hjk]
    exact hstale

private theorem mem_getD_filter (sets : Std.TreeMap F (Std.TreeSet F)) (f g : F) :
    g ∈ ((sets.filter fun _ known => !known.isEmpty)[f]?).getD ∅ ↔ g ∈ (sets[f]?).getD ∅ := by
  rw [getElem?_filter_congr sets fun _ _ _ _ => rfl]
  cases sets[f]? with
  | none => rfl
  | some known =>
    cases hk : known.isEmpty with
    | false => simp [Option.filter_some, hk]
    | true => simpa [Option.filter_some, hk] using Std.TreeSet.not_mem_of_isEmpty hk

theorem mem_neighbours_prune {coverage : Coverage} {f g : F} :
    g ∈ (c.prune scope v).2.neighbours coverage f ↔
      ¬ Listed (c.staleCalls scope v) (coverage.call f g) ∧ g ∈ c.neighbours coverage f := by
  rw [← mem_neighbours_foldl_remove]
  cases coverage <;> exact mem_getD_filter _ _ _

/-- What is left of the calls is in the scope and fresh. -/
theorem getElem?_prune {k : Call F} {d : Dependency F} :
    (c.prune scope v).2.dependencies[k]? = some d ↔
      c.dependencies[k]? = some d ∧ isStale scope v k d = false := by
  rw [prune, getElem?_foldl_remove, listed_staleCalls_iff]
  constructor
  · rintro ⟨hfresh, hd⟩
    exact ⟨hd, by simpa using fun hs => hfresh ⟨d, hd, hs⟩⟩
  · rintro ⟨hd, hfresh⟩
    refine ⟨?_, hd⟩
    rintro ⟨other, hother, hs⟩
    rw [hd] at hother
    simp [← Option.some.inj hother, hfresh] at hs

/-- What is left of the tokens is in the scope and current, and nothing it vouches for was dropped. -/
theorem token?_prune {coverage : Coverage} {f : F} {t : Nat} :
    (c.prune scope v).2.token? coverage f = some t ↔
      c.token? coverage f = some t ∧ f ∈ scope ∧ t = coverage.token f v ∧
        ∀ k, compare (coverage.near k) f = .eq → ¬ Listed (c.staleCalls scope v) k := by
  have hkeep (coverage : Coverage) (f g : F) (t : Nat) (h : compare f g = .eq) :
      (scope.contains f && t == coverage.token f v) = (scope.contains g && t == coverage.token g v) := by
    rw [Std.TreeSet.contains_congr h, coverage.token_congr h]
  have htoken : (c.prune scope v).2.token? coverage f =
      (((c.staleCalls scope v).foldl remove c).token? coverage f).filter
        fun t => scope.contains f && t == coverage.token f v := by
    cases coverage <;> exact getElem?_filter_congr _ (hkeep _) f
  rw [htoken, Option.filter_eq_some_iff, token?_foldl_remove, Bool.and_eq_true, beq_iff_eq,
    Std.TreeSet.contains_iff_mem]
  constructor
  · rintro ⟨⟨hnear, ht⟩, hf, hv⟩
    refine ⟨ht, hf, hv, ?_⟩
    rintro k hk ⟨j, hj, hjk⟩
    exact hnear j hj (compare_trans (coverage.compare_iff.mp hjk).1 hk)
  · rintro ⟨ht, hf, hv, hnear⟩
    exact ⟨⟨fun k hk hkf => hnear k hkf (.of_mem hk), ht⟩, hf, hv⟩

end Prune

end Cache
end CallChart
