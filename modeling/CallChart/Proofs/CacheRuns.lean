import CallChart.Proofs.CacheSynced

/-! A cache in use. Calls are recorded, answers are replaced, stale calls are dropped and everything is
forgotten in any order, and between any two of these files may be edited. The stored calls and the neighbours
recorded for both of their ends are three tables of the same calls, and no operation lets them differ. -/
namespace CallChart

variable {F : Type} [Handle F]

/-- What is done with a cache, and what happens to the files meanwhile. -/
inductive CacheOperation (F : Type) [Handle F] where
  | record (call : Call F)
  | markCovered (coverage : Coverage) (f : F)
  /-- The neighbours of a function are asked for. -/
  | ask (coverage : Coverage) (f : F)
  | replace (coverage : Coverage) (f : F) (answer : List F)
  | prune (scope : Std.TreeSet F)
  | clear
  /-- Files are edited, and these are the versions of all files from then on. -/
  | edit (versions : Versions)

namespace CacheOperation

def apply (v : Versions) (c : Cache F) : CacheOperation F → Cache F
  | record call => c.record call v
  | markCovered coverage f => c.markCovered coverage f v
  | ask coverage f => (c.cachedNeighbours coverage f v).2
  | replace coverage f answer => c.replaceNeighbours coverage f answer v
  | prune scope => (c.prune scope v).2
  | clear => c.clear
  | edit _ => c

/-- The versions after an operation. -/
def versions (v : Versions) : CacheOperation F → Versions
  | edit w => w
  | _ => v

end CacheOperation

/-- A cache in use: what is in it, the versions of all files, and what was done so far. The latest operation
comes first, and each comes with the versions that it met. -/
structure Usage (F : Type) [Handle F] where
  cache : Cache F
  versions : Versions
  past : List (Versions × CacheOperation F)

namespace Usage

def start (v : Versions) : Usage F := ⟨.empty, v, []⟩

def perform (u : Usage F) (operation : CacheOperation F) : Usage F where
  cache := operation.apply u.versions u.cache
  versions := operation.versions u.versions
  past := (u.versions, operation) :: u.past

/-- A new cache after some work. -/
def run (v : Versions) (work : List (CacheOperation F)) : Usage F := work.foldl perform (start v)

/-- What holds of a new cache and after each operation holds of every cache in use. -/
theorem run_keeps {P : Usage F → Prop} {v : Versions} (hstart : P (start v))
    (hperform : ∀ u operation, P u → P (u.perform operation)) (work : List (CacheOperation F)) :
    P (run v work) :=
  List.foldlRecOn work perform hstart fun u hu operation _ => hperform u operation hu

end Usage

namespace Cache

variable {c : Cache F}

/-! ### Neighbours and stored calls -/

/-- A row that is missing in a table is empty. -/
theorem mem_row_iff {row : Option (Std.TreeSet F)} {g : F} :
    g ∈ row.getD ∅ ↔ ∃ known, row = some known ∧ g ∈ known := by
  cases row with
  | none => simp
  | some known => simp

theorem Synced.recorded (h : c.Synced) (call : Call F) (v : Versions) : (c.record call v).Synced := by
  intro coverage f g
  have hstored : coverage.call f g ∈ (c.record call v).dependencies ↔
      compare call (coverage.call f g) = .eq ∨ coverage.call f g ∈ c.dependencies := Std.TreeMap.mem_insert
  rw [mem_neighbours_record, hstored, h coverage f g]

theorem Synced.marked (h : c.Synced) (coverage : Coverage) (f : F) (v : Versions) :
    (c.markCovered coverage f v).Synced := by
  intro side g g'
  rw [neighbours_markCovered, dependencies_markCovered]
  exact h side g g'

/-- What the cache is asked changes nothing in it but the counts of hits and misses. -/
theorem exists_cachedNeighbours (c : Cache F) (coverage : Coverage) (f : F) (v : Versions) :
    ∃ hits misses, (c.cachedNeighbours coverage f v).2 = { c with hits := hits, misses := misses } := by
  unfold cachedNeighbours
  split
  · exact ⟨c.hits + 1, c.misses, rfl⟩
  · exact ⟨c.hits, c.misses + 1, rfl⟩

theorem Synced.applied (h : c.Synced) (v : Versions) (operation : CacheOperation F) :
    (operation.apply v c).Synced := by
  cases operation with
  | record call => exact h.recorded call v
  | markCovered coverage f => exact h.marked coverage f v
  | ask coverage f =>
    obtain ⟨hits, misses, heq⟩ := c.exists_cachedNeighbours coverage f v
    rw [CacheOperation.apply, heq]
    exact h.counted hits misses
  | replace coverage f answer => exact h.learned coverage f answer v
  | prune scope => exact h.pruned scope v
  | clear =>
    intro coverage f g
    exact synced_empty coverage f g
  | edit w => exact h

/-! ### Stored calls and their keys -/

/-- Each stored dependency is that of the call under which it is stored. -/
def Named (c : Cache F) : Prop :=
  ∀ (k : Call F) (d : Dependency F), c.dependencies[k]? = some d →
    compare d.caller k.caller = .eq ∧ compare d.callee k.callee = .eq

theorem named_empty : (empty : Cache F).Named := by
  intro k d hd
  rw [empty, Std.TreeMap.getElem?_emptyc] at hd
  cases hd

theorem named_capture {call k : Call F} (hk : compare call k = .eq) (v : Versions) :
    compare (Dependency.capture call v).caller k.caller = .eq ∧
      compare (Dependency.capture call v).callee k.callee = .eq :=
  Coverage.callees.compare_iff.mp hk

theorem Named.applied (h : c.Named) (v : Versions) (operation : CacheOperation F) :
    (operation.apply v c).Named := by
  intro k d hd
  cases operation with
  | record call =>
    rw [CacheOperation.apply, getElem?_record] at hd
    split at hd
    · next hk =>
      obtain rfl := Option.some.inj hd
      exact named_capture hk v
    · exact h k d hd
  | markCovered coverage f =>
    rw [CacheOperation.apply, dependencies_markCovered] at hd
    exact h k d hd
  | ask coverage f =>
    obtain ⟨hits, misses, heq⟩ := c.exists_cachedNeighbours coverage f v
    rw [CacheOperation.apply, heq] at hd
    exact h k d hd
  | replace coverage f answer =>
    rcases getElem?_replace hd with ⟨g, -, hk, rfl⟩ | ⟨-, hold⟩
    · exact named_capture hk v
    · exact h k d hold
  | prune scope => exact h k d (getElem?_prune.mp hd).1
  | clear => exact named_empty k d hd
  | edit w => exact h k d hd

end Cache

namespace Usage

theorem synced_run (v : Versions) (work : List (CacheOperation F)) : (run v work).cache.Synced :=
  run_keeps (P := fun u => u.cache.Synced) Cache.synced_empty (fun u operation hu => hu.applied u.versions operation)
    work

theorem named_run (v : Versions) (work : List (CacheOperation F)) : (run v work).cache.Named :=
  run_keeps (P := fun u => u.cache.Named) Cache.named_empty (fun u operation hu => hu.applied u.versions operation)
    work

/-- However a cache was used, the call of `b` in `a` is stored exactly if `b` is recorded as a callee of `a`, and
exactly if `a` is recorded as a caller of `b`. What is stored for it names `a` and `b`. -/
theorem tables_agree (v : Versions) (work : List (CacheOperation F)) (a b : F) :
    let c := (run v work).cache
    ((⟨a, b⟩ : Call F) ∈ c.dependencies ↔ ∃ callees, c.calleesOf[a]? = some callees ∧ b ∈ callees) ∧
      ((⟨a, b⟩ : Call F) ∈ c.dependencies ↔ ∃ callers, c.callersOf[b]? = some callers ∧ a ∈ callers) ∧
      ∀ d, c.dependencies[(⟨a, b⟩ : Call F)]? = some d → compare d.caller a = .eq ∧ compare d.callee b = .eq := by
  intro c
  have hsynced : c.Synced := synced_run v work
  refine ⟨?_, ?_, fun d hd => named_run v work _ d hd⟩
  · exact (hsynced .callees a b).symm.trans Cache.mem_row_iff
  · exact (hsynced .callers b a).symm.trans Cache.mem_row_iff

end Usage
end CallChart
