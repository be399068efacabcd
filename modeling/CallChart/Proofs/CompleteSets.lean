import CallChart.Proofs.LookupHistory

/-! What stands behind a set of neighbours that the cache serves. It is what was answered when all neighbours of the
function were asked for the last time, and the calls that were recorded since then. No operation on a neighbour takes a
call away without the mark of the function, so nothing of the answer is ever missing. -/
namespace CallChart

variable {F : Type} [Handle F]

namespace CacheOperation

/-- All neighbours of a function on one side are replaced. -/
def Replaces (coverage : Coverage) (f : F) : CacheOperation F → Prop
  | replace side g _ => side = coverage ∧ compare g f = .eq
  | _ => False

/-- It is noted that all neighbours of a function are recorded, whether they are or not. -/
def Marks (coverage : Coverage) (f : F) : CacheOperation F → Prop
  | markCovered side g => side = coverage ∧ compare g f = .eq
  | _ => False

end CacheOperation

namespace Cache

variable {c : Cache F} {v : Versions} {coverage : Coverage} {f : F} {operation : CacheOperation F}

/-- Neighbours only join a covered set, and each of them is recorded when it does. -/
structure Grows (c c' : Cache F) (coverage : Coverage) (f : F) (operation : CacheOperation F) : Prop where
  covered {t : Nat} : c'.token? coverage f = some t → c.token? coverage f = some t
  kept {g : F} : g ∈ c.neighbours coverage f → g ∈ c'.neighbours coverage f
  joined {g : F} : g ∈ c'.neighbours coverage f → g ∈ c.neighbours coverage f ∨ operation.Records (coverage.call f g)

theorem Grows.refl (c : Cache F) (coverage : Coverage) (f : F) (operation : CacheOperation F) :
    c.Grows c coverage f operation := ⟨id, id, .inl⟩

/-- What an operation does to a function that is still covered afterwards, unless it is one that covers it. -/
theorem grows_apply (hmarks : ¬ operation.Marks coverage f) (hreplaces : ¬ operation.Replaces coverage f) {t : Nat}
    (ht : (operation.apply v c).token? coverage f = some t) :
    c.Grows (operation.apply v c) coverage f operation := by
  cases operation with
  | record call =>
    refine ⟨fun h => (token?_record c call v coverage f).symm.trans h, fun h => ?_, fun h => ?_⟩
    · exact (mem_neighbours_record c call v coverage f _).mpr (.inr h)
    · exact ((mem_neighbours_record c call v coverage f _).mp h).symm
  | markCovered side g =>
    have hsame : (c.markCovered side g v).token? coverage f = c.token? coverage f := by
      rw [token?_markCovered, if_neg fun h => hmarks ⟨h.1.symm, h.2⟩]
    have hneighbours := neighbours_markCovered c side coverage g f v
    exact ⟨fun h => hsame.symm.trans h, fun h => hneighbours ▸ h, fun h => .inl (hneighbours ▸ h)⟩
  | ask side g =>
    obtain ⟨hits, misses, heq⟩ := c.exists_cachedNeighbours side g v
    rw [CacheOperation.apply, heq]
    exact ⟨id, id, .inl⟩
  | replace side g answer =>
    rcases token?_replace ht with ⟨hside, hg, -⟩ | ⟨-, -, hdrops⟩
    · exact absurd ⟨hside.symm, hg⟩ hreplaces
    · have hkept (g : F) : ¬ c.Drops side _ answer (coverage.call f g) :=
        hdrops _ (by rw [Coverage.near_call]; exact compare_refl f)
      refine ⟨fun h => ?_, fun h => mem_neighbours_replace.mpr (.inr ⟨hkept _, h⟩), fun h => ?_⟩
      · rcases token?_replace h with ⟨hside, hg, -⟩ | ⟨-, hold, -⟩
        · exact absurd ⟨hside.symm, hg⟩ hreplaces
        · exact hold
      · rcases mem_neighbours_replace.mp h with hadds | ⟨-, hold⟩
        · exact .inr hadds
        · exact .inl hold
  | prune scope =>
    obtain ⟨-, -, -, hkept⟩ := token?_prune.mp ht
    refine ⟨fun h => (token?_prune.mp h).1, fun {g} h => mem_neighbours_prune.mpr ⟨hkept _ ?_, h⟩, fun h => ?_⟩
    · rw [Coverage.near_call]
      exact compare_refl f
    · exact .inl (mem_neighbours_prune.mp h).2
  | clear =>
    have hnone : c.clear.token? coverage f = none := uncoveredAt_empty coverage f
    rw [CacheOperation.apply, hnone] at ht
    cases ht
  | edit w => exact .refl c coverage f _

/-- What is served is in order and has nothing twice. -/
theorem ascending_of_served {known : List F} (h : c.freshNeighbours? coverage f v = some known) :
    known.Pairwise fun a b => compare a b = .lt := by
  obtain ⟨rfl, -, -⟩ := freshNeighbours?_eq_some.mp h
  exact Std.TreeSet.ordered_toList

end Cache

namespace Usage

variable {u : Usage F} {coverage : Coverage} {f : F} {operation : CacheOperation F}

/-- All neighbours of a function were replaced by an answer for the last time, and then this was done. -/
def LastReplaced (u : Usage F) (coverage : Coverage) (f : F) (answer : List F)
    (since : List (Versions × CacheOperation F)) : Prop :=
  ∃ m g before, u.past = since ++ (m, .replace coverage g answer) :: before ∧ compare g f = .eq ∧
    ∀ entry ∈ since, ¬ entry.2.Replaces coverage f

theorem LastReplaced.perform {answer : List F} {since : List (Versions × CacheOperation F)}
    (h : u.LastReplaced coverage f answer since) (hreplaces : ¬ operation.Replaces coverage f) :
    (u.perform operation).LastReplaced coverage f answer ((u.versions, operation) :: since) := by
  obtain ⟨m, g, before, hpast, hg, hsince⟩ := h
  exact ⟨m, g, before, congrArg (List.cons _) hpast, hg, List.forall_mem_cons.mpr ⟨hreplaces, hsince⟩⟩

/-- Recorded neighbours of a function are all that an answer lists, and else only what was recorded since. -/
structure Accounts (coverage : Coverage) (f : F) (answer : List F) (since : List (Versions × CacheOperation F))
    (neighbours : Std.TreeSet F) : Prop where
  complete {g : F} : Listed answer g → g ∈ neighbours
  sourced {g : F} : g ∈ neighbours → Listed answer g ∨ ∃ entry ∈ since, entry.2.Records (coverage.call f g)

/-- If a function is covered, its neighbours are those of the last answer and those recorded since. -/
def Complete (coverage : Coverage) (f : F) (u : Usage F) : Prop :=
  ∀ t, u.cache.token? coverage f = some t → ∃ answer since, u.LastReplaced coverage f answer since ∧
    Accounts coverage f answer since (u.cache.neighbours coverage f)

theorem complete_start (v : Versions) : (start v : Usage F).Complete coverage f := by
  intro t ht
  rw [start, Cache.uncoveredAt_empty coverage f] at ht
  cases ht

/-- An operation covers a function completely, or leaves it complete if it leaves it covered. -/
theorem Complete.perform (h : u.Complete coverage f) (hmarks : ¬ operation.Marks coverage f) :
    (u.perform operation).Complete coverage f := by
  intro t ht
  by_cases hreplaces : operation.Replaces coverage f
  · cases operation with
    | replace side g answer =>
      obtain ⟨rfl, hg⟩ := hreplaces
      refine ⟨answer, [], ⟨u.versions, g, u.past, rfl, hg, nofun⟩, ?_⟩
      have hlisted (g' : F) :
          g' ∈ (u.cache.replaceNeighbours side g answer u.versions).neighbours side f ↔ Listed answer g' :=
        Cache.mem_neighbours_replace_self hg
      exact ⟨fun hg' => (hlisted _).mpr hg', fun hg' => .inl ((hlisted _).mp hg')⟩
    | record | markCovered | ask | prune | clear | edit => exact hreplaces.elim
  · have hgrows : u.cache.Grows (u.perform operation).cache coverage f operation :=
      Cache.grows_apply hmarks hreplaces ht
    obtain ⟨answer, since, hlast, haccounts⟩ := h t (hgrows.covered ht)
    refine ⟨answer, _, hlast.perform hreplaces, fun hg => hgrows.kept (haccounts.complete hg), fun hg => ?_⟩
    rcases hgrows.joined hg with hold | hrecords
    · refine (haccounts.sourced hold).imp_right ?_
      rintro ⟨entry, hentry, hrecords⟩
      exact ⟨entry, List.mem_cons_of_mem _ hentry, hrecords⟩
    · exact .inr ⟨_, List.mem_cons_self, hrecords⟩

theorem complete_run {v : Versions} {work : List (CacheOperation F)}
    (hmarks : ∀ operation ∈ work, ¬ operation.Marks coverage f) : (run v work).Complete coverage f :=
  List.foldlRecOn work perform (complete_start v) fun _ hu operation hmem => hu.perform (hmarks operation hmem)

/-- Just after all neighbours of a function were replaced, those of the answer are served, each once and in order.
Whatever is served later is in order and has nothing twice. It holds all that the last answer listed, and beyond that
only what was recorded as a neighbour since. This needs that the function is marked with its answers only. -/
theorem served_since_replaced {v : Versions} {work : List (CacheOperation F)} {coverage : Coverage} {f : F}
    (hmarks : ∀ operation ∈ work, ¬ operation.Marks coverage f) :
    let u := run v work
    (∀ answer, ∃ known,
        ((u.perform (.replace coverage f answer)).cache.cachedNeighbours coverage f u.versions).1 = some known ∧
          known.Pairwise (fun a b => compare a b = .lt) ∧ ∀ g, Listed known g ↔ Listed answer g) ∧
      ∀ w known, (u.cache.cachedNeighbours coverage f w).1 = some known →
        known.Pairwise (fun a b => compare a b = .lt) ∧
          ∃ answer since, u.LastReplaced coverage f answer since ∧ (∀ g, Listed answer g → Listed known g) ∧
            ∀ g, Listed known g → Listed answer g ∨ ∃ entry ∈ since, entry.2.Records (coverage.call f g) := by
  intro u
  refine ⟨fun answer => ?_, fun w known hknown => ?_⟩
  · have hvouched := u.cache.vouched_replace coverage f answer u.versions
    obtain ⟨known, hknown⟩ := Option.isSome_iff_exists.mp (hvouched.served_iff.mpr (.refl coverage f answer u.versions))
    exact ⟨known, (Cache.cachedNeighbours_fst _ _ _ _).trans hknown, Cache.ascending_of_served hknown,
      hvouched.served hknown⟩
  · rw [Cache.cachedNeighbours_fst] at hknown
    refine ⟨Cache.ascending_of_served hknown, ?_⟩
    obtain ⟨rfl, htoken, -⟩ := Cache.freshNeighbours?_eq_some.mp hknown
    obtain ⟨answer, since, hlast, haccounts⟩ := complete_run hmarks _ htoken
    refine ⟨answer, since, hlast, fun g hg => ?_, fun g hg => ?_⟩
    · exact listed_toList_iff.mpr (haccounts.complete hg)
    · exact haccounts.sourced (listed_toList_iff.mp hg)

/-- After all callees of `main` were asked for, a call of itself is recorded, another file is edited, a callee is asked
for its callers and the cache is pruned. -/
theorem own_call_joins_answer :
    let main := SourceFunction.named "main"
    let help := SourceFunction.named "help"
    let callee := SourceFunction.named "run"
    let files := FileVersions.start none
    let work : List (CacheOperation SourceFunction) :=
      [.replace .callees main [callee, help, callee], .record ⟨main, main⟩, .edit (files.bump ⟨"other"⟩).now,
        .replace .callers help [main], .prune (Std.TreeSet.ofList [main, help, callee])]
    let u := run files.now work
    (∀ operation ∈ work, ¬ operation.Marks .callees main) ∧
      ∃ known, (u.cache.cachedNeighbours .callees main u.versions).1 = some known ∧
        known.map SourceFunction.qualifiedName = ["help", "main", "run"] ∧
        ∃ answer since, u.LastReplaced .callees main answer since ∧ (∀ g, Listed answer g → Listed known g) ∧
          ∀ g, Listed known g → Listed answer g ∨ ∃ entry ∈ since, entry.2.Records (Coverage.callees.call main g) := by
  intro main help callee files work u
  have hmarks : ∀ operation ∈ work, ¬ operation.Marks .callees main := by
    simp only [work, List.forall_mem_cons]
    exact ⟨id, id, id, id, id, nofun⟩
  have hnames : (u.cache.cachedNeighbours .callees main u.versions).1.map (List.map SourceFunction.qualifiedName) =
      some ["help", "main", "run"] := by decide +kernel
  obtain ⟨known, hserved, hknown⟩ := Option.map_eq_some_iff.mp hnames
  obtain ⟨-, hlater⟩ := served_since_replaced (v := files.now) hmarks
  exact ⟨hmarks, known, hserved, hknown, (hlater u.versions known hserved).2⟩

end Usage
end CallChart
