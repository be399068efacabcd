import CallChart.Proofs.CacheRuns
import CallChart.Proofs.CommitMoment

/-! What a lookup tells of the past. A call is found exactly if it was recorded and nothing since then has put an
end to what was known of it, and it is found as it was when it was recorded for the last time. -/
namespace CallChart

variable {F : Type} [Handle F]

/-- The file of a function was edited on the way from some versions to others. -/
def Versions.Edited (v w : Versions) (f : F) : Prop := v.ofFile (Handle.sourceFile f) < w.ofFile (Handle.sourceFile f)

/-- No counter went back. -/
def Versions.Grown (v w : Versions) : Prop := ∀ p, v.ofFile p ≤ w.ofFile p

theorem Versions.Edited.of_ne {v w : Versions} {f : F} (h : v.Grown w) (hne : ¬ v.Edited w f) :
    v.ofFile (Handle.sourceFile f) = w.ofFile (Handle.sourceFile f) :=
  Nat.le_antisymm (h _) (Nat.not_lt.mp hne)

namespace CacheOperation

/-- A call is recorded, by itself or as one of all calls on one side of a function. -/
def Records (k : Call F) : CacheOperation F → Prop
  | record call => compare call k = .eq
  | replace coverage f answer => compare f (coverage.near k) = .eq ∧ Listed answer (coverage.far k)
  | _ => False

/-- What is known of a call comes to an end: everything is forgotten, one of its functions is not in the scope,
it is missing among all calls on one side of one of them, or the file of one of them is edited. -/
def Ends (v : Versions) (k : Call F) : CacheOperation F → Prop
  | clear => True
  | prune scope => k.caller ∉ scope ∨ k.callee ∉ scope
  | replace coverage f answer => compare f (coverage.near k) = .eq ∧ ¬ Listed answer (coverage.far k)
  | edit w => v.Edited w k.caller ∨ v.Edited w k.callee
  | _ => False

/-- An operation after which no counter has gone back. -/
def Forward (v : Versions) (operation : CacheOperation F) : Prop := v.Grown (operation.versions v)

end CacheOperation

namespace Cache

variable {c : Cache F} {v w : Versions} {k : Call F} {d : Dependency F} {operation : CacheOperation F}

theorem lookup_eq_some_iff : c.lookup k v = some d ↔ c.dependencies[k]? = some d ∧ d.isFresh v = true :=
  Option.filter_eq_some_iff

theorem Named.isFresh_iff (h : c.Named) (hd : c.dependencies[k]? = some d) : d.isFresh v = true ↔
    v.ofFile (Handle.sourceFile k.caller) = d.callerVersion ∧
      v.ofFile (Handle.sourceFile k.callee) = d.calleeVersion := by
  obtain ⟨hcaller, hcallee⟩ := h k d hd
  rw [Dependency.isFresh_iff, v.ofFile_congr (Handle.sourceFile_congr hcaller),
    v.ofFile_congr (Handle.sourceFile_congr hcallee)]

/-- Nothing was stored at later versions than these. -/
def Aged (v : Versions) (c : Cache F) : Prop :=
  ∀ (k : Call F) (d : Dependency F), c.dependencies[k]? = some d →
    d.callerVersion ≤ v.ofFile (Handle.sourceFile k.caller) ∧
      d.calleeVersion ≤ v.ofFile (Handle.sourceFile k.callee)

theorem aged_capture {call : Call F} (hk : compare call k = .eq) (v : Versions) :
    (Dependency.capture call v).callerVersion = v.ofFile (Handle.sourceFile k.caller) ∧
      (Dependency.capture call v).calleeVersion = v.ofFile (Handle.sourceFile k.callee) := by
  obtain ⟨hcaller, hcallee⟩ := named_capture hk v
  exact ⟨v.ofFile_congr (Handle.sourceFile_congr hcaller), v.ofFile_congr (Handle.sourceFile_congr hcallee)⟩

theorem Aged.applied (h : c.Aged v) (hf : operation.Forward v) :
    (operation.apply v c).Aged (operation.versions v) := by
  intro k d hd
  cases operation with
  | record call =>
    rw [CacheOperation.apply, getElem?_record] at hd
    split at hd
    · next hk =>
      obtain rfl := Option.some.inj hd
      exact ⟨Nat.le_of_eq (aged_capture hk v).1, Nat.le_of_eq (aged_capture hk v).2⟩
    · exact h k d hd
  | markCovered coverage f =>
    rw [CacheOperation.apply, dependencies_markCovered] at hd
    exact h k d hd
  | ask coverage f =>
    obtain ⟨hits, misses, heq⟩ := c.exists_cachedNeighbours coverage f v
    rw [CacheOperation.apply, heq] at hd
    exact h k d hd
  | replace coverage f answer =>
    rcases getElem?_replace hd with ⟨g, -, hk, rfl⟩ | ⟨-, hold⟩
    · exact ⟨Nat.le_of_eq (aged_capture hk v).1, Nat.le_of_eq (aged_capture hk v).2⟩
    · exact h k d hold
  | prune scope => exact h k d (getElem?_prune.mp hd).1
  | clear =>
    rw [CacheOperation.apply, clear, Std.TreeMap.getElem?_emptyc] at hd
    cases hd
  | edit w => exact ⟨Nat.le_trans (h k d hd).1 (hf _), Nat.le_trans (h k d hd).2 (hf _)⟩

/-! ### What one operation does to a lookup -/

/-- A call that was just recorded is found with the versions of now. -/
theorem lookup_of_records (hrecords : operation.Records k) :
    ∃ call, compare call k = .eq ∧
      (operation.apply v c).lookup k (operation.versions v) = some (.capture call v) := by
  have hfresh (call : Call F) : (Dependency.capture call v).isFresh v = true := Dependency.isFresh_iff.mpr ⟨rfl, rfl⟩
  cases operation with
  | record call =>
    refine ⟨call, hrecords, lookup_eq_some_iff.mpr ⟨?_, hfresh call⟩⟩
    exact (getElem?_record c call v k).trans (if_pos hrecords)
  | replace coverage f answer =>
    obtain ⟨hf, hlisted⟩ := hrecords
    have hcall : compare (coverage.call f (coverage.far k)) k = .eq := by
      rw [coverage.compare_iff, Coverage.near_call, Coverage.far_call]
      exact ⟨hf, compare_refl _⟩
    obtain ⟨call, hk, hd⟩ := (c.vouched_replace coverage f answer v).stored hlisted
    refine ⟨call, compare_trans hk hcall, lookup_eq_some_iff.mpr ⟨?_, hfresh call⟩⟩
    rwa [← Std.TreeMap.getElem?_congr hcall]
  | markCovered | ask | prune | clear | edit => exact hrecords.elim

/-- A call whose end has come is not found. -/
theorem lookup_of_ends (hsynced : c.Synced) (hnamed : c.Named) (haged : c.Aged v) (hends : operation.Ends v k) :
    (operation.apply v c).lookup k (operation.versions v) = none := by
  refine Option.eq_none_iff_forall_ne_some.mpr fun d hd => ?_
  obtain ⟨hstored, hfresh⟩ := lookup_eq_some_iff.mp hd
  cases operation with
  | replace coverage f answer =>
    obtain ⟨hf, hnot⟩ := hends
    -- the table of neighbours tells that a call is stored, and `f` has just got the neighbours of the answer
    have hmem : k ∈ (c.replaceNeighbours coverage f answer v).dependencies :=
      Std.TreeMap.mem_iff_isSome_getElem?.mpr (Option.isSome_of_eq_some hstored)
    rw [← coverage.call_near_far k, ← hsynced.learned coverage f answer v, mem_neighbours_replace_self hf] at hmem
    exact hnot hmem
  | prune scope =>
    have hkept := (getElem?_prune.mp hstored).2
    simp only [isStale, Bool.or_eq_false_iff, Bool.not_eq_false', Std.TreeSet.contains_iff_mem] at hkept
    exact hends.elim (fun hcaller => hcaller hkept.1.1) fun hcallee => hcallee hkept.1.2
  | clear =>
    rw [CacheOperation.apply, clear, Std.TreeMap.getElem?_emptyc] at hstored
    cases hstored
  | edit w =>
    obtain ⟨hcaller, hcallee⟩ := (hnamed.isFresh_iff hstored).mp hfresh
    obtain ⟨hold, hold'⟩ := haged k d hstored
    rcases hends with hedited | hedited
    · exact absurd (Nat.le_trans (Nat.le_of_eq hcaller) hold) (Nat.not_le.mpr hedited)
    · exact absurd (Nat.le_trans (Nat.le_of_eq hcallee) hold') (Nat.not_le.mpr hedited)
  | record | markCovered | ask => exact hends.elim

/-- Everything else leaves a lookup as it was. -/
theorem lookup_of_neither (hnamed : c.Named) (hf : operation.Forward v) (hrecords : ¬ operation.Records k)
    (hends : ¬ operation.Ends v k) :
    (operation.apply v c).lookup k (operation.versions v) = c.lookup k v := by
  cases operation with
  | record call =>
    have hsame : (c.record call v).dependencies[k]? = c.dependencies[k]? :=
      (getElem?_record c call v k).trans (if_neg hrecords)
    rw [lookup, lookup, CacheOperation.apply, hsame]
    rfl
  | markCovered coverage f =>
    rw [lookup, lookup, CacheOperation.apply, dependencies_markCovered]
    rfl
  | ask coverage f =>
    obtain ⟨hits, misses, heq⟩ := c.exists_cachedNeighbours coverage f v
    rw [CacheOperation.apply, heq]
    rfl
  | replace coverage f answer =>
    have hne : compare f (coverage.near k) ≠ .eq := by
      intro heq
      by_cases hlisted : Listed answer (coverage.far k)
      · exact hrecords ⟨heq, hlisted⟩
      · exact hends ⟨heq, hlisted⟩
    rw [lookup, lookup, CacheOperation.apply, getElem?_replace_of_ne hne]
    rfl
  | prune scope =>
    obtain ⟨hcaller, hcallee⟩ := not_or.mp hends
    refine Option.ext fun d => ?_
    have hkept : d.isFresh v = true → isStale scope v k d = false := by
      intro hfresh
      have hcaller := Std.TreeSet.contains_iff_mem.mpr (Decidable.not_not.mp hcaller)
      have hcallee := Std.TreeSet.contains_iff_mem.mpr (Decidable.not_not.mp hcallee)
      simp only [isStale, hcaller, hcallee, hfresh, Bool.not_true, Bool.or_self]
    rw [lookup_eq_some_iff, lookup_eq_some_iff, CacheOperation.apply, getElem?_prune]
    exact ⟨fun h => ⟨h.1.1, h.2⟩, fun h => ⟨⟨h.1, hkept h.2⟩, h.2⟩⟩
  | clear => exact absurd trivial hends
  | edit w =>
    obtain ⟨hcaller, hcallee⟩ := not_or.mp hends
    refine Option.ext fun d => ?_
    rw [lookup_eq_some_iff, lookup_eq_some_iff, CacheOperation.apply, CacheOperation.versions]
    refine and_congr_right fun hd => ?_
    rw [hnamed.isFresh_iff hd, hnamed.isFresh_iff hd, Versions.Edited.of_ne hf hcaller,
      Versions.Edited.of_ne hf hcallee]
    rfl

end Cache

namespace Usage

variable {u : Usage F} {k : Call F}

/-- No counter went back in all that was done so far. -/
def Forward (u : Usage F) : Prop := ∀ entry ∈ u.past, entry.2.Forward entry.1

/-- A call was recorded for the last time at certain versions, and then this was done. -/
def LastRecorded (u : Usage F) (k : Call F) (m : Versions) (since : List (Versions × CacheOperation F)) : Prop :=
  ∃ operation before, u.past = since ++ (m, operation) :: before ∧ operation.Records k ∧
    ∀ entry ∈ since, ¬ entry.2.Records k

theorem lastRecorded_perform_of_records {operation : CacheOperation F} (h : operation.Records k) {m : Versions}
    {since : List (Versions × CacheOperation F)} :
    (u.perform operation).LastRecorded k m since ↔ m = u.versions ∧ since = [] := by
  constructor
  · rintro ⟨other, before, hpast, -, hsince⟩
    cases since with
    | nil => exact ⟨(congrArg Prod.fst (List.cons.inj hpast).1).symm, rfl⟩
    | cons entry rest =>
      obtain rfl := (List.cons.inj hpast).1
      exact absurd h (hsince _ List.mem_cons_self)
  · rintro ⟨rfl, rfl⟩
    exact ⟨operation, u.past, rfl, h, nofun⟩

theorem lastRecorded_perform {operation : CacheOperation F} (h : ¬ operation.Records k) {m : Versions}
    {since : List (Versions × CacheOperation F)} :
    (u.perform operation).LastRecorded k m since ↔
      ∃ rest, since = (u.versions, operation) :: rest ∧ u.LastRecorded k m rest := by
  constructor
  · rintro ⟨other, before, hpast, hrecords, hsince⟩
    cases since with
    | nil =>
      obtain ⟨-, rfl⟩ := Prod.mk.inj (List.cons.inj hpast).1
      exact absurd hrecords h
    | cons entry rest =>
      obtain ⟨rfl, hrest⟩ := List.cons.inj hpast
      exact ⟨rest, rfl, other, before, hrest, hrecords, (List.forall_mem_cons.mp hsince).2⟩
  · rintro ⟨rest, rfl, other, before, hpast, hrecords, hrest⟩
    refine ⟨other, before, ?_, hrecords, List.forall_mem_cons.mpr ⟨h, hrest⟩⟩
    exact congrArg (List.cons _) hpast

/-- What a lookup tells of the past: a call is found only if it was recorded, as it was then if nothing has
put an end to it since, and not at all if something has. -/
structure Remembers (u : Usage F) (k : Call F) : Prop where
  recorded {d : Dependency F} : u.cache.lookup k u.versions = some d → ∃ m since, u.LastRecorded k m since
  kept {m : Versions} {since : List (Versions × CacheOperation F)} : u.LastRecorded k m since →
    (∀ entry ∈ since, ¬ entry.2.Ends entry.1 k) →
      ∃ call, compare call k = .eq ∧ u.cache.lookup k u.versions = some (.capture call m)
  ended {m : Versions} {since : List (Versions × CacheOperation F)} : u.LastRecorded k m since →
    (∃ entry ∈ since, entry.2.Ends entry.1 k) → u.cache.lookup k u.versions = none

theorem remembers_start (v : Versions) (k : Call F) : (start v : Usage F).Remembers k where
  recorded hd := by
    have hstored := (Cache.lookup_eq_some_iff.mp hd).1
    rw [start, Cache.empty, Std.TreeMap.getElem?_emptyc] at hstored
    cases hstored
  kept := by
    rintro m since ⟨operation, before, hpast, -⟩
    cases since <;> cases hpast
  ended := by
    rintro m since ⟨operation, before, hpast, -⟩
    cases since <;> cases hpast

/-- What is told of the past stays right with each operation, if the tables agree and no counter goes back. -/
theorem Remembers.perform (h : u.Remembers k) (hsynced : u.cache.Synced) (hnamed : u.cache.Named)
    (haged : u.cache.Aged u.versions) {operation : CacheOperation F} (hf : operation.Forward u.versions) :
    (u.perform operation).Remembers k := by
  by_cases hrecords : operation.Records k
  · refine ⟨fun _ => ?_, fun hlast _ => ?_, fun hlast hends => ?_⟩
    · exact ⟨u.versions, [], (lastRecorded_perform_of_records hrecords).mpr ⟨rfl, rfl⟩⟩
    · obtain ⟨rfl, -⟩ := (lastRecorded_perform_of_records hrecords).mp hlast
      exact Cache.lookup_of_records hrecords
    · obtain ⟨-, rfl⟩ := (lastRecorded_perform_of_records hrecords).mp hlast
      obtain ⟨entry, hmem, -⟩ := hends
      cases hmem
  · have hgone (hends : operation.Ends u.versions k) :
        (u.perform operation).cache.lookup k (u.perform operation).versions = none :=
      Cache.lookup_of_ends hsynced hnamed haged hends
    have hsame (hends : ¬ operation.Ends u.versions k) :
        (u.perform operation).cache.lookup k (u.perform operation).versions = u.cache.lookup k u.versions :=
      Cache.lookup_of_neither hnamed hf hrecords hends
    refine ⟨fun {d} hd => ?_, fun hlast hkept => ?_, fun hlast hends => ?_⟩
    · have hends : ¬ operation.Ends u.versions k := by
        intro hends
        rw [hgone hends] at hd
        cases hd
      obtain ⟨m, since, hlast⟩ := h.recorded ((hsame hends).symm.trans hd)
      exact ⟨m, _, (lastRecorded_perform hrecords).mpr ⟨since, rfl, hlast⟩⟩
    · obtain ⟨rest, rfl, hbefore⟩ := (lastRecorded_perform hrecords).mp hlast
      obtain ⟨hends, hrest⟩ := List.forall_mem_cons.mp hkept
      rw [hsame hends]
      exact h.kept hbefore hrest
    · obtain ⟨rest, rfl, hbefore⟩ := (lastRecorded_perform hrecords).mp hlast
      by_cases hnow : operation.Ends u.versions k
      · exact hgone hnow
      · rw [hsame hnow]
        obtain ⟨entry, hmem, hentry⟩ := hends
        rcases List.mem_cons.mp hmem with rfl | hrest
        · exact absurd hentry hnow
        · exact h.ended hbefore ⟨entry, hrest, hentry⟩

theorem Forward.of_perform {operation : CacheOperation F} (h : (u.perform operation).Forward) :
    operation.Forward u.versions ∧ u.Forward := List.forall_mem_cons.mp h

theorem remembers_run {v : Versions} {work : List (CacheOperation F)} (hf : (run v work).Forward) (k : Call F) :
    (run v work).Remembers k := by
  -- the age of what is stored and the memory of the past depend on counters that do not go back
  let P (u : Usage F) : Prop := u.cache.Synced ∧ u.cache.Named ∧
    (u.Forward → u.cache.Aged u.versions ∧ u.Remembers k)
  have hstart : P (start v) := by
    refine ⟨Cache.synced_empty, Cache.named_empty, fun _ => ⟨fun k d hd => ?_, remembers_start v k⟩⟩
    rw [start, Cache.empty, Std.TreeMap.getElem?_emptyc] at hd
    cases hd
  have hperform (u : Usage F) (operation : CacheOperation F) (hu : P u) : P (u.perform operation) := by
    obtain ⟨hsynced, hnamed, hmemory⟩ := hu
    refine ⟨hsynced.applied _ _, hnamed.applied _ _, fun hf => ?_⟩
    obtain ⟨haged, hremembers⟩ := hmemory hf.of_perform.2
    exact ⟨haged.applied hf.of_perform.1, hremembers.perform hsynced hnamed haged hf.of_perform.1⟩
  exact ((run_keeps hstart hperform work).2.2 hf).2

/-- A lookup finds the call of `b` in `a` exactly if it was recorded, by itself or with all calls on one side of
`a` or `b`, and nothing has ended it since it was recorded for the last time. What is found carries the versions
that both files had then. -/
theorem lookup_iff_recorded_since {v : Versions} {work : List (CacheOperation F)} (hf : (run v work).Forward)
    (a b : F) :
    let u := run v work
    let k : Call F := ⟨a, b⟩
    ((u.cache.lookup k u.versions).isSome = true ↔
        ∃ m since, u.LastRecorded k m since ∧ ∀ entry ∈ since, ¬ entry.2.Ends entry.1 k) ∧
      ∀ d m since, u.cache.lookup k u.versions = some d → u.LastRecorded k m since →
        d.callerVersion = m.ofFile (Handle.sourceFile a) ∧ d.calleeVersion = m.ofFile (Handle.sourceFile b) := by
  intro u k
  have h : u.Remembers k := remembers_run hf k
  have hkept {d : Dependency F} {m : Versions} {since : List (Versions × CacheOperation F)}
      (hd : u.cache.lookup k u.versions = some d) (hlast : u.LastRecorded k m since) :
      ∀ entry ∈ since, ¬ entry.2.Ends entry.1 k := by
    intro entry hentry hends
    rw [h.ended hlast ⟨entry, hentry, hends⟩] at hd
    cases hd
  refine ⟨⟨fun hsome => ?_, ?_⟩, fun d m since hd hlast => ?_⟩
  · obtain ⟨d, hd⟩ := Option.isSome_iff_exists.mp hsome
    obtain ⟨m, since, hlast⟩ := h.recorded hd
    exact ⟨m, since, hlast, hkept hd hlast⟩
  · rintro ⟨m, since, hlast, hsince⟩
    obtain ⟨call, -, hd⟩ := h.kept hlast hsince
    exact Option.isSome_of_eq_some hd
  · obtain ⟨call, hk, hcall⟩ := h.kept hlast (hkept hd hlast)
    obtain rfl := Option.some.inj (hd.symm.trans hcall)
    exact Cache.aged_capture hk m

/-- A call is recorded, the file of its caller is edited, and it is learned again from its callee. It is found with
the versions of then, although it was recorded at other versions before and the cache was pruned twice. -/
theorem relearned_call_found :
    let main := SourceFunction.named "main"
    let callee := SourceFunction.named "run"
    let files := FileVersions.start none
    let scope := Std.TreeSet.ofList [main, callee]
    let u := run files.now [.record ⟨main, callee⟩, .edit (files.bump main.file).now, .prune scope,
      .replace .callers callee [main], .prune scope]
    u.Forward ∧ ∃ d, u.cache.lookup ⟨main, callee⟩ u.versions = some d ∧ d.callerVersion = 1 ∧ d.calleeVersion = 0 := by
  intro main callee files scope u
  have hgrown : files.now.Grown (files.bump main.file).now := (files.before_bump main.file).ofFile
  have hforward : u.Forward := by
    have hstill (v : Versions) : v.Grown v := fun _ => Nat.le_refl _
    rintro entry (_ | ⟨_, _ | ⟨_, _ | ⟨_, _ | ⟨_, _ | ⟨_, ⟨⟩⟩⟩⟩⟩⟩)
    · exact hstill _
    · exact hstill _
    · exact hstill _
    · exact hgrown
    · exact hstill _
  obtain ⟨hiff, hversions⟩ := lookup_iff_recorded_since hforward main callee
  have hlast : u.LastRecorded ⟨main, callee⟩ (files.bump main.file).now [((files.bump main.file).now, .prune scope)] := by
    refine ⟨_, _, rfl, ⟨compare_refl callee, .of_mem List.mem_cons_self⟩, ?_⟩
    exact List.forall_mem_singleton.mpr id
  have hscope : main ∈ scope ∧ callee ∈ scope := by decide +kernel
  have hkept : ¬ (CacheOperation.prune scope).Ends (files.bump main.file).now ⟨main, callee⟩ := by
    rintro (hcaller | hcallee)
    · exact hcaller hscope.1
    · exact hcallee hscope.2
  have hsome := hiff.mpr ⟨_, _, hlast, List.forall_mem_singleton.mpr hkept⟩
  obtain ⟨d, hd⟩ := Option.isSome_iff_exists.mp hsome
  obtain ⟨hcaller, hcallee⟩ := hversions d _ _ hd hlast
  exact ⟨hforward, d, hd, hcaller.trans (by decide +kernel), hcallee.trans (by decide +kernel)⟩

end Usage
end CallChart
