import CallChart.Closure
import CallChart.Proofs.CacheTrust
import CallChart.Proofs.Steps

/-! What one round of a search does: from where its answers come, and what is left of it in the cache
when it succeeds and when it fails. The world may change at every look, so nothing more is asked of
it than a property that all looks keep. -/
namespace CallChart

variable {W F α β : Type} [Handle F]

/-- Two caches that differ at most in their counts of hits and misses. -/
def Cache.Recounted (c d : Cache F) : Prop :=
  ∃ hits misses, d = { c with hits := hits, misses := misses }

namespace Cache.Recounted

theorem refl (c : Cache F) : c.Recounted c := ⟨c.hits, c.misses, rfl⟩

theorem trans {b c d : Cache F} (hbc : b.Recounted c) (hcd : c.Recounted d) : b.Recounted d := by
  obtain ⟨_, _, rfl⟩ := hbc
  obtain ⟨hits, misses, rfl⟩ := hcd
  exact ⟨hits, misses, rfl⟩

theorem freshNeighbours? {c d : Cache F} (h : c.Recounted d) (coverage : Coverage) (f : F)
    (v : Versions) : d.freshNeighbours? coverage f v = c.freshNeighbours? coverage f v := by
  obtain ⟨_, _, rfl⟩ := h
  rfl

theorem keeps {c d : Cache F} (h : c.Recounted d) {P : Cache F → Prop}
    (hcounted : ∀ (c : Cache F) hits misses, P c → P { c with hits := hits, misses := misses })
    (hc : P c) : P d := by
  obtain ⟨hits, misses, rfl⟩ := h
  exact hcounted c hits misses hc

end Cache.Recounted

namespace Surroundings

variable {s : Surroundings W F} {I : W → Prop} {coverage : Coverage} {counted : Bool}

/-- What holds of the world whatever the search looks at. -/
structure Keeps (s : Surroundings W F) (I : W → Prop) : Prop where
  cancelled {w : W} : I w → I (s.cancelled.run w).2
  versions {w : W} : I w → I (s.versions.run w).2
  ask {w : W} (coverage : Coverage) (f : F) : I w → I ((s.ask coverage f).run w).2
  progress {w : W} (n : Nat) : I w → I ((s.progress n).run w).2

theorem keeps_true (s : Surroundings W F) : s.Keeps fun _ => True :=
  ⟨fun _ => trivial, fun _ => trivial, fun _ _ _ => trivial, fun _ _ => trivial⟩

/-- A list has been asked of the world and was answered in full. -/
def Told (s : Surroundings W F) (I : W → Prop) (coverage : Coverage) (answer : F × List F) : Prop :=
  ∃ w found, I w ∧ ((s.ask coverage answer.1).run w).1 = .ok found ∧ answer.2 = found.toList

/-- A list is what the cache serves at the versions that the world shows. -/
def Served (s : Surroundings W F) (I : W → Prop) (coverage : Coverage) (c : Cache F)
    (answer : F × List F) : Prop :=
  ∃ w, I w ∧ c.freshNeighbours? coverage answer.1 (s.versions.run w).1 = some answer.2

theorem after_observe (view : StateM W α) (σ : Search W F) :
    (Search.observe view : Searching W F α).after σ =
      (.ok (view.run σ.world).1, { σ with world := (view.run σ.world).2 }) := rfl

theorem after_checkCancelled (s : Surroundings W F) (σ : Search W F) :
    s.checkCancelled.after σ =
      (if (s.cancelled.run σ.world).1 then .error .cancelled else .ok (),
        { σ with world := (s.cancelled.run σ.world).2 }) := by
  rw [checkCancelled, ExceptT.after_bind, after_observe]
  dsimp only
  split <;> rfl

theorem run_tickIf (s : Surroundings W F) (counted : Bool) (σ : Search W F) :
    ((s.tickIf counted).run σ).2 =
      { σ with
        world := if counted then ((s.progress (σ.processed + 1)).run σ.world).2 else σ.world
        processed := σ.processed + if counted then 1 else 0 } := by
  cases counted <;> rfl

theorem Keeps.tickIf (hs : s.Keeps I) (counted : Bool) {σ : Search W F} (hw : I σ.world) :
    I ((s.tickIf counted).run σ).2.world := by
  rw [run_tickIf]
  cases counted with
  | false => exact hw
  | true => exact hs.progress _ hw

/-! ### The cache is asked -/

/-- What asking the cache about a round brings: answers for some functions, and the others. -/
structure Consulted (s : Surroundings W F) (I : W → Prop) (coverage : Coverage) (counted : Bool)
    (round : List F) (σ τ : Search W F) (answers : Answers F) (pending : List F) : Prop where
  world : I τ.world
  cache : σ.cache.Recounted τ.cache
  processed : τ.processed = σ.processed + if counted then answers.length else 0
  functions : (answers.map Prod.fst ++ pending).Perm round
  served : ∀ answer ∈ answers, s.Served I coverage σ.cache answer
  missed : ∀ f ∈ pending, ∃ w, I w ∧ σ.cache.freshNeighbours? coverage f (s.versions.run w).1 = none

/-- Counts of hits and misses make no difference to what the cache was asked. -/
theorem Consulted.recounted {round pending : List F} {σ ρ τ : Search W F} {answers : Answers F}
    (h : Consulted s I coverage counted round ρ τ answers pending) (hc : σ.cache.Recounted ρ.cache) :
    (∀ answer ∈ answers, s.Served I coverage σ.cache answer) ∧
      ∀ f ∈ pending, ∃ w, I w ∧ σ.cache.freshNeighbours? coverage f (s.versions.run w).1 = none := by
  constructor
  · intro answer ha
    obtain ⟨w, hw, hserved⟩ := h.served answer ha
    refine ⟨w, hw, ?_⟩
    rw [← hc.freshNeighbours?]
    exact hserved
  · intro f hf
    obtain ⟨w, hw, hmissed⟩ := h.missed f hf
    refine ⟨w, hw, ?_⟩
    rw [← hc.freshNeighbours?]
    exact hmissed

/-- The search after the cache was asked about one function. -/
def asked (s : Surroundings W F) (coverage : Coverage) (f : F) (σ : Search W F) : Search W F :=
  { σ with
    world := (s.versions.run σ.world).2
    cache := (σ.cache.cachedNeighbours coverage f (s.versions.run σ.world).1).2 }

theorem recounted_asked (s : Surroundings W F) (coverage : Coverage) (f : F) (σ : Search W F) :
    σ.cache.Recounted (s.asked coverage f σ).cache := by
  change σ.cache.Recounted (σ.cache.cachedNeighbours coverage f (s.versions.run σ.world).1).2
  unfold Cache.cachedNeighbours
  split
  · exact ⟨σ.cache.hits + 1, σ.cache.misses, rfl⟩
  · exact ⟨σ.cache.hits, σ.cache.misses + 1, rfl⟩

theorem run_consult_hit {f : F} {rest known : List F} {σ : Search W F}
    (h : σ.cache.freshNeighbours? coverage f (s.versions.run σ.world).1 = some known) :
    (s.consult coverage counted (f :: rest)).run σ =
      let τ := ((s.tickIf counted).run (s.asked coverage f σ)).2
      let out := (s.consult coverage counted rest).run τ
      (((f, known) :: out.1.1, out.1.2), out.2) := by
  have hasked : (Search.withCache s.versions fun v c => c.cachedNeighbours coverage f v).run σ =
      (some known, s.asked coverage f σ) := by
    have hc : (σ.cache.cachedNeighbours coverage f (s.versions.run σ.world).1).1 = some known := by
      simp [Cache.cachedNeighbours, h]
    rw [← hc]
    rfl
  simp only [consult, StateT.run_bind, hasked]
  rfl

theorem run_consult_miss {f : F} {rest : List F} {σ : Search W F}
    (h : σ.cache.freshNeighbours? coverage f (s.versions.run σ.world).1 = none) :
    (s.consult coverage counted (f :: rest)).run σ =
      let out := (s.consult coverage counted rest).run (s.asked coverage f σ)
      ((out.1.1, f :: out.1.2), out.2) := by
  have hasked : (Search.withCache s.versions fun v c => c.cachedNeighbours coverage f v).run σ =
      (none, s.asked coverage f σ) := by
    have hc : (σ.cache.cachedNeighbours coverage f (s.versions.run σ.world).1).1 = none := by
      simp [Cache.cachedNeighbours, h]
    rw [← hc]
    rfl
  simp only [consult, StateT.run_bind, hasked]
  rfl

theorem consulted (hs : s.Keeps I) (coverage : Coverage) (counted : Bool) (round : List F)
    {σ : Search W F} (hw : I σ.world) :
    Consulted s I coverage counted round σ ((s.consult coverage counted round).run σ).2
      ((s.consult coverage counted round).run σ).1.1 ((s.consult coverage counted round).run σ).1.2 := by
  induction round generalizing σ with
  | nil =>
    have hprocessed : σ.processed = σ.processed + if counted then ([] : Answers F).length else 0 := by
      cases counted <;> rfl
    exact ⟨hw, .refl _, hprocessed, .nil, nofun, nofun⟩
  | cons f rest ih =>
    have hrecounted := s.recounted_asked coverage f σ
    cases hk : σ.cache.freshNeighbours? coverage f (s.versions.run σ.world).1 with
    | none =>
      rw [run_consult_miss hk]
      have h := ih (σ := s.asked coverage f σ) (hs.versions hw)
      obtain ⟨hserved, hmissed⟩ := h.recounted hrecounted
      refine ⟨h.world, hrecounted.trans h.cache, h.processed, ?_, hserved, ?_⟩
      · exact List.perm_middle.trans (h.functions.cons f)
      · exact List.forall_mem_cons.mpr ⟨⟨σ.world, hw, hk⟩, hmissed⟩
    | some known =>
      rw [run_consult_hit hk]
      have h := ih (hs.tickIf counted (σ := s.asked coverage f σ) (hs.versions hw))
      rw [run_tickIf] at h ⊢
      obtain ⟨hserved, hmissed⟩ := h.recounted (σ := σ) hrecounted
      refine ⟨h.world, hrecounted.trans h.cache, ?_, h.functions.cons f, ?_, hmissed⟩
      · have hprocessed := h.processed
        cases counted with
        | false => exact hprocessed
        | true =>
          simp only [if_true, List.length_cons] at hprocessed ⊢
          rw [hprocessed]
          simp only [asked]
          omega
      · exact List.forall_mem_cons.mpr ⟨⟨σ.world, hw, hk⟩, hserved⟩

/-! ### The index is asked -/

/-- What asking the index about functions brings, if it answers about all of them. -/
structure Queried (s : Surroundings W F) (I : W → Prop) (coverage : Coverage) (counted : Bool)
    (functions : List F) (σ τ : Search W F) (answers : Answers F) : Prop where
  world : I τ.world
  cache : τ.cache = σ.cache
  processed : τ.processed = σ.processed + if counted then functions.length else 0
  functions : answers.map Prod.fst = functions
  told : ∀ answer ∈ answers, s.Told I coverage answer

/-- The search after it was seen whether it is to stop. -/
def checked (s : Surroundings W F) (σ : Search W F) : Search W F :=
  { σ with world := (s.cancelled.run σ.world).2 }

theorem after_query (s : Surroundings W F) (coverage : Coverage) (counted : Bool) (f : F)
    (σ : Search W F) :
    (s.query coverage counted f).after σ =
      if (s.cancelled.run σ.world).1 then (.error .cancelled, s.checked σ)
      else
        let reply := (s.ask coverage f).run (s.checked σ).world
        match reply.1 with
        | .ok found =>
          (.ok (f, found.toList), ((s.tickIf counted).run { s.checked σ with world := reply.2 }).2)
        | .error e => (.error (.index e), { s.checked σ with world := reply.2 }) := by
  rw [query, ExceptT.after_bind, after_checkCancelled]
  cases (s.cancelled.run σ.world).1 with
  | true => rfl
  | false =>
    simp only [Bool.false_eq_true, if_false]
    rw [ExceptT.after_bind, after_observe]
    dsimp only [checked]
    rcases (s.ask coverage f).run (s.cancelled.run σ.world).2 with ⟨_ | _, w⟩ <;> rfl

/-! ### The cache learns -/

/-- The cache learns the answers of a round at versions that the world shows. -/
theorem commit_keeps (hs : s.Keeps I) {P : Cache F → Prop} {answers : Answers F}
    (hlearn : ∀ c w, ∀ answer ∈ answers, P c → I w →
      P (c.replaceNeighbours coverage answer.1 answer.2 (s.versions.run w).1))
    {σ : Search W F} (hw : I σ.world) (hP : P σ.cache) :
    I ((s.commit coverage answers).run σ).2.world ∧ P ((s.commit coverage answers).run σ).2.cache := by
  induction answers generalizing σ with
  | nil => exact ⟨hw, hP⟩
  | cons answer rest ih =>
    exact ih (fun c w a ha => hlearn c w a (List.mem_cons_of_mem answer ha)) (hs.versions hw)
      (hlearn σ.cache σ.world answer List.mem_cons_self hP hw)

theorem processed_commit (s : Surroundings W F) (coverage : Coverage) (answers : Answers F)
    (σ : Search W F) : ((s.commit coverage answers).run σ).2.processed = σ.processed := by
  induction answers generalizing σ with
  | nil => rfl
  | cons answer rest ih => exact ih _

end Surroundings

/-- The answers of an index about the functions of a round, in any order. -/
structure CallIndex.Answers (index : CallIndex F) (coverage : Coverage) (round : List F)
    (answers : CallChart.Answers F) : Prop where
  functions : (answers.map Prod.fst).Perm round
  right : ∀ answer ∈ answers, index.IsAnswer coverage answer.1 answer.2

namespace Surroundings

variable {s : Surroundings W F} {I : W → Prop} {coverage : Coverage} {counted : Bool}
  {index : CallIndex F}

/-- Surroundings in which answers are those of an index. Any question may stay unanswered. -/
structure Faithful (s : Surroundings W F) (I : W → Prop) (index : CallIndex F) : Prop
    extends s.Keeps I where
  answers {w : W} {coverage : Coverage} {f : F} {found : Std.TreeSet F} : I w →
    ((s.ask coverage f).run w).1 = .ok found → index.neighbours coverage f = .ok found
  schedule (fs : List F) : (s.schedule fs).Perm fs

/-- Surroundings in which nothing is cancelled and the index answers every question. -/
structure Calm (s : Surroundings W F) (I : W → Prop) (index : CallIndex F) : Prop
    extends s.Keeps I where
  quiet {w : W} : I w → (s.cancelled.run w).1 = false
  answers {w : W} (coverage : Coverage) (f : F) : I w →
    ((s.ask coverage f).run w).1 = index.neighbours coverage f
  schedule (fs : List F) : (s.schedule fs).Perm fs
  population : index.population ≤ s.population

theorem Calm.faithful (hs : s.Calm I index) : s.Faithful I index where
  toKeeps := hs.toKeeps
  answers hw h := hs.answers _ _ hw ▸ h
  schedule := hs.schedule

/-- What a cache is trusted for stays true when it learns what it was told. -/
theorem Faithful.learned (hs : s.Faithful I index) {V : Versions → Prop}
    (hV : ∀ w, I w → V (s.versions.run w).1) {P : Cache F → Prop} (trust : Trust P index V coverage)
    (c : Cache F) (w : W) (answer : F × List F) (ha : s.Told I coverage answer) (hP : P c) (hw : I w) :
    P (c.replaceNeighbours coverage answer.1 answer.2 (s.versions.run w).1) := by
  obtain ⟨w', found, hw', hreply, htold⟩ := ha
  rw [htold]
  exact trust.learned hP (hV w hw) (CallIndex.isAnswer_toList (hs.answers hw' hreply))

/-- What the cache serves and what the index tells are together answers about all functions of a round. -/
theorem Consulted.complete (hschedule : ∀ fs, (s.schedule fs).Perm fs) {round pending : List F} {σ ρ τ : Search W F}
    {known learned : Answers F} (hc : Consulted s I coverage counted round σ ρ known pending)
    (hq : Queried s I coverage counted (s.schedule pending) ρ τ learned) :
    ((known ++ learned).map Prod.fst).Perm round ∧
      τ.processed = σ.processed + if counted then round.length else 0 := by
  have hperm := hschedule pending
  constructor
  · rw [List.map_append, hq.functions]
    exact (hperm.append_left _).trans hc.functions
  · rw [hq.processed, hc.processed]
    have hlength := hc.functions.length_eq
    rw [List.length_append, List.length_map] at hlength
    cases counted with
    | false => rfl
    | true => simp only [if_true, hperm.length_eq]; omega

/-- The index tells about different functions if the functions of a round differ. -/
theorem distinct_learned {round : List F} {known learned : Answers F}
    (hfunctions : ((known ++ learned).map Prod.fst).Perm round)
    (hdistinct : round.Pairwise fun f g => compare f g ≠ .eq) :
    learned.Pairwise fun a b => compare a.1 b.1 ≠ .eq := by
  have hall := hdistinct.perm hfunctions.symm fun hne heq => hne (compare_symm heq)
  rw [List.pairwise_map, List.pairwise_append] at hall
  exact hall.2.1

/-- If the cache can be trusted, these are the index's answers. -/
theorem Consulted.answers (hs : s.Faithful I index) {V : Versions → Prop}
    (hV : ∀ w, I w → V (s.versions.run w).1) {P : Cache F → Prop} (trust : Trust P index V coverage)
    {round pending : List F} {σ ρ τ : Search W F} {known learned : Answers F}
    (hc : Consulted s I coverage counted round σ ρ known pending)
    (hq : Queried s I coverage counted (s.schedule pending) ρ τ learned) (hP : P σ.cache) :
    index.Answers coverage round (known ++ learned) ∧
      τ.processed = σ.processed + if counted then round.length else 0 := by
  obtain ⟨hfunctions, hprocessed⟩ := hc.complete hs.schedule hq
  refine ⟨⟨hfunctions, fun answer ha => ?_⟩, hprocessed⟩
  rcases List.mem_append.mp ha with hknown | hlearned
  · obtain ⟨w, hw', hserved⟩ := hc.served answer hknown
    exact trust.served hP (hV w hw') hserved
  · obtain ⟨w, found, hw', hreply, htold⟩ := hq.told answer hlearned
    rw [htold]
    exact CallIndex.isAnswer_toList (hs.answers hw' hreply)

end Surroundings
end CallChart
