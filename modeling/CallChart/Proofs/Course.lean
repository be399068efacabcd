import CallChart.Proofs.BoundedSearch

/-! The course that a search takes: which functions each of its rounds was about, what the cache answered, and
what the index had to be asked. -/
namespace CallChart

variable {W F α β : Type} [Handle F]

/-- One round of a search: the cache that it met, the functions it was about, the answers of the cache, the
functions that the cache had no answer for, and the answers of the index. -/
structure Leg (F : Type) [Handle F] where
  coverage : Coverage
  cache : Cache F
  round : List F
  known : Answers F
  pending : List F
  learned : Answers F

namespace Leg

/-- The functions that the cache was asked about, and in which direction. -/
def consulted (leg : Leg F) : List (Coverage × F) := leg.round.map (leg.coverage, ·)

/-- The functions that the cache had no answer for. -/
def missed (leg : Leg F) : List (Coverage × F) := leg.pending.map (leg.coverage, ·)

/-- Some answer of a round names a function. -/
def Names (leg : Leg F) (g : F) : Prop := ∃ answer ∈ leg.known ++ leg.learned, Listed answer.2 g

/-- The cache served some of the functions of a round and had no answer for the others. -/
structure Met (leg : Leg F) (s : Surroundings W F) (I : W → Prop) : Prop where
  functions : (leg.known.map Prod.fst ++ leg.pending).Perm leg.round
  served : ∀ answer ∈ leg.known, s.Served I leg.coverage leg.cache answer
  missed : ∀ f ∈ leg.pending,
    ∃ w, I w ∧ leg.cache.freshNeighbours? leg.coverage f (s.versions.run w).1 = none

end Leg

namespace Surroundings

open ExceptT

/-- A search goes through rounds, up to a result or to a round that fails. A round that is cancelled at once asks
nothing. -/
inductive Course (s : Surroundings W F) (asking : Asking W F) :
    Inquiry F α → Search W F → List (Leg F) → Except ResolveError α → Search W F → Prop where
  | done {a : α} {σ : Search W F} : Course s asking (.done a) σ [] (.ok a) σ
  | unbounded {σ : Search W F} : Course s asking .unbounded σ [] (.error .unbounded) σ
  | stopped {coverage : Coverage} {counted : Bool} {round : List F} {next : Answers F → Inquiry F α}
      {σ : Search W F} : (s.cancelled.run σ.world).1 = true →
      Course s asking (.ask coverage counted round next) σ [] (.error .cancelled) (s.checked σ)
  | failed {coverage : Coverage} {counted : Bool} {round pending : List F} {next : Answers F → Inquiry F α}
      {known : Answers F} {e : ResolveError} {σ ρ τ : Search W F} : (s.cancelled.run σ.world).1 = false →
      (s.consult coverage counted round).run (s.checked σ) = ((known, pending), ρ) →
      (asking coverage counted pending).after ρ = (.error e, τ) →
      Course s asking (.ask coverage counted round next) σ [⟨coverage, σ.cache, round, known, pending, []⟩]
        (.error e) τ
  | round {coverage : Coverage} {counted : Bool} {round pending : List F} {next : Answers F → Inquiry F α}
      {known learned : Answers F} {legs : List (Leg F)} {outcome : Except ResolveError α} {σ ρ ρ' τ : Search W F} :
      (s.cancelled.run σ.world).1 = false →
      (s.consult coverage counted round).run (s.checked σ) = ((known, pending), ρ) →
      (asking coverage counted pending).after ρ = (.ok learned, ρ') →
      Course s asking (next (known ++ learned)) ((s.commit coverage learned).run ρ').2 legs outcome τ →
      Course s asking (.ask coverage counted round next) σ
        (⟨coverage, σ.cache, round, known, pending, learned⟩ :: legs) outcome τ

variable {s : Surroundings W F} {I : W → Prop} {asking : Asking W F} {q : Inquiry F α} {σ τ : Search W F}
  {legs : List (Leg F)} {outcome : Except ResolveError α}

/-- Every search takes its course. -/
theorem exists_course (h : (s.pursueBy asking q).after σ = (outcome, τ)) :
    ∃ legs, s.Course asking q σ legs outcome τ := by
  induction q generalizing σ with
  | done a =>
    cases h
    exact ⟨[], .done⟩
  | unbounded =>
    cases h
    exact ⟨[], .unbounded⟩
  | ask coverage counted round next ih =>
    rw [pursueBy_ask, after_bind] at h
    rcases hround : (s.answerRoundBy asking coverage counted round).after σ with ⟨e | answers, ρ⟩
    · rw [hround] at h
      cases h
      cases answerRoundBy_ends hround with
      | stopped hcancelled => exact ⟨_, .stopped hcancelled⟩
      | failed hgoing hconsult hasked => exact ⟨_, .failed hgoing hconsult hasked⟩
    · rw [hround] at h
      cases answerRoundBy_ends hround with
      | learned hgoing hconsult hasked =>
        obtain ⟨legs, hlegs⟩ := ih _ h
        exact ⟨_, .round hgoing hconsult hasked hlegs⟩

namespace Course

/-- The course of one inquiry followed by another is that of the first, and of the second if the first succeeds. -/
theorem of_bind {more : α → Inquiry F β} {outcome : Except ResolveError β}
    (h : s.Course asking (q.bind more) σ legs outcome τ) :
    (∃ e, s.Course asking q σ legs (.error e) τ) ∨
      ∃ a ρ first rest, s.Course asking q σ first (.ok a) ρ ∧ s.Course asking (more a) ρ rest outcome τ ∧
        legs = first ++ rest := by
  induction q generalizing σ legs with
  | done a => exact .inr ⟨a, σ, [], legs, .done, h, rfl⟩
  | unbounded =>
    cases h
    exact .inl ⟨_, .unbounded⟩
  | ask coverage counted round next ih =>
    cases h with
    | stopped hcancelled => exact .inl ⟨_, .stopped hcancelled⟩
    | failed hgoing hconsult hasked => exact .inl ⟨_, .failed hgoing hconsult hasked⟩
    | round hgoing hconsult hasked hrest =>
      rcases ih _ hrest with ⟨e, hfirst⟩ | ⟨a, ρ, first, rest, hfirst, hmore, rfl⟩
      · exact .inl ⟨e, .round hgoing hconsult hasked hfirst⟩
      · exact .inr ⟨a, ρ, _, rest, .round hgoing hconsult hasked hfirst, hmore, rfl⟩

/-- The functions of a round have an answer in the cache, or the index is asked about them. -/
theorem met (ha : s.AtOnce asking) (hs : s.Keeps I) (h : s.Course asking q σ legs outcome τ) (hw : I σ.world) :
    ∀ leg ∈ legs, leg.Met s I := by
  induction h with
  | done => exact fun _ hleg => absurd hleg List.not_mem_nil
  | unbounded => exact fun _ hleg => absurd hleg List.not_mem_nil
  | stopped => exact fun _ hleg => absurd hleg List.not_mem_nil
  | @failed coverage counted round pending next known e σ ρ τ _ hconsult _ =>
    have hc := consulted hs coverage counted round (σ := s.checked σ) (hs.cancelled hw)
    rw [hconsult] at hc
    exact List.forall_mem_cons.mpr
      ⟨⟨hc.functions, hc.served, hc.missed⟩, fun _ hleg => absurd hleg List.not_mem_nil⟩
  | @round coverage counted round pending next known learned legs outcome σ ρ ρ' τ _ hconsult hasked _ ih =>
    have hc := consulted hs coverage counted round (σ := s.checked σ) (hs.cancelled hw)
    rw [hconsult] at hc
    have hlearned := ha.queried hs hasked hc.world
    have hcommitted : I ((s.commit coverage learned).run ρ').2.world :=
      (commit_keeps hs (P := fun _ => True) (fun _ _ _ _ _ _ => trivial) hlearned.world trivial).1
    exact List.forall_mem_cons.mpr ⟨⟨hc.functions, hc.served, hc.missed⟩, ih hcommitted⟩

/-- As long as answers name functions of a project only, a search asks about such functions. -/
theorem inside {project : Std.TreeSet F} (ha : s.AtOnce asking) (hs : s.Confined I project) {Q : α → Prop}
    (hq : q.Confined project Q) (h : s.Course asking q σ legs outcome τ) (hw : I σ.world)
    (hc : σ.cache.Inside project) : ∀ leg ∈ legs, ∀ f ∈ leg.round, f ∈ project := by
  induction h with
  | done => exact fun _ hleg => absurd hleg List.not_mem_nil
  | unbounded => exact fun _ hleg => absurd hleg List.not_mem_nil
  | stopped => exact fun _ hleg => absurd hleg List.not_mem_nil
  | failed =>
    exact List.forall_mem_cons.mpr ⟨hq.1, fun _ hleg => absurd hleg List.not_mem_nil⟩
  | round hgoing hconsult hasked _ ih =>
    have hround := after_of_ends (.learned hgoing hconsult hasked)
    obtain ⟨hw', hc', hanswers⟩ := ha.round_confined hs hq.1 hround hw hc
    exact List.forall_mem_cons.mpr ⟨hq.1, ih (hq.2 _ hanswers) hw' hc'⟩

end Course

end Surroundings
end CallChart
