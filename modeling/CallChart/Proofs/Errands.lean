import CallChart.Proofs.AtOnce

/-! What comes of the questions of a round that are asked at once. Every answer was told by the index, and
every failure has its cause, so a round comes to the same however its questions are asked. -/
namespace CallChart

variable {W F α : Type} [Handle F]

/-! ### How many were counted -/

/-- A round about so many functions counts them or not. -/
def share (counted : Bool) (functions : Nat) : Nat := if counted then functions else 0

theorem share_add (counted : Bool) (n m : Nat) : share counted (n + m) = share counted n + share counted m := by
  cases counted <;> rfl

/-- A function was answered, and counted if it was to be. -/
def Errand.hasCounted : Errand F → Bool
  | counted _ _ | done _ => true
  | _ => false

namespace Crew

/-- How many of some errands have counted their functions. -/
def tallied (errands : List (F × Errand F)) : Nat := errands.countP fun errand => errand.2.hasCounted

omit [Handle F] in
theorem tallied_append (errands rest : List (F × Errand F)) (errand : F × Errand F) :
    tallied (errands ++ errand :: rest) = tallied errands + (tallied rest + if errand.2.hasCounted then 1 else 0) := by
  rw [tallied, List.countP_append, List.countP_cons]
  rfl

omit [Handle F] in
theorem tallied_begin (w : W) (n : Nat) (functions : List F) : tallied (begin w n functions).errands = 0 := by
  refine List.countP_eq_zero.mpr fun errand herrand => ?_
  obtain ⟨f, -, rfl⟩ := List.mem_map.mp herrand
  exact Bool.false_ne_true

omit [Handle F] in
/-- If all questions were answered, all functions were counted. -/
theorem Ends.tallied {c : Crew W F} {answers : Answers F} (h : c.Ends (.ok answers)) :
    tallied c.errands = c.errands.length := by
  have herrands : c.errands = answers.map fun answer => (answer.1, .done answer.2) := h
  refine List.countP_eq_length.mpr fun errand herrand => ?_
  rw [herrands] at herrand
  obtain ⟨answer, -, rfl⟩ := List.mem_map.mp herrand
  rfl

end Crew

/-! ### What an errand brings -/

/-- Why nothing was learned about some functions: the search is to stop, or the index does not answer about one
of them. -/
def Surroundings.Hindered (s : Surroundings W F) (I : W → Prop) (coverage : Coverage) (functions : List F) :
    ResolveError → Prop
  | .cancelled => ∃ w, I w ∧ (s.cancelled.run w).1 = true
  | .index error => ∃ f ∈ functions, ∃ w, I w ∧ ((s.ask coverage f).run w).1 = .error error
  | .unbounded => False

theorem Surroundings.Hindered.mono {s : Surroundings W F} {I : W → Prop} {coverage : Coverage}
    {functions others : List F} {e : ResolveError} (h : s.Hindered I coverage functions e)
    (hsub : ∀ f ∈ functions, f ∈ others) : s.Hindered I coverage others e := by
  cases e with
  | cancelled => exact h
  | index error =>
    obtain ⟨f, hf, hreply⟩ := h
    exact ⟨f, hsub f hf, hreply⟩
  | unbounded => exact h

/-- What an errand brings was told, and if it failed there was a cause. -/
def Errand.Honest (s : Surroundings W F) (I : W → Prop) (coverage : Coverage) (f : F) : Errand F → Prop
  | answered found | counted _ found | done found => s.Told I coverage (f, found)
  | failed error => s.Hindered I coverage [f] error
  | waiting | leaving | dropped => True

namespace Crew

variable {s : Surroundings W F} {I : W → Prop} {coverage : Coverage} {counted : Bool} {before : Nat}

omit [Handle F] in
/-- What is true of all errands stays true when it is true of the one that goes on. -/
theorem forall_replace {P : F × Errand F → Prop} {before rest : List (F × Errand F)} {errand errand' : F × Errand F}
    (h : ∀ e ∈ before ++ errand :: rest, P e) (hnew : P errand → P errand') : ∀ e ∈ before ++ errand' :: rest, P e := by
  rw [List.forall_mem_append, List.forall_mem_cons] at h ⊢
  exact ⟨h.1, hnew h.2.1, h.2.2⟩

/-- All errands are honest, and those functions are counted that were answered. -/
structure Honest (s : Surroundings W F) (I : W → Prop) (coverage : Coverage) (counted : Bool) (before : Nat)
    (c : Crew W F) : Prop where
  world : I c.world
  processed : c.processed = before + share counted (tallied c.errands)
  errands : ∀ errand ∈ c.errands, errand.2.Honest s I coverage errand.1

theorem honest_begin {w : W} (hw : I w) (n : Nat) (functions : List F) :
    Honest s I coverage counted n (begin w n functions) := by
  refine ⟨hw, ?_, ?_⟩
  · rw [tallied_begin]
    cases counted <;> rfl
  · intro errand herrand
    obtain ⟨f, -, rfl⟩ := List.mem_map.mp herrand
    trivial

/-- An errand that goes on and counts nothing. -/
theorem Honest.move {f : F} {w w' : W} {n : Nat} {e e' : Errand F} {errands rest : List (F × Errand F)}
    (h : Honest s I coverage counted before ⟨w, n, errands ++ (f, e) :: rest⟩) (hw : I w')
    (hcounted : counted = true → e'.hasCounted = e.hasCounted)
    (hhonest : e.Honest s I coverage f → e'.Honest s I coverage f) :
    Honest s I coverage counted before ⟨w', n, errands ++ (f, e') :: rest⟩ := by
  refine ⟨hw, h.processed.trans ?_, forall_replace h.errands hhonest⟩
  cases counted with
  | false => rfl
  | true => rw [tallied_append, tallied_append, hcounted rfl]

/-- The function of an errand that goes on is counted. -/
theorem Honest.count {f : F} {w : W} {n number : Nat} {found : List F} {errands rest : List (F × Errand F)}
    (h : Honest s I coverage counted before ⟨w, n, errands ++ (f, .answered found) :: rest⟩)
    (hcounted : counted = true) :
    Honest s I coverage counted before ⟨w, n + 1, errands ++ (f, .counted number found) :: rest⟩ := by
  subst hcounted
  refine ⟨h.world, ?_, forall_replace h.errands id⟩
  have hone : tallied (errands ++ (f, .counted number found) :: rest) =
      tallied (errands ++ (f, .answered found) :: rest) + 1 := by
    rw [tallied_append, tallied_append]
    rfl
  rw [hone]
  exact congrArg (· + 1) h.processed

theorem Honest.step (hs : s.Keeps I) {c c' : Crew W F} (h : Honest s I coverage counted before c)
    (hstep : Step s coverage counted c c') : Honest s I coverage counted before c' := by
  have hw := h.world
  cases hstep with
  | drop errands rest _ => exact h.move hw (fun _ => rfl) fun _ => trivial
  | advance errands rest hadvance =>
    cases hadvance with
    | leave _ => exact h.move (hs.cancelled hw) (fun _ => rfl) fun _ => trivial
    | stop hstop => exact h.move (hs.cancelled hw) (fun _ => rfl) fun _ => ⟨_, hw, hstop⟩
    | ask hreply => exact h.move (hs.ask _ _ hw) (fun _ => rfl) fun _ => ⟨_, _, hw, hreply, rfl⟩
    | fail hreply => exact h.move (hs.ask _ _ hw) (fun _ => rfl) fun _ => ⟨_, List.mem_cons_self, _, hw, hreply⟩
    | tell => exact h.move (hs.progress _ hw) (fun _ => rfl) id
    | keep hcounted => exact h.move hw (fun htrue => by cases hcounted.symm.trans htrue) id
    | count hcounted => exact h.count hcounted

theorem Honest.run (hs : s.Keeps I) {c c' : Crew W F} (h : Honest s I coverage counted before c)
    (hrun : Run s coverage counted c c') : Honest s I coverage counted before c' := by
  induction hrun with
  | refl => exact h
  | tail _ hstep ih => exact ih.step hs hstep

end Crew

namespace Surroundings

open ExceptT

variable {s : Surroundings W F} {I : W → Prop} {asking : Asking W F} {coverage : Coverage} {counted : Bool}
  {σ τ : Search W F}

/-- What asking at once comes to if it succeeds is what asking in turn comes to. -/
theorem AtOnce.queried (ha : s.AtOnce asking) (hs : s.Keeps I) {functions : List F} {answers : Answers F}
    (h : (asking coverage counted functions).after σ = (.ok answers, τ)) (hw : I σ.world) :
    Queried s I coverage counted (s.schedule functions) σ τ answers := by
  have hfunctions := ha.functions h
  obtain ⟨c, hrun, hends, hlast⟩ := ha coverage counted functions σ
  rw [h] at hends hlast
  obtain rfl : τ = ⟨c.world, σ.cache, c.processed⟩ := hlast
  have hhonest := (Crew.honest_begin hw σ.processed (s.schedule functions)).run hs hrun
  have herrands : c.errands = answers.map fun answer => (answer.1, .done answer.2) := hends
  refine ⟨hhonest.world, rfl, ?_, hfunctions, fun answer hanswer => ?_⟩
  · have htallied : Crew.tallied c.errands = (s.schedule functions).length := by
      rw [Crew.Ends.tallied hends, herrands, List.length_map, ← hfunctions, List.length_map]
    exact htallied ▸ hhonest.processed
  · have hall := hhonest.errands
    rw [herrands] at hall
    exact hall _ (List.mem_map_of_mem hanswer)

/-- If asking at once fails, then for a cause. -/
theorem AtOnce.hindered (ha : s.AtOnce asking) (hs : s.Keeps I) {functions : List F} {e : ResolveError}
    (h : (asking coverage counted functions).after σ = (.error e, τ)) (hw : I σ.world) :
    I τ.world ∧ τ.cache = σ.cache ∧ s.Hindered I coverage (s.schedule functions) e := by
  obtain ⟨c, hrun, hends, hlast⟩ := ha coverage counted functions σ
  rw [h] at hends hlast
  obtain rfl : τ = ⟨c.world, σ.cache, c.processed⟩ := hlast
  have hhonest := (Crew.honest_begin hw σ.processed (s.schedule functions)).run hs hrun
  obtain ⟨⟨f, hf⟩, -⟩ := hends
  have hasked : f ∈ s.schedule functions := by
    have hmem := List.mem_map_of_mem hf (f := Prod.fst)
    rw [hrun.functions] at hmem
    obtain ⟨errand, herrand, hfirst⟩ := List.mem_map.mp hmem
    obtain ⟨g, hg, rfl⟩ := List.mem_map.mp herrand
    obtain rfl : g = f := hfirst
    exact hg
  refine ⟨hhonest.world, rfl, (hhonest.errands _ hf).mono fun g hg => ?_⟩
  exact List.mem_singleton.mp hg ▸ hasked

/-! ### A whole round -/

/-- What a round does: it asks the cache, then the index in some way, and commits what the index told. -/
theorem after_answerRoundBy (s : Surroundings W F) (asking : Asking W F) (coverage : Coverage) (counted : Bool)
    (round : List F) (σ : Search W F) :
    (s.answerRoundBy asking coverage counted round).after σ =
      if (s.cancelled.run σ.world).1 then (.error .cancelled, s.checked σ)
      else
        let out := (s.consult coverage counted round).run (s.checked σ)
        match (asking coverage counted out.1.2).after out.2 with
        | (.ok learned, τ) => (.ok (out.1.1 ++ learned), ((s.commit coverage learned).run τ).2)
        | (.error e, τ) => (.error e, τ) := by
  rw [answerRoundBy, after_bind, after_checkCancelled]
  cases (s.cancelled.run σ.world).1 with
  | true => rfl
  | false =>
    simp only [Bool.false_eq_true, if_false]
    rw [after_bind, after_lift]
    dsimp only [checked]
    rw [after_bind]
    rcases (asking coverage counted _).after _ with ⟨_ | _, _⟩ <;> rfl

/-- How a round ends: it was to stop, some question was not answered, or the cache has learned the answers. -/
inductive RoundEnds (s : Surroundings W F) (asking : Asking W F) (coverage : Coverage) (counted : Bool)
    (round : List F) (σ : Search W F) : Except ResolveError (Answers F) → Search W F → Prop where
  | stopped : (s.cancelled.run σ.world).1 = true →
      RoundEnds s asking coverage counted round σ (.error .cancelled) (s.checked σ)
  | failed {known : Answers F} {pending : List F} {ρ τ : Search W F} {e : ResolveError} :
      (s.cancelled.run σ.world).1 = false →
      (s.consult coverage counted round).run (s.checked σ) = ((known, pending), ρ) →
      (asking coverage counted pending).after ρ = (.error e, τ) →
      RoundEnds s asking coverage counted round σ (.error e) τ
  | learned {known learned : Answers F} {pending : List F} {ρ τ : Search W F} :
      (s.cancelled.run σ.world).1 = false →
      (s.consult coverage counted round).run (s.checked σ) = ((known, pending), ρ) →
      (asking coverage counted pending).after ρ = (.ok learned, τ) →
      RoundEnds s asking coverage counted round σ (.ok (known ++ learned)) ((s.commit coverage learned).run τ).2

theorem answerRoundBy_ends {round : List F} {result : Except ResolveError (Answers F)}
    (h : (s.answerRoundBy asking coverage counted round).after σ = (result, τ)) :
    RoundEnds s asking coverage counted round σ result τ := by
  rw [after_answerRoundBy] at h
  cases hcancelled : (s.cancelled.run σ.world).1 with
  | true =>
    rw [hcancelled] at h
    cases h
    exact .stopped hcancelled
  | false =>
    rw [hcancelled] at h
    generalize hconsult : (s.consult coverage counted round).run (s.checked σ) = out at h
    obtain ⟨⟨known, pending⟩, ρ⟩ := out
    dsimp only at h
    rcases hasked : (asking coverage counted pending).after ρ with ⟨e | learned, ρ'⟩
    · simp only [hasked] at h
      cases h
      exact .failed hcancelled hconsult hasked
    · simp only [hasked] at h
      cases h
      exact .learned hcancelled hconsult hasked

theorem after_of_ends {round : List F} {result : Except ResolveError (Answers F)}
    (h : RoundEnds s asking coverage counted round σ result τ) :
    (s.answerRoundBy asking coverage counted round).after σ = (result, τ) := by
  rw [after_answerRoundBy]
  cases h with
  | stopped hcancelled => simp only [hcancelled, if_true]
  | failed hgoing hconsult hasked => simp only [hgoing, hconsult, hasked, Bool.false_eq_true, if_false]
  | learned hgoing hconsult hasked => simp only [hgoing, hconsult, hasked, Bool.false_eq_true, if_false]

/-- A round succeeds with what the cache serves and, for the other functions, what the index tells, in whatever
way the index is asked. -/
theorem AtOnce.round_ok (ha : s.AtOnce asking) (hs : s.Keeps I) {round : List F} {answers : Answers F}
    (h : (s.answerRoundBy asking coverage counted round).after σ = (.ok answers, τ)) (hw : I σ.world) :
    ∃ known pending learned ρ ρ', Consulted s I coverage counted round (s.checked σ) ρ known pending ∧
      Queried s I coverage counted (s.schedule pending) ρ ρ' learned ∧ answers = known ++ learned ∧
        τ = ((s.commit coverage learned).run ρ').2 := by
  have hc := consulted hs coverage counted round (σ := s.checked σ) (hs.cancelled hw)
  cases answerRoundBy_ends h with
  | learned _ hconsult hasked =>
    rw [hconsult] at hc
    exact ⟨_, _, _, _, _, hc, ha.queried hs hasked hc.world, rfl, rfl⟩

/-- A round that fails changes nothing in the cache but the counts of hits and misses. It was to stop, or the index
did not answer about a function that the cache had no answer for. -/
theorem AtOnce.round_error (ha : s.AtOnce asking) (hs : s.Keeps I) {round : List F} {e : ResolveError}
    (h : (s.answerRoundBy asking coverage counted round).after σ = (.error e, τ)) (hw : I σ.world) :
    I τ.world ∧ σ.cache.Recounted τ.cache ∧ ∃ pending,
      (∀ f ∈ pending, f ∈ round ∧
        ∃ w, I w ∧ σ.cache.freshNeighbours? coverage f (s.versions.run w).1 = none) ∧
      s.Hindered I coverage (s.schedule pending) e := by
  have hc := consulted hs coverage counted round (σ := s.checked σ) (hs.cancelled hw)
  cases answerRoundBy_ends h with
  | stopped hcancelled =>
    exact ⟨hs.cancelled hw, .refl _, [], fun _ hf => absurd hf List.not_mem_nil, σ.world, hw, hcancelled⟩
  | failed _ hconsult hasked =>
    rw [hconsult] at hc
    obtain ⟨hw', hcache, hcause⟩ := ha.hindered hs hasked hc.world
    refine ⟨hw', hcache ▸ hc.cache, _, fun f hf => ⟨?_, hc.missed f hf⟩, hcause⟩
    exact hc.functions.mem_iff.mp (List.mem_append_right _ hf)

/-- What learning answers and counting keeps, a round keeps, whether it succeeds or fails. -/
theorem AtOnce.round_keeps (ha : s.AtOnce asking) (hs : s.Keeps I) {P : Cache F → Prop}
    (hcounted : ∀ (c : Cache F) hits misses, P c → P { c with hits := hits, misses := misses })
    (hlearn : ∀ c w answer, s.Told I coverage answer → P c → I w →
      P (c.replaceNeighbours coverage answer.1 answer.2 (s.versions.run w).1))
    {round : List F} {result : Except ResolveError (Answers F)}
    (h : (s.answerRoundBy asking coverage counted round).after σ = (result, τ)) (hw : I σ.world) (hP : P σ.cache) :
    I τ.world ∧ P τ.cache := by
  cases result with
  | error e =>
    obtain ⟨hw', hcache, -⟩ := ha.round_error hs h hw
    exact ⟨hw', hcache.keeps hcounted hP⟩
  | ok answers =>
    obtain ⟨known, pending, learned, ρ, ρ', hc, hq, -, rfl⟩ := ha.round_ok hs h hw
    have hρ : P ρ'.cache := hq.cache ▸ hc.cache.keeps hcounted hP
    exact commit_keeps hs (fun c w answer hanswer => hlearn c w answer (hq.told answer hanswer)) hq.world hρ

section Trusted

variable {index : CallIndex F} {V : Versions → Prop} {P : Cache F → Prop} {round : List F}

/-- What a cache is trusted for stays true in a round, and a round that succeeds gets the index's answers. -/
theorem AtOnce.round_trusted (ha : s.AtOnce asking) (hs : s.Faithful I index)
    (hV : ∀ w, I w → V (s.versions.run w).1) (trust : Trust P index V coverage) {answers : Answers F}
    (h : (s.answerRoundBy asking coverage counted round).after σ = (.ok answers, τ)) (hw : I σ.world)
    (hP : P σ.cache) :
    I τ.world ∧ P τ.cache ∧ index.Answers coverage round answers ∧
      τ.processed = σ.processed + share counted round.length := by
  obtain ⟨hw', hP'⟩ := ha.round_keeps hs.toKeeps (fun _ hits misses => trust.counted hits misses)
    (hs.learned hV trust) h hw hP
  obtain ⟨known, pending, learned, ρ, ρ', hc, hq, rfl, rfl⟩ := ha.round_ok hs.toKeeps h hw
  obtain ⟨hanswers, hprocessed⟩ := hc.answers hs hV trust hq hP
  exact ⟨hw', hP', hanswers, (processed_commit s coverage learned ρ').trans hprocessed⟩

/-- In calm surroundings a round succeeds if the index answers about those functions that the cache has no answer
for. -/
theorem AtOnce.round_calm (ha : s.AtOnce asking) (hs : s.Calm I index) (counted : Bool)
    (hknown : ∀ f ∈ round, (∃ w, I w ∧ σ.cache.freshNeighbours? coverage f (s.versions.run w).1 = none) →
      ∃ found, index.neighbours coverage f = .ok found) (hw : I σ.world) :
    ∃ answers τ, (s.answerRoundBy asking coverage counted round).after σ = (.ok answers, τ) := by
  rcases h : (s.answerRoundBy asking coverage counted round).after σ with ⟨e | answers, τ⟩
  · obtain ⟨-, -, pending, hpending, hcause⟩ := ha.round_error hs.toKeeps h hw
    cases e with
    | unbounded => exact hcause.elim
    | cancelled =>
      obtain ⟨w, hw', hcancelled⟩ := hcause
      rw [hs.quiet hw'] at hcancelled
      cases hcancelled
    | index error =>
      obtain ⟨f, hf, w, hw', hreply⟩ := hcause
      obtain ⟨hround, hmissed⟩ := hpending f ((hs.schedule pending).mem_iff.mp hf)
      obtain ⟨found, hfound⟩ := hknown f hround hmissed
      rw [hs.answers coverage f hw', hfound] at hreply
      cases hreply
  · exact ⟨answers, τ, rfl⟩

end Trusted

/-- Where the answers of a round come from while no file is edited: the cache has served some of them, and about the
other functions the index was asked. -/
structure Sourced (index : CallIndex F) (v : Versions) (coverage : Coverage) (c : Cache F) (round : List F)
    (known learned : Answers F) : Prop where
  functions : ((known ++ learned).map Prod.fst).Perm round
  served : ∀ a ∈ known, c.freshNeighbours? coverage a.1 v = some a.2
  told : ∀ a ∈ learned, c.freshNeighbours? coverage a.1 v = none ∧
    ∃ found, index.neighbours coverage a.1 = .ok found ∧ a.2 = found.toList

theorem AtOnce.round_sourced (ha : s.AtOnce asking) {index : CallIndex F} (hs : s.Faithful I index) {v : Versions}
    (hv : ∀ w, I w → (s.versions.run w).1 = v) {round : List F} {answers : Answers F}
    (h : (s.answerRoundBy asking coverage counted round).after σ = (.ok answers, τ)) (hw : I σ.world) :
    ∃ known learned ρ, Sourced index v coverage σ.cache round known learned ∧ answers = known ++ learned ∧
      I ρ.world ∧ σ.cache.Recounted ρ.cache ∧ τ = ((s.commit coverage learned).run ρ).2 ∧
      ρ.processed = σ.processed + share counted round.length := by
  obtain ⟨known, pending, learned, ρ, ρ', hc, hq, rfl, rfl⟩ := ha.round_ok hs.toKeeps h hw
  obtain ⟨hfunctions, hprocessed⟩ := hc.complete hs.schedule hq
  refine ⟨known, learned, ρ', ⟨hfunctions, fun a ha => ?_, fun a ha => ⟨?_, ?_⟩⟩, rfl, hq.world, hq.cache ▸ hc.cache,
    rfl, hprocessed⟩
  · obtain ⟨w, hw', hserved⟩ := hc.served a ha
    exact hv w hw' ▸ hserved
  · have hasked : a.1 ∈ s.schedule pending := hq.functions ▸ List.mem_map_of_mem ha
    obtain ⟨w, hw', hmissed⟩ := hc.missed a.1 ((hs.schedule pending).mem_iff.mp hasked)
    exact hv w hw' ▸ hmissed
  · obtain ⟨w, found, hw', hreply, htold⟩ := hq.told a ha
    exact ⟨found, hs.answers hw' hreply, htold⟩

/-! ### One function after the other -/

theorem queryAll_ok (hs : s.Keeps I) {functions : List F} {answers : Answers F}
    (h : (s.queryAll coverage counted (s.schedule functions)).after σ = (.ok answers, τ)) (hw : I σ.world) :
    Queried s I coverage counted (s.schedule functions) σ τ answers :=
  s.atOnce_inTurn.queried hs h hw

/-- A round that succeeds asks the cache, asks the index about the rest and commits what the index told. -/
theorem answerRound_steps {round : List F} {answers : Answers F}
    (h : (s.answerRound coverage counted round).after σ = (.ok answers, τ)) :
    ∃ known pending learned ρ ρ', (s.consult coverage counted round).run (s.checked σ) = ((known, pending), ρ) ∧
      (s.queryAll coverage counted (s.schedule pending)).after ρ = (.ok learned, ρ') ∧
      answers = known ++ learned ∧ τ = ((s.commit coverage learned).run ρ').2 := by
  have hround : (s.answerRoundBy s.inTurn coverage counted round).after σ = (.ok answers, τ) := h
  cases answerRoundBy_ends hround with
  | learned _ hconsult hasked => exact ⟨_, _, _, _, _, hconsult, hasked, rfl, rfl⟩

theorem answerRound_calm {index : CallIndex F} (hs : s.Calm I index) (counted : Bool) {round : List F}
    (hknown : ∀ f ∈ round, ∃ found, index.neighbours coverage f = .ok found) (hw : I σ.world) :
    ∃ answers τ, (s.answerRound coverage counted round).after σ = (.ok answers, τ) :=
  s.atOnce_inTurn.round_calm hs counted (fun f hf _ => hknown f hf) hw

end Surroundings
end CallChart
