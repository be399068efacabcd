import CallChart.Proofs.Errands

/-! An inquiry carried out round by round. What it comes to is told without any cache: the result that
right answers lead it to, and how many functions are counted on the way. -/
namespace CallChart

variable {W F α β : Type} [Handle F]

namespace Inquiry

/-- All rounds ask in directions of a kind. -/
def AsksOnly (C : Coverage → Prop) : Inquiry F α → Prop
  | done _ => True
  | unbounded => True
  | ask coverage _ _ next => C coverage ∧ ∀ answers, (next answers).AsksOnly C

/-- Right answers lead an inquiry to a result and count so many functions. -/
inductive Outcome (index : CallIndex F) : Inquiry F α → α → Nat → Prop where
  | done {a : α} : Outcome index (.done a) a 0
  | ask {coverage : Coverage} {counted : Bool} {round : List F} {next : Answers F → Inquiry F α}
      {answers : Answers F} {a : α} {n : Nat} : index.Answers coverage round answers →
      Outcome index (next answers) a n →
      Outcome index (.ask coverage counted round next) a ((if counted then round.length else 0) + n)

/-- Right answers lead an inquiry to an end, and it asks about functions of a kind only. -/
def Ends (index : CallIndex F) (K : Coverage → F → Prop) : Inquiry F α → Prop
  | done _ => True
  | unbounded => False
  | ask coverage _ round next => (∀ f ∈ round, K coverage f) ∧
      ∀ answers, index.Answers coverage round answers → (next answers).Ends index K

variable {index : CallIndex F}

omit [Handle F] in
theorem AsksOnly.all (q : Inquiry F α) : q.AsksOnly fun _ => True := by
  induction q with
  | done => trivial
  | unbounded => trivial
  | ask _ _ _ _ ih => exact ⟨trivial, ih⟩

theorem outcome_bind {q : Inquiry F α} {more : α → Inquiry F β} {b : β} {n : Nat} :
    (q.bind more).Outcome index b n ↔
      ∃ a k m, q.Outcome index a k ∧ (more a).Outcome index b m ∧ n = k + m := by
  constructor
  · intro h
    induction q generalizing n with
    | done a => exact ⟨a, 0, n, .done, h, (Nat.zero_add n).symm⟩
    | unbounded => cases h
    | ask coverage counted round next ih =>
      cases h with
      | ask hanswers hrest =>
        obtain ⟨a, k, m, hq, hmore, rfl⟩ := ih _ hrest
        exact ⟨a, _, m, .ask hanswers hq, hmore, (Nat.add_assoc _ k m).symm⟩
  · rintro ⟨a, k, m, hq, hmore, rfl⟩
    induction hq with
    | done => rwa [Nat.zero_add]
    | ask hanswers _ ih => rw [Nat.add_assoc]; exact .ask hanswers (ih hmore)

theorem Ends.bind {K : Coverage → F → Prop} {q : Inquiry F α} {more : α → Inquiry F β}
    (hq : q.Ends index K) (hmore : ∀ a n, q.Outcome index a n → (more a).Ends index K) :
    (q.bind more).Ends index K := by
  induction q with
  | done a => exact hmore a 0 .done
  | unbounded => exact hq
  | ask coverage counted round next ih =>
    refine ⟨hq.1, fun answers ha => ih answers (hq.2 answers ha) fun a n ho => ?_⟩
    exact hmore a _ (.ask ha ho)

theorem Ends.mono {K L : Coverage → F → Prop} (hKL : ∀ coverage f, K coverage f → L coverage f)
    {q : Inquiry F α} (hq : q.Ends index K) : q.Ends index L := by
  induction q with
  | done a => trivial
  | unbounded => exact hq
  | ask coverage counted round next ih =>
    exact ⟨fun f hf => hKL _ _ (hq.1 f hf), fun answers ha => ih answers (hq.2 answers ha)⟩

end Inquiry

namespace Surroundings

open ExceptT

/-- From one inquiry and search to others by rounds that succeed. -/
inductive Rounds (s : Surroundings W F) (asking : Asking W F) :
    Inquiry F α → Search W F → Inquiry F α → Search W F → Prop where
  | none {q : Inquiry F α} {σ : Search W F} : Rounds s asking q σ q σ
  | one {coverage : Coverage} {counted : Bool} {round : List F} {next : Answers F → Inquiry F α}
      {answers : Answers F} {q : Inquiry F α} {σ ρ τ : Search W F} :
      (s.answerRoundBy asking coverage counted round).after σ = (.ok answers, ρ) →
      Rounds s asking (next answers) ρ q τ → Rounds s asking (.ask coverage counted round next) σ q τ

/-- How an inquiry fails: in a round, or because there were more rounds than there can be. -/
inductive Fails (s : Surroundings W F) (asking : Asking W F) :
    Inquiry F α → Search W F → ResolveError → Search W F → Prop where
  | round {coverage : Coverage} {counted : Bool} {round : List F} {next : Answers F → Inquiry F α}
      {σ τ : Search W F} {e : ResolveError} :
      (s.answerRoundBy asking coverage counted round).after σ = (.error e, τ) →
      Fails s asking (.ask coverage counted round next) σ e τ
  | unbounded {σ : Search W F} : Fails s asking .unbounded σ .unbounded σ

variable {s : Surroundings W F} {I : W → Prop} {index : CallIndex F}

variable {asking : Asking W F} {σ τ : Search W F}

theorem pursueBy_ask (s : Surroundings W F) (asking : Asking W F) (coverage : Coverage) (counted : Bool)
    (round : List F) (next : Answers F → Inquiry F α) :
    s.pursueBy asking (.ask coverage counted round next) =
      s.answerRoundBy asking coverage counted round >>= fun answers => s.pursueBy asking (next answers) := rfl

theorem pursueBy_bind (s : Surroundings W F) (asking : Asking W F) (q : Inquiry F α) (more : α → Inquiry F β) :
    s.pursueBy asking (q.bind more) = s.pursueBy asking q >>= fun a => s.pursueBy asking (more a) := by
  induction q with
  | done a => rfl
  | unbounded => rfl
  | ask coverage counted round next ih =>
    rw [Inquiry.bind, pursueBy_ask, pursueBy_ask, bind_assoc]
    exact congrArg _ (funext ih)

theorem pursue_ask (s : Surroundings W F) (coverage : Coverage) (counted : Bool) (round : List F)
    (next : Answers F → Inquiry F α) :
    s.pursue (.ask coverage counted round next) =
      s.answerRound coverage counted round >>= fun answers => s.pursue (next answers) := rfl

theorem pursue_bind (s : Surroundings W F) (q : Inquiry F α) (more : α → Inquiry F β) :
    s.pursue (q.bind more) = s.pursue q >>= fun a => s.pursue (more a) := by
  simp only [← pursueBy_inTurn, pursueBy_bind]

/-- An inquiry that fails does so after some rounds that succeeded. -/
theorem pursueBy_error {q : Inquiry F α} {σ τ : Search W F} {e : ResolveError}
    (h : (s.pursueBy asking q).after σ = (.error e, τ)) :
    ∃ r ρ, Rounds s asking q σ r ρ ∧ Fails s asking r ρ e τ := by
  induction q generalizing σ with
  | done a => cases h
  | unbounded =>
    cases h
    exact ⟨_, _, .none, .unbounded⟩
  | ask coverage counted round next ih =>
    rcases after_bind_error.mp h with hround | ⟨answers, ρ, hround, hrest⟩
    · exact ⟨_, σ, .none, .round hround⟩
    · obtain ⟨r, ρ', hrounds, hfails⟩ := ih answers hrest
      exact ⟨r, ρ', .one hround hrounds, hfails⟩

/-- What every round keeps, an inquiry keeps. -/
theorem AtOnce.pursueBy_keeps (ha : s.AtOnce asking) (hs : s.Keeps I) {P : Cache F → Prop}
    (hcounted : ∀ (c : Cache F) hits misses, P c → P { c with hits := hits, misses := misses })
    (hlearn : ∀ coverage c w answer, s.Told I coverage answer → P c → I w →
      P (c.replaceNeighbours coverage answer.1 answer.2 (s.versions.run w).1))
    {q : Inquiry F α} {result : Except ResolveError α} (h : (s.pursueBy asking q).after σ = (result, τ))
    (hw : I σ.world) (hP : P σ.cache) : I τ.world ∧ P τ.cache := by
  induction q generalizing σ with
  | done a =>
    cases h
    exact ⟨hw, hP⟩
  | unbounded =>
    cases h
    exact ⟨hw, hP⟩
  | ask coverage counted round next ih =>
    rw [pursueBy_ask, after_bind] at h
    rcases hround : (s.answerRoundBy asking coverage counted round).after σ with ⟨e | answers, ρ⟩
    all_goals
      rw [hround] at h
      obtain ⟨hw', hP'⟩ := ha.round_keeps hs hcounted (hlearn coverage) hround hw hP
    · cases h
      exact ⟨hw', hP'⟩
    · exact ih answers h hw' hP'

section Trusted

variable {V : Versions → Prop} {P : Cache F → Prop} {C : Coverage → Prop}

/-- An inquiry over a trusted cache comes to what right answers lead it to. -/
theorem AtOnce.pursueBy_ok (ha : s.AtOnce asking) (hs : s.Faithful I index)
    (hV : ∀ w, I w → V (s.versions.run w).1) (trust : ∀ coverage, C coverage → Trust P index V coverage)
    {q : Inquiry F α} (hq : q.AsksOnly C) {a : α} (h : (s.pursueBy asking q).after σ = (.ok a, τ))
    (hw : I σ.world) (hP : P σ.cache) :
    I τ.world ∧ P τ.cache ∧ ∃ n, q.Outcome index a n ∧ τ.processed = σ.processed + n := by
  induction q generalizing σ with
  | done b =>
    cases h
    exact ⟨hw, hP, 0, .done, rfl⟩
  | unbounded => cases h
  | ask coverage counted round next ih =>
    obtain ⟨answers, ρ, hround, hrest⟩ := after_bind_ok.mp h
    obtain ⟨hw', hP', hanswers, hprocessed⟩ := ha.round_trusted hs hV (trust coverage hq.1) hround hw hP
    obtain ⟨hw'', hP'', n, houtcome, hn⟩ := ih answers (hq.2 answers) hrest hw' hP'
    refine ⟨hw'', hP'', _, .ask hanswers houtcome, ?_⟩
    rw [hn, hprocessed, Nat.add_assoc]
    rfl

/-- In calm surroundings an inquiry that only asks about known functions comes to an end. -/
theorem AtOnce.pursueBy_calm (ha : s.AtOnce asking) (hs : s.Calm I index)
    (hV : ∀ w, I w → V (s.versions.run w).1) (trust : ∀ coverage, C coverage → Trust P index V coverage)
    {q : Inquiry F α} (hq : q.AsksOnly C)
    (hends : q.Ends index fun coverage f => ∃ found, index.neighbours coverage f = .ok found)
    (hw : I σ.world) (hP : P σ.cache) : ∃ a τ, (s.pursueBy asking q).after σ = (.ok a, τ) := by
  induction q generalizing σ with
  | done a => exact ⟨a, σ, rfl⟩
  | unbounded => exact hends.elim
  | ask coverage counted round next ih =>
    obtain ⟨answers, ρ, hround⟩ := ha.round_calm hs counted (fun f hf _ => hends.1 f hf) hw
    obtain ⟨hw', hP', hanswers, -⟩ := ha.round_trusted hs.faithful hV (trust coverage hq.1) hround hw hP
    obtain ⟨a, τ, hrest⟩ := ih answers (hq.2 answers) (hends.2 answers hanswers) hw' hP'
    exact ⟨a, τ, after_bind_ok.mpr ⟨answers, ρ, hround, hrest⟩⟩

/-- Rounds that succeed over a trusted cache lead an inquiry on with right answers. -/
theorem Rounds.ends_of_trust (ha : s.AtOnce asking) (hs : s.Faithful I index) (hV : ∀ w, I w → V (s.versions.run w).1)
    (trust : ∀ coverage, Trust P index V coverage) {K : Coverage → F → Prop} {q r : Inquiry F α}
    (h : Rounds s asking q σ r τ) (hq : q.Ends index K) (hw : I σ.world)
    (hP : P σ.cache) : r.Ends index K := by
  induction h with
  | none => exact hq
  | one hround _ ih =>
    obtain ⟨hw', hP', hanswers, -⟩ := ha.round_trusted hs hV (trust _) hround hw hP
    exact ih (hq.2 _ hanswers) hw' hP'

end Trusted

end Surroundings
end CallChart
