import CallChart.Proofs.CacheLikeness
import CallChart.Proofs.QuestionLog

/-! Searches that differ only in order: in that of the seeds and in that in which the functions of a round are
asked about. They go side by side, round by round. The rounds of both are about the same functions, their answers
are the same, and the caches hold the same after each of them. -/
namespace CallChart

variable {W W' F α β γ δ : Type} [Handle F]

/-- What is true of the one or the other of two answers that are the same is true of some of the same answers. -/
theorem Answers.Same.exists_iff {answers others : Answers F} (h : answers.Same others) {P : F × List F → Prop}
    (hP : ∀ a b, SameAnswer a b → P a → P b) : (∃ a ∈ answers, P a) ↔ ∃ b ∈ others, P b := by
  constructor
  · rintro ⟨a, ha, hPa⟩
    obtain ⟨b, hb, hab⟩ := h.forth a ha
    exact ⟨b, hb, hP a b hab hPa⟩
  · rintro ⟨b, hb, hPb⟩
    obtain ⟨a, ha, hab⟩ := h.back b hb
    exact ⟨a, ha, hP b a hab.symm hPb⟩

theorem Answers.Same.append {answers others answers' others' : Answers F} (h : answers.Same others)
    (h' : answers'.Same others') : Same (answers ++ answers') (others ++ others') := by
  refine ⟨fun a ha => ?_, fun b hb => ?_⟩
  · rcases List.mem_append.mp ha with ha | ha
    · obtain ⟨b, hb, hab⟩ := h.forth a ha
      exact ⟨b, List.mem_append_left _ hb, hab⟩
    · obtain ⟨b, hb, hab⟩ := h'.forth a ha
      exact ⟨b, List.mem_append_right _ hb, hab⟩
  · rcases List.mem_append.mp hb with hb | hb
    · obtain ⟨a, ha, hab⟩ := h.back b hb
      exact ⟨a, List.mem_append_left _ ha, hab⟩
    · obtain ⟨a, ha, hab⟩ := h'.back b hb
      exact ⟨a, List.mem_append_right _ ha, hab⟩

/-! ### The same inquiries -/

/-- The same functions and the same calls between them. -/
structure Resolution.SameCalls (r r' : Resolution F) : Prop where
  functions (f : F) : f ∈ r.functions ↔ f ∈ r'.functions
  calls (k : Call F) : k ∈ r.calls ↔ k ∈ r'.calls

theorem Resolution.SameCalls.addAnswers {r r' : Resolution F} (h : r.SameCalls r') (coverage : Coverage)
    {answers others : Answers F} (ha : answers.Same others) :
    (r.addAnswers coverage answers).SameCalls (r'.addAnswers coverage others) where
  functions g := by
    rw [mem_functions_addAnswers, mem_functions_addAnswers, h.functions]
    exact or_congr_right (ha.exists_iff fun a b hab => (hab.neighbours g).mp)
  calls k := by
    rw [mem_calls_addAnswers, mem_calls_addAnswers, h.calls]
    refine or_congr_right (ha.exists_iff fun a b hab hk => ?_)
    exact ⟨compare_trans (compare_symm hab.function) hk.1, (hab.neighbours _).mp hk.2⟩

namespace Inquiry

/-- Two inquiries whose rounds are about the same functions, as long as both go on and get the same answers, and
whose results are related. -/
inductive Like (R : α → β → Prop) : Inquiry F α → Inquiry F β → Prop where
  | done {a : α} {b : β} : R a b → Like R (.done a) (.done b)
  | unboundedLeft {q : Inquiry F β} : Like R .unbounded q
  | unboundedRight {q : Inquiry F α} : Like R q .unbounded
  | ask {coverage : Coverage} {counted : Bool} {round round' : List F} {next : Answers F → Inquiry F α}
      {next' : Answers F → Inquiry F β} : (∀ f, Listed round f ↔ Listed round' f) →
      round.Pairwise (fun f g => compare f g ≠ .eq) → round'.Pairwise (fun f g => compare f g ≠ .eq) →
      (∀ answers others, answers.Same others → Like R (next answers) (next' others)) →
      Like R (.ask coverage counted round next) (.ask coverage counted round' next')

theorem Like.bind {R : α → β → Prop} {S : γ → δ → Prop} {q : Inquiry F α} {q' : Inquiry F β}
    {more : α → Inquiry F γ} {more' : β → Inquiry F δ} (h : Like R q q')
    (hmore : ∀ a b, R a b → Like S (more a) (more' b)) : Like S (q.bind more) (q'.bind more') := by
  induction h with
  | done hab => exact hmore _ _ hab
  | unboundedLeft => exact .unboundedLeft
  | unboundedRight => exact .unboundedRight
  | ask hround hdistinct hdistinct' _ ih => exact .ask hround hdistinct hdistinct' ih

/-- Calls are followed alike from the same functions, however many rounds there may be. -/
theorem like_close (coverage : Coverage) {rounds rounds' : Nat} {seen seen' : Std.TreeSet F}
    {frontier frontier' : List F} {found found' : Resolution F} (hseen : ∀ f, f ∈ seen ↔ f ∈ seen')
    (hfrontier : ∀ f, Listed frontier f ↔ Listed frontier' f)
    (hdistinct : frontier.Pairwise fun f g => compare f g ≠ .eq)
    (hdistinct' : frontier'.Pairwise fun f g => compare f g ≠ .eq) (hfound : found.SameCalls found') :
    Like Resolution.SameCalls (close coverage rounds seen frontier found)
      (close coverage rounds' seen' frontier' found') := by
  induction rounds, seen, frontier, found using close.induct coverage generalizing rounds' seen' frontier' found' with
  | case1 rounds seen found =>
    cases frontier' with
    | nil =>
      rw [close, close]
      exact .done hfound
    | cons g rest => exact absurd ((hfrontier g).mpr (.of_mem List.mem_cons_self)) (Listed.nil g)
  | case2 seen f rest found => exact .unboundedLeft
  | case3 rounds seen f rest found ih =>
    cases frontier' with
    | nil => exact absurd ((hfrontier f).mp (.of_mem List.mem_cons_self)) (Listed.nil f)
    | cons f' rest' =>
      cases rounds' with
      | zero => exact .unboundedRight
      | succ rounds' =>
        have hnext : ∀ g, g ∈ (f :: rest).foldl Std.TreeSet.insert seen ↔
            g ∈ (f' :: rest').foldl Std.TreeSet.insert seen' := by
          intro g
          rw [mem_foldl_insert, mem_foldl_insert, hseen, hfrontier]
        refine .ask hfrontier hdistinct hdistinct' fun answers others ha => ?_
        refine ih answers hnext (fun g => ?_) Std.TreeSet.distinct_toList Std.TreeSet.distinct_toList
          (hfound.addAnswers coverage ha)
        rw [listed_toList_iff, listed_toList_iff, Wave.mem_nextRound, Wave.mem_nextRound, hnext]
        exact and_congr_left fun _ => ha.exists_iff fun a b hab => (hab.neighbours g).mp

theorem like_closeAll {rounds rounds' : Nat} {seeds seeds' : List F} (hseeds : ∀ f, Listed seeds f ↔ Listed seeds' f)
    (coverages : List Coverage) {found found' : Resolution F} (hfound : found.SameCalls found') :
    Like Resolution.SameCalls (closeAll rounds seeds coverages found) (closeAll rounds' seeds' coverages found') := by
  induction coverages generalizing found found' with
  | nil => exact .done hfound
  | cons coverage rest ih =>
    refine (like_close coverage (fun _ => Iff.rfl) (fun f => ?_) Std.TreeSet.distinct_toList
      Std.TreeSet.distinct_toList hfound).bind fun r r' hr => ih hr
    rw [listed_toList_iff, listed_toList_iff, mem_gather_iff, mem_gather_iff]
    exact hseeds f

end Inquiry

/-- Questions about the same seeds are pursued alike. -/
theorem Question.like_closure {seeds seeds' : List F} (hseeds : ∀ f, Listed seeds f ↔ Listed seeds' f)
    (direction : Direction) (rounds rounds' : Nat) :
    Inquiry.Like Resolution.SameCalls ((Question.closure seeds direction).inquiry rounds)
      ((Question.closure seeds' direction).inquiry rounds') :=
  Inquiry.like_closeAll hseeds direction.coverages
    ⟨fun f => mem_ofList_iff.trans ((hseeds f).trans mem_ofList_iff.symm), fun _ => Iff.rfl⟩

namespace Surroundings

open ExceptT

/-- Calm surroundings in which no file is edited, and a way to ask at once in them. -/
structure Still (s : Surroundings W F) (I : W → Prop) (index : CallIndex F) (v : Versions) (asking : Asking W F) :
    Prop extends s.Calm I index where
  fixed {w : W} : I w → (s.versions.run w).1 = v
  atOnce : s.AtOnce asking

variable {s : Surroundings W F} {s' : Surroundings W' F} {I : W → Prop} {I' : W' → Prop} {index : CallIndex F}
  {v : Versions} {asking : Asking W F} {asking' : Asking W' F} {coverage : Coverage} {counted : Bool}
  {σ τ : Search W F} {σ' τ' : Search W' F}

theorem cache_commit (hs : s.Keeps I) (hv : ∀ w, I w → (s.versions.run w).1 = v) (coverage : Coverage)
    (answers : Answers F) (hw : I σ.world) :
    ((s.commit coverage answers).run σ).2.cache = σ.cache.learnAll coverage answers v := by
  induction answers generalizing σ with
  | nil => rfl
  | cons answer rest ih =>
    let ρ : Search W F :=
      { σ with
        world := (s.versions.run σ.world).2
        cache := σ.cache.replaceNeighbours coverage answer.1 answer.2 (s.versions.run σ.world).1 }
    have hρ : ρ.cache = σ.cache.replaceNeighbours coverage answer.1 answer.2 v :=
      congrArg (σ.cache.replaceNeighbours coverage answer.1 answer.2) (hv σ.world hw)
    calc
      ((s.commit coverage (answer :: rest)).run σ).2.cache = ((s.commit coverage rest).run ρ).2.cache := rfl
      _ = ρ.cache.learnAll coverage rest v := ih (hs.versions hw)
      _ = σ.cache.learnAll coverage (answer :: rest) v := by
        rw [hρ]
        rfl

/-! ### One round -/

namespace Sourced

variable {c d : Cache F} {round round' : List F} {known learned known' learned' : Answers F}

theorem exists_answer (h : Sourced index v coverage c round known learned) {f : F} (hf : Listed round f) :
    ∃ a, (a ∈ known ∨ a ∈ learned) ∧ compare a.1 f = .eq := by
  obtain ⟨g, hg, hgf⟩ := hf
  obtain ⟨a, ha, rfl⟩ := List.mem_map.mp (h.functions.mem_iff.mpr hg)
  exact ⟨a, List.mem_append.mp ha, hgf⟩

theorem listed (h : Sourced index v coverage c round known learned) {a : F × List F}
    (ha : a ∈ known ∨ a ∈ learned) : Listed round a.1 :=
  .of_mem (h.functions.mem_iff.mp (List.mem_map_of_mem (List.mem_append.mpr ha)))

/-- The index answers about the functions that the cache does not serve. -/
theorem answered (h : Sourced index v coverage c round known learned) {f : F} (hf : Listed round f)
    (hmissed : c.freshNeighbours? coverage f v = none) : ∃ found, index.neighbours coverage f = .ok found := by
  obtain ⟨a, ha | ha, haf⟩ := h.exists_answer hf
  · rw [← c.freshNeighbours?_congr coverage haf, h.served a ha] at hmissed
    cases hmissed
  · obtain ⟨-, found, hfound, -⟩ := h.told a ha
    obtain ⟨other, hother, -⟩ := index.neighbours_congr haf hfound
    exact ⟨other, hother⟩

/-- What one cache serves the other serves, and the index is asked about the same functions. -/
theorem forth (h : Sourced index v coverage c round known learned)
    (h' : Sourced index v coverage d round' known' learned') (hcache : c.Same d)
    (hround : ∀ f, Listed round f ↔ Listed round' f) :
    (∀ a ∈ known, ∃ b ∈ known', SameAnswer a b) ∧ ∀ a ∈ learned, ∃ b ∈ learned', SameAnswer a b := by
  refine ⟨fun a ha => ?_, fun a ha => ?_⟩
  · obtain ⟨b, hb, hba⟩ := h'.exists_answer ((hround a.1).mp (h.listed (.inl ha)))
    obtain ⟨served, hserved, hsame⟩ := hcache.freshNeighbours? (compare_symm hba) (h.served a ha)
    rcases hb with hb | hb
    · rw [h'.served b hb] at hserved
      exact ⟨b, hb, compare_symm hba, Option.some.inj hserved ▸ hsame⟩
    · rw [(h'.told b hb).1] at hserved
      cases hserved
  · obtain ⟨b, hb, hba⟩ := h'.exists_answer ((hround a.1).mp (h.listed (.inr ha)))
    obtain ⟨hmissed, found, hfound, htold⟩ := h.told a ha
    rcases hb with hb | hb
    · obtain ⟨served, hserved, -⟩ := hcache.symm.freshNeighbours? hba (h'.served b hb)
      rw [hmissed] at hserved
      cases hserved
    · obtain ⟨-, found', hfound', htold'⟩ := h'.told b hb
      obtain ⟨other, hother, hiff⟩ := index.neighbours_congr (compare_symm hba) hfound
      obtain rfl := Except.ok.inj (hother.symm.trans hfound')
      refine ⟨b, hb, compare_symm hba, fun g => ?_⟩
      rw [htold, htold', listed_toList_iff, listed_toList_iff]
      exact hiff g

theorem same (h : Sourced index v coverage c round known learned)
    (h' : Sourced index v coverage d round' known' learned') (hcache : c.Same d)
    (hround : ∀ f, Listed round f ↔ Listed round' f) : known.Same known' ∧ learned.Same learned' := by
  obtain ⟨hknown, hlearned⟩ := h.forth h' hcache hround
  obtain ⟨hknown', hlearned'⟩ := h'.forth h hcache.symm fun f => (hround f).symm
  have hback {answers others : Answers F} (hothers : ∀ b ∈ others, ∃ a ∈ answers, SameAnswer b a) :
      ∀ b ∈ others, ∃ a ∈ answers, SameAnswer a b := by
    intro b hb
    obtain ⟨a, ha, hba⟩ := hothers b hb
    exact ⟨a, ha, hba.symm⟩
  exact ⟨⟨hknown, hback hknown'⟩, ⟨hlearned, hback hlearned'⟩⟩

end Sourced

theorem Still.round_ok (hs : s.Still I index v asking) {round : List F} {answers : Answers F}
    (h : (s.answerRoundBy asking coverage counted round).after σ = (.ok answers, τ)) (hw : I σ.world) :
    I τ.world ∧ τ.processed = σ.processed + share counted round.length ∧
      ∃ known learned, Sourced index v coverage σ.cache round known learned ∧ answers = known ++ learned ∧
        τ.cache.Same (σ.cache.learnAll coverage learned v) := by
  obtain ⟨known, learned, ρ, hsourced, hanswers, hw', hcounted, rfl, hprocessed⟩ :=
    hs.atOnce.round_sourced hs.faithful (fun _ => hs.fixed) h hw
  have hkeeps : I ((s.commit coverage learned).run ρ).2.world ∧ True :=
    commit_keeps hs.toKeeps (P := fun _ => True) (fun _ _ _ _ _ _ => trivial) hw' trivial
  have hcache : σ.cache.Same ρ.cache := Cache.Recounted.same hcounted
  refine ⟨hkeeps.1, (processed_commit s coverage learned ρ).trans hprocessed, known, learned, hsourced, hanswers, ?_⟩
  rw [cache_commit hs.toKeeps (fun _ => hs.fixed) coverage learned hw']
  exact (hcache.learnAll coverage learned v).symm

theorem Still.round_error (hs : s.Still I index v asking) {round : List F} {e : ResolveError}
    (h : (s.answerRoundBy asking coverage counted round).after σ = (.error e, τ)) (hw : I σ.world) :
    σ.cache.Same τ.cache ∧ ∃ error, e = .index error := by
  obtain ⟨-, hcache, pending, -, hcause⟩ := hs.atOnce.round_error hs.toKeeps h hw
  refine ⟨Cache.Recounted.same hcache, ?_⟩
  cases e with
  | index error => exact ⟨error, rfl⟩
  | unbounded => exact hcause.elim
  | cancelled =>
    obtain ⟨w, hw', hcancelled⟩ := hcause
    rw [hs.quiet hw'] at hcancelled
    cases hcancelled

/-- Two searches that have come equally far. -/
structure Abreast (I : W → Prop) (I' : W' → Prop) (σ : Search W F) (σ' : Search W' F) : Prop where
  world : I σ.world
  world' : I' σ'.world
  cache : σ.cache.Same σ'.cache
  processed : σ.processed = σ'.processed

/-- Two searches that end alike: with results that are related, or without any because the index does not answer. -/
inductive EndAlike (I : W → Prop) (I' : W' → Prop) (R : α → β → Prop) :
    Except ResolveError α × Search W F → Except ResolveError β × Search W' F → Prop where
  | found {a : α} {b : β} {τ : Search W F} {τ' : Search W' F} : R a b → Abreast I I' τ τ' →
      EndAlike I I' R (.ok a, τ) (.ok b, τ')
  | failed {e e' : IndexError} {τ : Search W F} {τ' : Search W' F} : τ.cache.Same τ'.cache →
      EndAlike I I' R (.error (.index e), τ) (.error (.index e'), τ')

/-- If a round succeeds, so does a round about the same functions. -/
theorem Still.round_succeeds (hs : s.Still I index v asking) {c : Cache F} {round round' : List F}
    {known learned : Answers F} (h : Sourced index v coverage c round known learned) (hcache : c.Same σ.cache)
    (hround : ∀ f, Listed round f ↔ Listed round' f) (counted : Bool) (hw : I σ.world) :
    ∃ answers τ, (s.answerRoundBy asking coverage counted round').after σ = (.ok answers, τ) := by
  refine hs.atOnce.round_calm hs.toCalm counted (fun f hf hmissed => ?_) hw
  obtain ⟨w, hw', hmissed⟩ := hmissed
  rw [hs.fixed hw'] at hmissed
  refine h.answered ((hround f).mpr (.of_mem hf)) (Option.eq_none_iff_forall_ne_some.mpr fun served hserved => ?_)
  obtain ⟨served', hserved', -⟩ := hcache.freshNeighbours? (compare_refl f) hserved
  rw [hmissed] at hserved'
  cases hserved'

/-- Rounds about the same functions end alike, in whatever order the index is asked. -/
theorem round_alike (hs : s.Still I index v asking) (hs' : s'.Still I' index v asking') (coverage : Coverage)
    (counted : Bool) {round round' : List F} (hround : ∀ f, Listed round f ↔ Listed round' f)
    (hdistinct : round.Pairwise fun f g => compare f g ≠ .eq)
    (hdistinct' : round'.Pairwise fun f g => compare f g ≠ .eq) (hσ : Abreast I I' σ σ') :
    EndAlike I I' Answers.Same ((s.answerRoundBy asking coverage counted round).after σ)
      ((s'.answerRoundBy asking' coverage counted round').after σ') := by
  rcases h : (s.answerRoundBy asking coverage counted round).after σ with ⟨e | answers, τ⟩
  · rcases h' : (s'.answerRoundBy asking' coverage counted round').after σ' with ⟨e' | others, τ'⟩
    · obtain ⟨hcache, error, rfl⟩ := hs.round_error h hσ.world
      obtain ⟨hcache', error', rfl⟩ := hs'.round_error h' hσ.world'
      exact .failed ((hcache.symm.trans hσ.cache).trans hcache')
    · obtain ⟨-, -, _, _, hsourced, -⟩ := hs'.round_ok h' hσ.world'
      obtain ⟨_, _, hok⟩ := hs.round_succeeds hsourced hσ.cache.symm (fun f => (hround f).symm) counted hσ.world
      cases hok.symm.trans h
  · obtain ⟨hw, hprocessed, known, learned, hsourced, rfl, hcache⟩ := hs.round_ok h hσ.world
    obtain ⟨others, τ', h'⟩ := hs'.round_succeeds hsourced hσ.cache hround counted hσ.world'
    obtain ⟨hw', hprocessed', known', learned', hsourced', rfl, hcache'⟩ := hs'.round_ok h' hσ.world'
    obtain ⟨hknown, hlearned⟩ := hsourced.same hsourced' hσ.cache hround
    have hlength : round.length = round'.length :=
      Nat.le_antisymm (length_le_of_listed hdistinct fun f hf => (hround f).mp (.of_mem hf))
        (length_le_of_listed hdistinct' fun f hf => (hround f).mpr (.of_mem hf))
    have hlearn : (σ.cache.learnAll coverage learned v).Same (σ'.cache.learnAll coverage learned' v) :=
      hσ.cache.learn hlearned (distinct_learned hsourced.functions hdistinct)
        (distinct_learned hsourced'.functions hdistinct')
    rw [h']
    refine .found (hknown.append hlearned) ⟨hw, hw', (hcache.trans hlearn).trans hcache'.symm, ?_⟩
    rw [hprocessed, hprocessed', hσ.processed, hlength]

/-! ### All rounds -/

/-- Like inquiries end alike if neither takes too many rounds. -/
theorem pursueBy_alike (hs : s.Still I index v asking) (hs' : s'.Still I' index v asking') {R : α → β → Prop}
    {q : Inquiry F α} {q' : Inquiry F β} (hlike : q.Like R q') (hσ : Abreast I I' σ σ')
    (hbounded : ∀ τ, (s.pursueBy asking q).after σ ≠ (.error .unbounded, τ))
    (hbounded' : ∀ τ', (s'.pursueBy asking' q').after σ' ≠ (.error .unbounded, τ')) :
    EndAlike I I' R ((s.pursueBy asking q).after σ) ((s'.pursueBy asking' q').after σ') := by
  induction hlike generalizing σ σ' with
  | done hab => exact .found hab hσ
  | unboundedLeft => exact absurd rfl (hbounded σ)
  | unboundedRight => exact absurd rfl (hbounded' σ')
  | @ask coverage counted round round' next next' hround hdistinct hdistinct' _ ih =>
    have halike := round_alike hs hs' coverage counted hround hdistinct hdistinct' hσ
    rw [pursueBy_ask, after_bind] at hbounded ⊢
    rw [pursueBy_ask, after_bind] at hbounded' ⊢
    rcases h : (s.answerRoundBy asking coverage counted round).after σ with ⟨outcome, ρ⟩
    rcases h' : (s'.answerRoundBy asking' coverage counted round').after σ' with ⟨outcome', ρ'⟩
    rw [h] at hbounded halike
    rw [h'] at hbounded' halike
    cases halike with
    | found hsame hρ => exact ih _ _ hsame hρ hbounded hbounded'
    | failed hcache => exact .failed hcache

/-- Any cache can learn two answers about different functions in either order. What following calls comes to
therefore depends only on which functions are seeds, on the direction, on what the cache holds and on the index, as
long as no file is edited: neither on the order of the seeds and how often each of them is listed, nor on the order
in which the functions of a round are asked about and their answers are learned. -/
theorem order_within_round :
    (∀ (c : Cache F) (coverage : Coverage) (f g : F) (answer answer' : List F) (v : Versions), compare f g ≠ .eq →
      ((c.replaceNeighbours coverage f answer v).replaceNeighbours coverage g answer' v).Same
        ((c.replaceNeighbours coverage g answer' v).replaceNeighbours coverage f answer v)) ∧
    ∀ (index : CallIndex F) (v : Versions) (s : Surroundings W F) (s' : Surroundings W' F) (I : W → Prop)
      (I' : W' → Prop), s.Calm I index → s'.Calm I' index → (∀ w, I w → (s.versions.run w).1 = v) →
      (∀ w, I' w → (s'.versions.run w).1 = v) →
    ∀ (direction : Direction) (seeds seeds' : List F) (step : Searching W F (Resolution F))
      (step' : Searching W' F (Resolution F)), (∀ f, Listed seeds f ↔ Listed seeds' f) →
      s.Resolves (.closure seeds direction) step → s'.Resolves (.closure seeds' direction) step' →
    ∀ (w : W) (w' : W') (c c' : Cache F) (n : Nat), I w → I' w' → c.Same c' →
    ∀ outcome outcome' τ τ', step.after ⟨w, c, n⟩ = (outcome, τ) → step'.after ⟨w', c', n⟩ = (outcome', τ') →
      ((∃ r r', outcome = .ok r ∧ outcome' = .ok r' ∧ r.Same r') ∨
        ∃ e e', outcome = .error (.index e) ∧ outcome' = .error (.index e')) ∧
      τ.cache.Same τ'.cache := by
  refine ⟨fun c coverage f g answer answer' v hne => Cache.replace_comm c coverage hne answer answer' v, ?_⟩
  intro index v s s' I I' hs hs' hv hv' direction seeds seeds' step step' hseeds hstep hstep' w w' c c' n hw hw' hc
    outcome outcome' τ τ' h h'
  obtain ⟨asking, ha, rfl⟩ := hstep.exists_asking
  obtain ⟨asking', ha', rfl⟩ := hstep'.exists_asking
  have hstill : s.Still I index v asking := { hs with fixed := hv _, atOnce := ha }
  have hstill' : s'.Still I' index v asking' := { hs' with fixed := hv' _, atOnce := ha' }
  have halike := pursueBy_alike hstill hstill'
    (Question.like_closure hseeds direction (s.limit (.closure seeds direction) ⟨w, c, n⟩)
      (s'.limit (.closure seeds' direction) ⟨w', c', n⟩)) ⟨hw, hw', hc, rfl⟩
    (fun _ hunbounded => ha.answerBy_ne_unbounded hs.populated _ hw (answerBy_error_iff.mpr hunbounded))
    (fun _ hunbounded => ha'.answerBy_ne_unbounded hs'.populated _ hw' (answerBy_error_iff.mpr hunbounded))
  rw [after_answerBy] at h h'
  generalize (s.pursueBy asking _).after _ = first at halike h
  generalize (s'.pursueBy asking' _).after _ = second at halike h'
  cases halike with
  | found hsame habreast =>
    cases h
    cases h'
    exact ⟨.inl ⟨_, _, rfl, rfl, hsame.functions, hsame.calls, habreast.processed⟩, habreast.cache⟩
  | failed hcache =>
    cases h
    cases h'
    exact ⟨.inr ⟨_, _, rfl, rfl⟩, hcache⟩

theorem Calm.rescheduled (hs : s.Calm I index) {schedule : List F → List F} (h : ∀ fs, (schedule fs).Perm fs) :
    Calm { s with schedule := schedule } I index :=
  { hs with schedule := h }

/-- Two functions that call each other are asked about in one order and in the other. -/
theorem mutual_calls_in_either_order :
    let index : CallIndex SourceFunction := .ofCalls [⟨.named "even", .named "odd"⟩, ⟨.named "odd", .named "even"⟩]
    let v := (FileVersions.start none).now
    let s := (index.quiet v).noted
    let s' := { s with schedule := List.reverse }
    let seeds : List SourceFunction := [.named "even", .named "odd"]
    let seeds' : List SourceFunction := [.named "odd", .named "even", .named "odd"]
    let names (questions : List (Coverage × SourceFunction)) := questions.map fun question => question.2.name
    let learn (c : Cache SourceFunction) (f : SourceFunction) (answer : List SourceFunction) :=
      c.replaceNeighbours .callees f answer v
    (∃ r τ r' τ', (s.resolve seeds .both).after ⟨((), []), .empty, 0⟩ = (.ok r, τ) ∧
      (s'.resolve seeds' .both).after ⟨((), []), .empty, 0⟩ = (.ok r', τ') ∧
      names τ.world.2 = ["even", "odd", "even", "odd"] ∧ names τ'.world.2 = ["odd", "even", "odd", "even"] ∧
      r.Same r' ∧ τ.cache.Same τ'.cache) ∧
    (learn (learn .empty (.named "even") seeds) (.named "odd") []).Same
      (learn (learn .empty (.named "odd") []) (.named "even") seeds) := by
  intro index v s s' seeds seeds' names learn
  have hcalm : s.Calm (fun _ => True) index := (index.calm_quiet v).noted
  have hcalm' : s'.Calm (fun _ => True) index := hcalm.rescheduled List.reverse_perm
  have hseeds : ∀ f, Listed seeds f ↔ Listed seeds' f := by
    intro f
    simp only [seeds, seeds', Listed.cons, Listed.nil]
    tauto
  have hstep : s.Resolves (.closure seeds .both) (s.resolve seeds .both) := .inTurn
  have hstep' : s'.Resolves (.closure seeds' .both) (s'.resolve seeds' .both) := .inTurn
  obtain ⟨r, τ, hr⟩ := hstep.calm (σ := ⟨((), []), .empty, 0⟩) hcalm (CallIndex.coherent_ofCalls _).isMirrored
    (fun coverage f _ => CallIndex.knows_ofCalls _ f coverage) trivial (Cache.agrees_empty index)
  rcases hr' : (s'.resolve seeds' .both).after ⟨((), []), .empty, 0⟩ with ⟨outcome', τ'⟩
  obtain ⟨hcommutes, hends⟩ := @order_within_round (Unit × List (Coverage × SourceFunction))
    (Unit × List (Coverage × SourceFunction)) SourceFunction _
  obtain ⟨hfound, hcache⟩ := hends index v s s' _ _ hcalm hcalm' (fun _ _ => rfl) (fun _ _ => rfl) .both seeds seeds'
    _ _ hseeds hstep hstep' _ _ _ _ 0 trivial trivial (.refl _) _ _ _ _ hr hr'
  obtain ⟨_, r', hok, rfl, hsame⟩ | ⟨e, _, hfailed, -⟩ := hfound
  · obtain rfl := Except.ok.inj hok
    have hlog : names ((s.resolve seeds .both).after ⟨((), []), .empty, 0⟩).2.world.2 =
        ["even", "odd", "even", "odd"] := by decide +kernel
    have hlog' : names ((s'.resolve seeds' .both).after ⟨((), []), .empty, 0⟩).2.world.2 =
        ["odd", "even", "odd", "even"] := by decide +kernel
    rw [hr] at hlog
    rw [hr'] at hlog'
    exact ⟨⟨r, τ, r', τ', hr, rfl, hlog, hlog', hsame, hcache⟩, hcommutes _ _ _ _ _ _ _ (by decide)⟩
  · cases hfailed

end Surroundings
end CallChart
