import CallChart.Proofs.CallList
import CallChart.Proofs.Course
import Mathlib.Data.List.Perm.Subperm

/-! What a search asks of the index, as somebody sees it who writes down every question, and how often it looks
into the cache. -/
namespace CallChart

variable {W F α : Type} [Handle F]

namespace Surroundings

/-- Every question to the index is written down when it is asked, and nothing else is. -/
structure Logs (s : Surroundings W F) (log : W → List (Coverage × F)) : Prop where
  cancelled (w : W) : log (s.cancelled.run w).2 = log w
  versions (w : W) : log (s.versions.run w).2 = log w
  ask (coverage : Coverage) (f : F) (w : W) : log ((s.ask coverage f).run w).2 = log w ++ [(coverage, f)]
  progress (n : Nat) (w : W) : log ((s.progress n).run w).2 = log w

/-- The same surroundings, with a list of the questions to the index. -/
def noted (s : Surroundings W F) : Surroundings (W × List (Coverage × F)) F where
  cancelled := fun (w, log) => ((s.cancelled.run w).1, ((s.cancelled.run w).2, log))
  versions := fun (w, log) => ((s.versions.run w).1, ((s.versions.run w).2, log))
  ask coverage f := fun (w, log) =>
    (((s.ask coverage f).run w).1, (((s.ask coverage f).run w).2, log ++ [(coverage, f)]))
  progress n := fun (w, log) => ((), (((s.progress n).run w).2, log))
  schedule := s.schedule
  population := s.population

theorem logs_noted (s : Surroundings W F) : s.noted.Logs Prod.snd :=
  ⟨fun _ => rfl, fun _ => rfl, fun _ _ _ => rfl, fun _ _ => rfl⟩

theorem Calm.noted {s : Surroundings W F} {I : W → Prop} {index : CallIndex F} (hs : s.Calm I index) :
    s.noted.Calm (fun w => I w.1) index where
  cancelled := hs.cancelled
  versions := hs.versions
  ask coverage f := hs.ask coverage f
  progress n := hs.progress n
  quiet := hs.quiet
  answers coverage f := hs.answers coverage f
  schedule := hs.schedule
  population := hs.population

end Surroundings

/-! ### One round asks at once -/

/-- The index was asked on an errand. -/
def Errand.hasAsked : Errand F → Bool
  | answered _ | counted _ _ | done _ | failed (.index _) => true
  | waiting | leaving | dropped | failed .cancelled | failed .unbounded => false

namespace Crew

/-- The questions that some errands have asked. -/
def questions (coverage : Coverage) (errands : List (F × Errand F)) : List (Coverage × F) :=
  (errands.filter fun errand => errand.2.hasAsked).map fun errand => (coverage, errand.1)

variable {s : Surroundings W F} {log : W → List (Coverage × F)} {coverage : Coverage} {counted : Bool}
  {base : List (Coverage × F)} {f : F} {w w' : W} {n n' : Nat} {e e' : Errand F} {errands rest : List (F × Errand F)}

omit [Handle F] in
theorem questions_append (coverage : Coverage) (errands rest : List (F × Errand F)) (f : F) (e : Errand F) :
    questions coverage (errands ++ (f, e) :: rest) =
      questions coverage errands ++ ((if e.hasAsked then [(coverage, f)] else []) ++ questions coverage rest) := by
  rw [questions, List.filter_append, List.filter_cons, List.map_append]
  cases e.hasAsked <;> rfl

/-- The questions written down since the errands began are those that the errands have asked. -/
def Logged (log : W → List (Coverage × F)) (coverage : Coverage) (base : List (Coverage × F)) (c : Crew W F) : Prop :=
  ∃ asked, log c.world = base ++ asked ∧ asked.Perm (questions coverage c.errands)

omit [Handle F] in
/-- An errand that goes on and asks nothing. -/
theorem Logged.move (h : Logged log coverage base ⟨w, n, errands ++ (f, e) :: rest⟩) (hw : log w' = log w)
    (hasked : e'.hasAsked = e.hasAsked) : Logged log coverage base ⟨w', n', errands ++ (f, e') :: rest⟩ := by
  obtain ⟨asked, hlog, hperm⟩ := h
  refine ⟨asked, hw.trans hlog, ?_⟩
  rw [questions_append] at hperm ⊢
  rwa [hasked]

omit [Handle F] in
/-- An errand that asks. -/
theorem Logged.ask (h : Logged log coverage base ⟨w, n, errands ++ (f, e) :: rest⟩)
    (hw : log w' = log w ++ [(coverage, f)]) (he : e.hasAsked = false) (he' : e'.hasAsked = true) :
    Logged log coverage base ⟨w', n', errands ++ (f, e') :: rest⟩ := by
  obtain ⟨asked, hlog, hperm⟩ := h
  refine ⟨asked ++ [(coverage, f)], ?_, ?_⟩
  · rw [hw, hlog, List.append_assoc]
  · rw [questions_append, he] at hperm
    rw [questions_append, he']
    exact (List.perm_append_singleton _ _).trans ((hperm.cons _).trans List.perm_middle.symm)

theorem Logged.step (hl : s.Logs log) {c c' : Crew W F} (h : Logged log coverage base c)
    (hstep : Step s coverage counted c c') : Logged log coverage base c' := by
  cases hstep with
  | drop errands rest _ => exact h.move rfl rfl
  | advance errands rest hadvance =>
    cases hadvance with
    | leave _ => exact h.move (hl.cancelled _) rfl
    | stop _ => exact h.move (hl.cancelled _) rfl
    | ask _ => exact h.ask (hl.ask _ _ _) rfl rfl
    | fail _ => exact h.ask (hl.ask _ _ _) rfl rfl
    | count _ => exact h.move rfl rfl
    | tell => exact h.move (hl.progress _ _) rfl
    | keep _ => exact h.move rfl rfl

theorem Logged.run (hl : s.Logs log) {c c' : Crew W F} (h : Logged log coverage base c)
    (hrun : Run s coverage counted c c') : Logged log coverage base c' := by
  induction hrun with
  | refl => exact h
  | tail _ hstep ih => exact ih.step hl hstep

omit [Handle F] in
theorem logged_begin (log : W → List (Coverage × F)) (coverage : Coverage) (w : W) (n : Nat) (functions : List F) :
    Logged log coverage (log w) (begin w n functions) := by
  refine ⟨[], (List.append_nil _).symm, .of_eq ?_⟩
  have hnone : (begin w n functions).errands.filter (fun errand => errand.2.hasAsked) = [] := by
    rw [List.filter_eq_nil_iff]
    intro errand herrand
    obtain ⟨f, -, rfl⟩ := List.mem_map.mp herrand
    exact Bool.false_ne_true
  rw [questions, hnone]
  rfl

/-- About no function is asked twice. -/
theorem subperm_questions {c : Crew W F} {functions : List F}
    (hrun : Run s coverage counted (.begin w n functions) c) :
    (questions coverage c.errands).Subperm (functions.map (coverage, ·)) := by
  have hfunctions : c.errands.map Prod.fst = functions := by
    refine hrun.functions.trans ?_
    rw [begin, List.map_map]
    exact List.map_id _
  rw [← hfunctions, List.map_map]
  exact (List.filter_sublist.map _).subperm

end Crew

namespace Surroundings

open ExceptT

variable {s : Surroundings W F} {log : W → List (Coverage × F)} {asking : Asking W F} {q : Inquiry F α}
  {σ τ : Search W F} {legs : List (Leg F)} {outcome : Except ResolveError α}

/-- Whether it succeeds or fails, asking about functions at once asks about each of them at most once. -/
theorem AtOnce.logged (ha : s.AtOnce asking) (hl : s.Logs log) (hschedule : ∀ fs, (s.schedule fs).Perm fs)
    {coverage : Coverage} {counted : Bool} {functions : List F} {result : Except ResolveError (Answers F)}
    (h : (asking coverage counted functions).after σ = (result, τ)) :
    ∃ asked, log τ.world = log σ.world ++ asked ∧ asked.Subperm (functions.map (coverage, ·)) := by
  obtain ⟨c, hrun, -, hlast⟩ := ha coverage counted functions σ
  rw [h] at hlast
  obtain rfl : τ = ⟨c.world, σ.cache, c.processed⟩ := hlast
  obtain ⟨asked, hlog, hperm⟩ :=
    (Crew.logged_begin log coverage σ.world σ.processed (s.schedule functions)).run hl hrun
  refine ⟨asked, hlog, hperm.subperm.trans ((Crew.subperm_questions hrun).trans ?_)⟩
  exact ((hschedule functions).map _).subperm

namespace Logs

variable (hl : s.Logs log)
include hl

theorem tickIf (counted : Bool) (σ : Search W F) : log ((s.tickIf counted).run σ).2.world = log σ.world := by
  rw [run_tickIf]
  cases counted with
  | false => rfl
  | true => exact hl.progress _ _

theorem consult (coverage : Coverage) (counted : Bool) (round : List F) (σ : Search W F) :
    log ((s.consult coverage counted round).run σ).2.world = log σ.world := by
  induction round generalizing σ with
  | nil => rfl
  | cons f rest ih =>
    have hasked : log (s.asked coverage f σ).world = log σ.world := hl.versions σ.world
    cases hk : σ.cache.freshNeighbours? coverage f (s.versions.run σ.world).1 with
    | none =>
      rw [run_consult_miss hk]
      exact (ih _).trans hasked
    | some known =>
      rw [run_consult_hit hk]
      exact (ih _).trans ((hl.tickIf counted _).trans hasked)

theorem commit (coverage : Coverage) (answers : Answers F) (σ : Search W F) :
    log ((s.commit coverage answers).run σ).2.world = log σ.world := by
  induction answers generalizing σ with
  | nil => rfl
  | cons answer rest ih => exact (ih _).trans (hl.versions σ.world)

end Logs

/-- A search asks the index about functions that the cache had no answer for, once about each that a round has
met. -/
theorem Course.logged (ha : s.AtOnce asking) (hl : s.Logs log) (hschedule : ∀ fs, (s.schedule fs).Perm fs)
    (h : s.Course asking q σ legs outcome τ) :
    ∃ asked, log τ.world = log σ.world ++ asked ∧ asked.Subperm (legs.flatMap Leg.missed) := by
  induction h with
  | done => exact ⟨[], (List.append_nil _).symm, List.nil_subperm⟩
  | unbounded => exact ⟨[], (List.append_nil _).symm, List.nil_subperm⟩
  | stopped => exact ⟨[], (hl.cancelled _).trans (List.append_nil _).symm, List.nil_subperm⟩
  | @failed coverage counted round pending next known e σ ρ τ _ hconsult hasked =>
    have hρ := hl.consult coverage counted round (s.checked σ)
    rw [hconsult] at hρ
    obtain ⟨asked, hlog, hsub⟩ := ha.logged hl hschedule hasked
    refine ⟨asked, hlog.trans (congrArg (· ++ asked) (hρ.trans (hl.cancelled σ.world))), ?_⟩
    rw [List.flatMap_singleton]
    exact hsub
  | @round coverage counted round pending next known learned legs outcome σ ρ ρ' τ _ hconsult hasked _ ih =>
    have hρ := hl.consult coverage counted round (s.checked σ)
    rw [hconsult] at hρ
    obtain ⟨first, hfirst, hsub⟩ := ha.logged hl hschedule hasked
    obtain ⟨others, hothers, hsub'⟩ := ih
    refine ⟨first ++ others, ?_, ?_⟩
    · rw [hothers, hl.commit, hfirst, ← List.append_assoc]
      exact congrArg (· ++ first ++ others) (hρ.trans (hl.cancelled σ.world))
    · rw [List.flatMap_cons]
      exact hsub.append hsub'

end Surroundings

/-! ### Looks into the cache -/

namespace Cache

/-- How often a cache was asked for the neighbours of a function. -/
def consultations (c : Cache F) : Nat := c.hits + c.misses

theorem consultations_cachedNeighbours (c : Cache F) (coverage : Coverage) (f : F) (v : Versions) :
    (c.cachedNeighbours coverage f v).2.consultations = c.consultations + 1 := by
  unfold cachedNeighbours
  split
  · exact Nat.add_right_comm c.hits 1 c.misses
  · rfl

theorem consultations_replace (c : Cache F) (coverage : Coverage) (f : F) (answer : List F) (v : Versions) :
    (c.replaceNeighbours coverage f answer v).consultations = c.consultations := by
  have hremove (calls : List (Call F)) (c : Cache F) : (calls.foldl remove c).consultations = c.consultations := by
    induction calls generalizing c with
    | nil => rfl
    | cons call rest ih => exact ih _
  have hrecord (calls : List (Call F)) (c : Cache F) :
      (calls.foldl (fun c call => c.record call v) c).consultations = c.consultations := by
    induction calls generalizing c with
    | nil => rfl
    | cons call rest ih => exact ih _
  have hmark (c : Cache F) : (c.markCovered coverage f v).consultations = c.consultations := by
    cases coverage <;> rfl
  rw [replaceNeighbours, hmark, hrecord, hremove]

end Cache

namespace Surroundings

open ExceptT

variable {s : Surroundings W F} {asking : Asking W F} {q : Inquiry F α} {σ τ : Search W F} {legs : List (Leg F)}
  {outcome : Except ResolveError α}

theorem consultations_consult (s : Surroundings W F) (coverage : Coverage) (counted : Bool) (round : List F)
    (σ : Search W F) :
    ((s.consult coverage counted round).run σ).2.cache.consultations = σ.cache.consultations + round.length := by
  induction round generalizing σ with
  | nil => rfl
  | cons f rest ih =>
    have hasked : (s.asked coverage f σ).cache.consultations = σ.cache.consultations + 1 :=
      Cache.consultations_cachedNeighbours ..
    rw [List.length_cons, Nat.add_comm rest.length, ← Nat.add_assoc, ← hasked]
    cases hk : σ.cache.freshNeighbours? coverage f (s.versions.run σ.world).1 with
    | none =>
      rw [run_consult_miss hk]
      exact ih _
    | some known =>
      rw [run_consult_hit hk]
      refine (ih _).trans (congrArg (fun c : Cache F => c.consultations + rest.length) ?_)
      rw [run_tickIf]

theorem consultations_commit (s : Surroundings W F) (coverage : Coverage) (answers : Answers F) (σ : Search W F) :
    ((s.commit coverage answers).run σ).2.cache.consultations = σ.cache.consultations := by
  induction answers generalizing σ with
  | nil => rfl
  | cons answer rest ih => exact (ih _).trans (Cache.consultations_replace ..)

/-- A search looks into the cache once for each function of each of its rounds. -/
theorem Course.consultations (ha : s.AtOnce asking) (h : s.Course asking q σ legs outcome τ) :
    τ.cache.consultations = σ.cache.consultations + (legs.flatMap Leg.consulted).length := by
  have hasking {coverage counted pending} {result : Except ResolveError (Answers F)} {ρ ρ' : Search W F}
      (hasked : (asking coverage counted pending).after ρ = (result, ρ')) : ρ'.cache = ρ.cache := by
    obtain ⟨c, -, -, hlast⟩ := ha coverage counted pending ρ
    rw [hasked] at hlast
    obtain rfl : ρ' = ⟨c.world, ρ.cache, c.processed⟩ := hlast
    rfl
  induction h with
  | done => rfl
  | unbounded => rfl
  | stopped => rfl
  | @failed coverage counted round pending next known e σ ρ τ _ hconsult hasked =>
    have hρ := s.consultations_consult coverage counted round (s.checked σ)
    rw [hconsult] at hρ
    rw [hasking hasked, List.flatMap_singleton, Leg.consulted, List.length_map]
    exact hρ
  | @round coverage counted round pending next known learned legs outcome σ ρ ρ' τ _ hconsult hasked _ ih =>
    have hρ := s.consultations_consult coverage counted round (s.checked σ)
    rw [hconsult] at hρ
    rw [ih, consultations_commit, hasking hasked, List.flatMap_cons, List.length_append, Leg.consulted,
      List.length_map, ← Nat.add_assoc]
    exact congrArg (· + _) hρ

end Surroundings
end CallChart
