import CallChart.Proofs.CallList
import CallChart.Proofs.Questions

/-! What a search leaves behind that fails: the rounds that were completed before, and nothing of the
round in which it failed. -/
namespace CallChart

variable {W F : Type} [Handle F]

namespace Surroundings

open ExceptT

variable {s : Surroundings W F} {asking : Asking W F} {question : Question F} {σ τ : Search W F} {e : ResolveError}

private theorem Fails.recounted {α : Type} {q : Inquiry F α} (h : Fails s asking q σ e τ) (ha : s.AtOnce asking) :
    σ.cache.Recounted τ.cache := by
  cases h with
  | round hround => exact (ha.round_error s.keeps_true hround trivial).2.1
  | unbounded => exact .refl _

private theorem Fails.ne_unbounded {α : Type} {index : CallIndex F} {K : Coverage → F → Prop} {q : Inquiry F α}
    (h : Fails s asking q σ e τ) (ha : s.AtOnce asking) (hq : q.Ends index K) : e ≠ .unbounded := by
  cases h with
  | round hround =>
    obtain ⟨-, -, pending, -, hcause⟩ := ha.round_error s.keeps_true hround trivial
    rintro rfl
    exact hcause
  | unbounded => exact hq.elim

/-- Rounds are all or nothing. Wherever a search fails, in whatever way it asks about the functions of a round, some
of its rounds were completed, and the failing one adds to the cache nothing but hits and misses. So if all covered
sets were the answers of a coherent index, they still are; the search did not run out of rounds; and asking again in
calm surroundings, in turn or at once, gives what an empty cache gives. -/
theorem failed_answer {step : Searching W F (Resolution F)} (hstep : s.Resolves question step)
    (h : step.after σ = (.error e, τ)) :
    (∀ asking : Asking W F, s.AtOnce asking → step = s.answerBy asking question →
      ∃ r ρ, Rounds s asking (question.inquiry (s.limit question σ)) σ r ρ ∧ Fails s asking r ρ e τ ∧
        ρ.cache.Recounted τ.cache) ∧
    ∀ {index : CallIndex F} {I : W → Prop}, index.Coherent → s.Faithful I index → I σ.world →
      σ.cache.Agrees index →
      τ.cache.Agrees index ∧ (index.population ≤ s.population → e ≠ .unbounded) ∧
      ∀ {W' : Type} {s' : Surroundings W' F} {I' : W' → Prop} {w' : W'}, s'.Calm I' index → I' w' →
        (∀ f ∈ question.functions, index.Knows f) →
        ∀ {again fresh : Searching W' F (Resolution F)}, s'.Resolves question again → s'.Resolves question fresh →
        ∃ r r' ρ ρ', again.after ⟨w', τ.cache, 0⟩ = (.ok r, ρ) ∧
          fresh.after ⟨w', .empty, 0⟩ = (.ok r', ρ') ∧ r.Same r' := by
  have hrounds (asking : Asking W F) (ha : s.AtOnce asking) (heq : step = s.answerBy asking question) :
      ∃ r ρ, Rounds s asking (question.inquiry (s.limit question σ)) σ r ρ ∧ Fails s asking r ρ e τ ∧
        ρ.cache.Recounted τ.cache := by
    obtain ⟨r, ρ, hrounds, hfails⟩ := pursueBy_error (answerBy_error_iff.mp (heq ▸ h))
    exact ⟨r, ρ, hrounds, hfails, hfails.recounted ha⟩
  refine ⟨hrounds, ?_⟩
  intro index I hc hs hw hagrees
  have trust : ∀ coverage, Trust (Cache.Agrees index) index (fun _ => True) coverage :=
    Cache.Agrees.trust hc _
  have hafter : τ.cache.Agrees index := (hstep.keeps hs (fun _ _ => trivial) trust h hw hagrees).2
  refine ⟨hafter, fun hpopulation => ?_, ?_⟩
  · have hlimit : question.functions.length + index.population ≤ s.limit question σ := by
      unfold limit
      omega
    obtain ⟨asking, ha, heq⟩ := hstep.exists_asking
    obtain ⟨r, ρ, hcompleted, hfails, -⟩ := hrounds asking ha heq
    exact hfails.ne_unbounded ha
      (hcompleted.ends_of_trust ha hs (fun _ _ => trivial) trust (Question.inquiry_ends hlimit) hw hagrees)
  · intro W' s' I' w' hcalm hw' hq again fresh hagain hfresh
    obtain ⟨r, ρ, hr⟩ := hagain.calm_of_trust (σ := ⟨w', τ.cache, 0⟩) hcalm (fun _ _ => trivial) trust
      (fun coverage f hf => hf.knows hc hq coverage) hw' hafter
    obtain ⟨r', ρ', hr', hsame⟩ :=
      hagain.exists_fresh hcalm.faithful (fun _ _ => trivial) trust hw' hafter hr hc hq hcalm hfresh hw'
    exact ⟨r, r', ρ, ρ', hr, hr', hsame⟩

/-- Nothing happens but that the search is to stop after so many questions to the index. -/
def hurried (index : CallIndex F) (v : Versions) (questions : Nat) : Surroundings Nat F where
  cancelled asked := (decide (questions ≤ asked), asked)
  versions := pure v
  ask coverage f asked := (index.neighbours coverage f, asked + 1)
  progress _ := pure ()
  schedule := id
  population := index.population

theorem faithful_hurried (index : CallIndex F) (v : Versions) (questions : Nat) :
    (hurried index v questions).Faithful (fun _ => True) index where
  cancelled := id
  versions := id
  ask _ _ := id
  progress _ := id
  answers _ h := h
  schedule fs := .refl fs

/-- A chain of two calls is left after the first one and followed again. -/
theorem failed_chain :
    let index : CallIndex SourceFunction := .ofCalls [⟨.named "main", .named "run"⟩, ⟨.named "run", .named "stop"⟩]
    let question : Question SourceFunction := .closure [.named "main"] .downstream
    let v := (FileVersions.start none).now
    ∃ τ, ((hurried index v 1).answer question).after ⟨0, .empty, 0⟩ = (.error .cancelled, τ) ∧
      τ.cache.size = 1 ∧ ∃ r r' ρ ρ',
        ((index.quiet v).answer question).after ⟨(), τ.cache, 0⟩ = (.ok r, ρ) ∧
          ((index.quiet v).answer question).after ⟨(), .empty, 0⟩ = (.ok r', ρ') ∧ r.Same r' := by
  intro index question v
  have hfails : ((hurried index v 1).answer question).after ⟨0, .empty, 0⟩ =
      (.error .cancelled, (((hurried index v 1).answer question).after ⟨0, .empty, 0⟩).2) :=
    Prod.ext (by rfl) rfl
  refine ⟨_, hfails, by decide +kernel, ?_⟩
  have hempty : (Cache.empty : Cache SourceFunction).Agrees index := fun coverage =>
    (Cache.uncoveredAt_empty coverage).agreesAt
  obtain ⟨-, -, hagain⟩ := (failed_answer .inTurn hfails).2 (CallIndex.coherent_ofCalls _)
    (faithful_hurried index v 1) trivial hempty
  exact hagain (index.calm_quiet v) trivial (fun f _ => CallIndex.knows_ofCalls _ f) .inTurn .inTurn

end Surroundings
end CallChart
