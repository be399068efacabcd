import CallChart.Proofs.CallList
import CallChart.Proofs.Questions

/-! Following calls with an empty cache, for any index: it may have cycles and need not tell the same
calls in both directions. A pass in one direction leaves no token for the other, so the second pass
is not misled by what the first one recorded. -/
namespace CallChart

variable {W F : Type} [Handle F]

namespace Surroundings

open ExceptT

variable {s : Surroundings W F} {I : W → Prop} {index : CallIndex F} {asking : Asking W F}

/-- While calls are followed in one direction, its covered sets are the index's answers, and no
function is covered in the directions still to come. -/
def Underway (index : CallIndex F) (coverage : Coverage) (rest : List Coverage) (c : Cache F) : Prop :=
  c.AgreesAt index coverage ∧ ∀ side ∈ rest, c.UncoveredAt side

private theorem trust_underway (index : CallIndex F) {coverage : Coverage} {rest : List Coverage}
    (hnew : coverage ∉ rest) (side : Coverage) (hside : side = coverage) :
    Trust (Underway index coverage rest) index (fun _ => True) side := by
  subst hside
  refine ⟨fun h _ => h.1.served, fun h _ ha => ⟨h.1.learned ha, fun other hother => ?_⟩, fun _ _ h => h⟩
  exact (h.2 other hother).learned fun heq => hnew (heq ▸ hother)

private theorem pursueBy_closeAll_ok (ha : s.AtOnce asking) (hs : s.Faithful I index) {rounds : Nat} {seeds : List F}
    {coverages : List Coverage} (hnodup : coverages.Nodup) {start r : Resolution F}
    {σ τ : Search W F}
    (h : (s.pursueBy asking (.closeAll rounds seeds coverages start)).after σ = (.ok r, τ)) (hw : I σ.world)
    (huncovered : ∀ coverage ∈ coverages, σ.cache.UncoveredAt coverage) :
    ∃ n, (Inquiry.closeAll rounds seeds coverages start).Outcome index r n ∧
      τ.processed = σ.processed + n := by
  induction coverages generalizing start σ with
  | nil =>
    cases h
    exact ⟨0, .done, rfl⟩
  | cons coverage rest ih =>
    obtain ⟨hnew, hrest⟩ := List.nodup_cons.mp hnodup
    obtain ⟨hfirst, hothers⟩ := List.forall_mem_cons.mp huncovered
    rw [Inquiry.closeAll, pursueBy_bind] at h
    obtain ⟨found, ρ, hpass, hmore⟩ := after_bind_ok.mp h
    obtain ⟨hw', hP, k, hclose, hk⟩ := ha.pursueBy_ok hs (fun _ _ => trivial) (trust_underway index hnew)
      (Inquiry.close_asksOnly ..) hpass hw ⟨hfirst.agreesAt, hothers⟩
    obtain ⟨m, houtcome, hm⟩ := ih hrest hmore hw' hP.2
    exact ⟨k + m, Inquiry.outcome_bind.mpr ⟨found, k, m, hclose, houtcome, rfl⟩, by omega⟩

private theorem pursueBy_closeAll_calm (ha : s.AtOnce asking) (hs : s.Calm I index) {rounds : Nat} {seeds : List F}
    {coverages : List Coverage} (hnodup : coverages.Nodup)
    (hrounds : seeds.length + index.population ≤ rounds)
    (hknown : ∀ coverage ∈ coverages, ∀ f, index.Reached coverage seeds f →
      ∃ found, index.neighbours coverage f = .ok found)
    (start : Resolution F) {σ : Search W F} (hw : I σ.world)
    (huncovered : ∀ coverage ∈ coverages, σ.cache.UncoveredAt coverage) :
    ∃ r τ, (s.pursueBy asking (.closeAll rounds seeds coverages start)).after σ = (.ok r, τ) := by
  induction coverages generalizing start σ with
  | nil => exact ⟨start, σ, rfl⟩
  | cons coverage rest ih =>
    obtain ⟨hnew, hrest⟩ := List.nodup_cons.mp hnodup
    obtain ⟨hfirst, hothers⟩ := List.forall_mem_cons.mp huncovered
    obtain ⟨hreached, hlater⟩ := List.forall_mem_cons.mp hknown
    obtain ⟨names, hlength, hnames⟩ := index.exists_names
    have hends : (Inquiry.close coverage rounds ∅ (gather seeds).toList start).Ends index fun side f =>
        ∃ found, index.neighbours side f = .ok found :=
      (Inquiry.close_ends hnames (Inquiry.Wave.first index coverage seeds start)
        (by rw [Std.TreeSet.size_emptyc]; omega)).mono fun side f hf => hf.1 ▸ hreached f hf.2
    have hstart : Underway index coverage rest σ.cache := ⟨hfirst.agreesAt, hothers⟩
    obtain ⟨found, ρ, hpass⟩ := ha.pursueBy_calm hs (fun _ _ => trivial) (trust_underway index hnew)
      (Inquiry.close_asksOnly ..) hends hw hstart
    obtain ⟨hw', hP, -⟩ := ha.pursueBy_ok hs.faithful (fun _ _ => trivial) (trust_underway index hnew)
      (Inquiry.close_asksOnly ..) hpass hw hstart
    obtain ⟨r, τ, hmore⟩ := ih hrest hlater found hw' hP.2
    refine ⟨r, τ, ?_⟩
    rw [Inquiry.closeAll, pursueBy_bind]
    exact after_bind_ok.mpr ⟨found, ρ, hpass, hmore⟩

private theorem listed_or_called {seeds : List F} (direction : Direction) {f : F} :
    (Listed seeds f ∨ ∃ coverage ∈ direction.coverages,
        ∃ g, index.Reached coverage seeds g ∧ index.Names coverage g f) ↔
      ∃ coverage ∈ direction.coverages, index.Reached coverage seeds f := by
  obtain ⟨some, hsome⟩ : ∃ coverage, coverage ∈ direction.coverages := by
    cases direction <;> exact ⟨_, List.mem_cons_self⟩
  constructor
  · rintro (hs | ⟨coverage, hc, g, hr, hn⟩)
    · exact ⟨some, hsome, .seed hs⟩
    · exact ⟨coverage, hc, .call hr hn⟩
  · rintro ⟨coverage, hc, hr⟩
    rcases CallIndex.Reached.iff_seed_or_call.mp hr with hs | ⟨g, hr, hn⟩
    · exact .inl hs
    · exact .inr ⟨coverage, hc, g, hr, hn⟩

/-- A call found from one of its ends is the call between two functions of which one was reached and
the other named. -/
private theorem reached_call_iff {seeds : List F} {coverage : Coverage} {k : Call F} :
    (∃ f g, index.Reached coverage seeds f ∧ index.Names coverage f g ∧
        compare (coverage.call f g) k = .eq) ↔
      index.Reached coverage seeds (coverage.near k) ∧
        index.Names coverage (coverage.near k) (coverage.far k) := by
  constructor
  · rintro ⟨f, g, hr, hn, hk⟩
    rw [coverage.compare_iff, Coverage.near_call, Coverage.far_call] at hk
    exact ⟨hr.congr hk.1, hn.congr hk.1 hk.2⟩
  · rintro ⟨hr, hn⟩
    exact ⟨_, _, hr, hn, by rw [Coverage.call_near_far]; exact compare_refl k⟩

/-- Following calls with an empty cache. Whatever happens meanwhile, a search that succeeds finds the
functions that the seeds lead to, in each direction asked for, and the calls by which it came to
them, and counts every function once in each direction, whether it asks about the functions of a round in turn or
at once. If nothing happens and the index answers about all these functions, the search succeeds. -/
theorem resolve_with_empty_cache (hs : s.Faithful I index) (seeds : List F) (direction : Direction)
    {step : Searching W F (Resolution F)} (hstep : s.Resolves (.closure seeds direction) step)
    {w : W} (hw : I w) (n : Nat) :
    (∀ r τ, step.after ⟨w, .empty, n⟩ = (.ok r, τ) →
      (∀ f, f ∈ r.functions ↔
        ∃ coverage ∈ direction.coverages, index.Reached coverage seeds f) ∧
      (∀ k, k ∈ r.calls ↔ ∃ coverage ∈ direction.coverages, ∃ f g,
        index.Reached coverage seeds f ∧ index.Names coverage f g ∧
          compare (coverage.call f g) k = .eq) ∧
      ∃ closed : Coverage → Std.TreeSet F,
        (∀ coverage ∈ direction.coverages, ∀ f,
          f ∈ closed coverage ↔ index.Reached coverage seeds f) ∧
        r.processed = n + (direction.coverages.map fun coverage => (closed coverage).size).foldr (· + ·) 0) ∧
    (s.Calm I index → (∀ coverage ∈ direction.coverages, ∀ f, index.Reached coverage seeds f →
        ∃ found, index.neighbours coverage f = .ok found) →
      ∃ r τ, step.after ⟨w, .empty, n⟩ = (.ok r, τ)) := by
  obtain ⟨asking, ha, rfl⟩ := hstep.exists_asking
  refine ⟨fun r τ h => ?_, fun hcalm hknown => ?_⟩
  · obtain ⟨found, hpursue, rfl⟩ := answerBy_ok_iff.mp h
    obtain ⟨k, houtcome, hk⟩ := pursueBy_closeAll_ok ha hs direction.nodup_coverages hpursue hw
      fun coverage _ => Cache.uncoveredAt_empty coverage
    obtain ⟨closed, hclosed, hfunctions, hcalls, rfl⟩ :=
      Inquiry.closeAll_outcome direction.nodup_coverages houtcome
    refine ⟨fun f => ?_, fun k => ?_, closed, hclosed, hk⟩
    · rw [hfunctions, mem_ofList_iff]
      exact listed_or_called direction
    · rw [hcalls, or_iff_right Std.TreeSet.not_mem_emptyc]
      refine exists_congr fun coverage => and_congr_right fun _ => ?_
      exact reached_call_iff.symm
  · let σ : Search W F := ⟨w, .empty, n⟩
    have hlimit : seeds.length + index.population ≤ s.limit (.closure seeds direction) σ := by
      have := hcalm.population
      unfold limit
      exact Nat.add_le_add (Nat.le_add_right _ _) this
    obtain ⟨found, τ, hfound⟩ := pursueBy_closeAll_calm ha hcalm (σ := σ) direction.nodup_coverages hlimit
      hknown ⟨Std.TreeSet.ofList seeds, ∅, 0⟩ hw fun coverage _ => Cache.uncoveredAt_empty coverage
    exact ⟨_, τ, answerBy_ok_iff.mpr ⟨found, hfound, rfl⟩⟩

/-- Two functions that call each other, and one of them itself. -/
theorem resolve_recursion :
    let index : CallIndex SourceFunction := .ofCalls [⟨.named "even", .named "odd"⟩, ⟨.named "odd", .named "even"⟩,
      ⟨.named "odd", .named "odd"⟩]
    let s := index.quiet (FileVersions.start none).now
    ∃ r τ, (s.resolve [.named "even"] .downstream).after ⟨(), .empty, 0⟩ = (.ok r, τ) ∧
      ∀ f, f ∈ r.functions ↔ ∃ coverage ∈ Direction.downstream.coverages,
        index.Reached coverage [.named "even"] f := by
  intro index s
  have hcalm := index.calm_quiet (FileVersions.start none).now
  obtain ⟨hfound, hends⟩ :=
    resolve_with_empty_cache hcalm.faithful [.named "even"] .downstream .inTurn (w := ()) trivial 0
  obtain ⟨r, τ, hr⟩ := hends hcalm fun coverage _ f _ => CallIndex.knows_ofCalls _ f coverage
  exact ⟨r, τ, hr, (hfound r τ hr).1⟩

end Surroundings
end CallChart
