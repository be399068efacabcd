import CallChart.Proofs.CacheSynced
import CallChart.Proofs.CallList
import CallChart.Proofs.Questions

/-! A search that begins with all functions of a project. One round asks about everything there is, so
what the cache serves, right or wrong, stands in the result as it is. -/
namespace CallChart

variable {W F : Type} [Handle F]

/-- The functions of a project are those that a scope of the index may have, and it answers about each
of them with functions of the project. -/
structure CallIndex.Covers (index : CallIndex F) (project : Std.TreeSet F) : Prop where
  whole : index.functions .whole = .ok project
  scopes {scope : Scope} {found : Std.TreeSet F} {f : F} : index.functions scope = .ok found →
    f ∈ found → f ∈ project
  knows {f : F} : f ∈ project → index.Knows f
  named {coverage : Coverage} {f g : F} : index.Names coverage f g → g ∈ project

/-- Both ends of a call that is found from one end are in the project. -/
theorem CallIndex.Covers.ends {index : CallIndex F} {project : Std.TreeSet F} (hp : index.Covers project)
    {coverage : Coverage} {k : Call F} (hnear : coverage.near k ∈ project)
    (hnamed : index.Names coverage (coverage.near k) (coverage.far k)) :
    k.caller ∈ project ∧ k.callee ∈ project := by
  cases coverage with
  | callers => exact ⟨hp.named hnamed, hnear⟩
  | callees => exact ⟨hnear, hp.named hnamed⟩

theorem CallIndex.covers_ofCalls (calls : List (Call F)) :
    (ofCalls calls).Covers (Std.TreeSet.ofList (ends calls)) where
  whole := rfl
  scopes h hf := Except.ok.inj h ▸ hf
  knows {f} _ := knows_ofCalls calls f
  named h := mem_ofList_iff.mpr (exists_ends (names_ofCalls.mp h))

/-- The way to follow calls in one direction only. -/
def Coverage.direction : Coverage → Direction
  | callers => .upstream
  | callees => .downstream

theorem Coverage.coverages_direction (coverage : Coverage) : coverage.direction.coverages = [coverage] := by
  cases coverage <;> rfl

namespace Surroundings

open ExceptT

variable {s : Surroundings W F} {I : W → Prop} {index : CallIndex F} {project : Std.TreeSet F}
  {coverage : Coverage} {v : Versions}

/-- The answers of a round are those that the cache serves and, where it serves none, the index's. -/
theorem answerRound_calm_answers (hs : s.Calm I index) (hv : ∀ w, I w → (s.versions.run w).1 = v)
    {round : List F} {σ τ : Search W F} {answers : Answers F} {counted : Bool}
    (h : (s.answerRound coverage counted round).after σ = (.ok answers, τ)) (hw : I σ.world) :
    (answers.map Prod.fst).Perm round ∧ ∀ answer ∈ answers,
      σ.cache.freshNeighbours? coverage answer.1 v = some answer.2 ∨
        σ.cache.freshNeighbours? coverage answer.1 v = none ∧ index.IsAnswer coverage answer.1 answer.2 := by
  obtain ⟨known, learned, ρ, hsourced, rfl, -⟩ := s.atOnce_inTurn.round_sourced hs.faithful hv h hw
  refine ⟨hsourced.functions, fun answer ha => ?_⟩
  rcases List.mem_append.mp ha with hknown | hlearned
  · exact .inl (hsourced.served answer hknown)
  · obtain ⟨hmissed, found, hfound, htold⟩ := hsourced.told answer hlearned
    refine .inr ⟨hmissed, ?_⟩
    rw [htold]
    exact CallIndex.isAnswer_toList hfound

/-- If the answers of the first round name nothing new, it is the only one. -/
theorem pursue_close_once {first : List F} {rounds : Nat} {start : Resolution F} {answers : Answers F}
    {σ τ : Search W F} (hfirst : first ≠ []) (hrounds : first.length ≤ rounds)
    (hround : (s.answerRound coverage true first).after σ = (.ok answers, τ))
    (hinside : ∀ answer ∈ answers, ∀ g, Listed answer.2 g → Listed first g) :
    (s.pursue (.close coverage rounds ∅ first start)).after σ =
      (.ok (start.addAnswers coverage answers), τ) := by
  obtain ⟨f, rest, rfl⟩ := List.exists_cons_of_ne_nil hfirst
  obtain ⟨m, rfl⟩ : ∃ m, rounds = m + 1 := by
    rw [List.length_cons] at hrounds
    exact ⟨rounds - 1, by omega⟩
  have hnext : (Inquiry.nextRound ((f :: rest).foldl Std.TreeSet.insert ∅) answers).toList = [] := by
    rw [List.eq_nil_iff_forall_not_mem]
    intro g hg
    obtain ⟨⟨answer, ha, hlisted⟩, hnew⟩ := Inquiry.Wave.mem_nextRound.mp (Std.TreeSet.mem_of_mem_toList hg)
    exact hnew ((mem_foldl_insert _ _ _).mpr (.inr (hinside answer ha g hlisted)))
  rw [Inquiry.close, pursue_ask]
  refine after_bind_ok.mpr ⟨answers, τ, hround, ?_⟩
  dsimp only
  rw [hnext, Inquiry.close]
  rfl

/-- With an empty cache the same search finds all calls of the project's functions. -/
theorem calls_of_answer_project (hs : s.Faithful I index) (hc : index.Coherent) (hp : index.Covers project)
    {r : Resolution F} {w : W} {n : Nat} {τ : Search W F}
    (h : (s.answer (.closure project.toList coverage.direction)).after ⟨w, .empty, n⟩ = (.ok r, τ)) (hw : I w)
    (k : Call F) : k ∈ r.calls ↔
      coverage.near k ∈ project ∧ index.Names coverage (coverage.near k) (coverage.far k) := by
  obtain ⟨_, hanswered, -⟩ := Resolves.inTurn.answered_of_trust hs (V := fun _ => True) (fun _ _ => trivial)
    (Cache.Agrees.trust hc _) h hw fun side => (Cache.uncoveredAt_empty side).agreesAt
  have hreached (f : F) : index.Reached coverage project.toList f ↔ f ∈ project := by
    constructor
    · intro hf
      cases hf with
      | seed hseed => exact listed_toList_iff.mp hseed
      | call _ hnamed => exact hp.named hnamed
    · exact fun hf => .seed (listed_toList_iff.mpr hf)
  rw [hanswered.calls]
  constructor
  · rintro ⟨side, ⟨hside, hf⟩, hnamed, -⟩
    rw [coverage.coverages_direction, List.mem_singleton] at hside
    subst hside
    exact ⟨(hreached _).mp hf, hnamed⟩
  · rintro ⟨hf, hnamed⟩
    refine ⟨coverage, ⟨?_, (hreached _).mpr hf⟩, hnamed, trivial⟩
    rw [coverage.coverages_direction]
    exact List.mem_singleton_self coverage

private theorem listed_first (project : Std.TreeSet F) (g : F) :
    Listed (gather project.toList).toList g ↔ g ∈ project := by
  rw [listed_toList_iff, mem_gather_iff, listed_toList_iff]

/-- The round that asks about all functions of a project: it asks about no others, the answers name no
others, and what the pruned cache serves is an answer as it is. -/
theorem answerRound_project (hs : s.Calm I index) (hv : ∀ w, I w → (s.versions.run w).1 = v)
    (hp : index.Covers project) {c : Cache F} (hc : c.Synced) {σ : Search W F} (hw : I σ.world)
    (hcache : σ.cache = (c.prune project v).2) :
    ∃ answers τ, (s.answerRound coverage true (gather project.toList).toList).after σ = (.ok answers, τ) ∧
      (∀ g, g ∈ project ↔ ∃ answer ∈ answers, compare answer.1 g = .eq) ∧
      (∀ answer ∈ answers, ∀ g, Listed answer.2 g → g ∈ project) ∧
      ∀ answer ∈ answers, ∀ known, σ.cache.freshNeighbours? coverage answer.1 v = some known →
        answer.2 = known := by
  have hknown : ∀ g ∈ (gather project.toList).toList, ∃ found, index.neighbours coverage g = .ok found := by
    intro g hg
    apply hp.knows
    exact (listed_first project g).mp (.of_mem hg)
  obtain ⟨answers, τ, hround⟩ := answerRound_calm hs true hknown hw
  obtain ⟨hperm, hanswers⟩ := answerRound_calm_answers hs hv hround hw
  refine ⟨answers, τ, hround, fun g => ?_, ?_, ?_⟩
  · rw [← listed_first, ← Listed.perm hperm]
    simp [Listed]
  · intro answer ha g hg
    rcases hanswers answer ha with hserved | ⟨-, htold⟩
    · obtain ⟨hset, -, -⟩ := Cache.freshNeighbours?_eq_some.mp hserved
      rw [hset, listed_toList_iff, hcache] at hg
      exact hc.mem_scope hg
    · exact hp.named ((htold g).mp hg)
  · intro answer ha known hknown
    rcases hanswers answer ha with hserved | ⟨hmissed, -⟩
    · rw [hserved] at hknown
      exact Option.some.inj hknown
    · rw [hmissed] at hknown
      cases hknown

/-- If the answers of the round about a whole project name no functions but those of the project, that
round is the whole search. -/
theorem answer_of_round (hproject : project.toList ≠ []) {answers : Answers F} {σ τ : Search W F}
    (hround : (s.answerRound coverage true (gather project.toList).toList).after σ = (.ok answers, τ))
    (hinside : ∀ answer ∈ answers, ∀ g, Listed answer.2 g → g ∈ project) :
    (s.answer (.closure project.toList coverage.direction)).after σ =
      (.ok { Resolution.addAnswers coverage ⟨Std.TreeSet.ofList project.toList, ∅, 0⟩ answers with
        processed := τ.processed }, τ) := by
  let question : Question F := .closure project.toList coverage.direction
  let start : Resolution F := ⟨Std.TreeSet.ofList project.toList, ∅, 0⟩
  have hnonempty : (gather project.toList).toList ≠ [] := by
    intro hnil
    obtain ⟨f, rest, hlist⟩ := List.exists_cons_of_ne_nil hproject
    have hf : Listed (gather project.toList).toList f := by
      rw [listed_first, ← listed_toList_iff, hlist]
      exact .of_mem List.mem_cons_self
    rw [hnil] at hf
    exact Listed.nil f hf
  have hrounds : (gather project.toList).toList.length ≤ s.limit question σ := by
    have hsize : (gather project.toList).toList.length ≤ project.toList.length := by
      apply length_le_of_listed Std.TreeSet.distinct_toList
      intro g hg
      rw [listed_toList_iff, ← listed_first]
      exact .of_mem hg
    have hlimit : s.limit question σ = project.toList.length + 2 * σ.cache.size + s.population := rfl
    omega
  have hclose : (s.pursue (.close coverage (s.limit question σ) ∅ (gather project.toList).toList start)).after σ =
      (.ok (start.addAnswers coverage answers), τ) := by
    apply pursue_close_once hnonempty hrounds hround
    intro answer ha g hg
    rw [listed_first]
    exact hinside answer ha g hg
  have hinquiry : question.inquiry (s.limit question σ) =
      (Inquiry.close coverage (s.limit question σ) ∅ (gather project.toList).toList start).bind .done := by
    simp only [question, Question.inquiry, coverage.coverages_direction, Inquiry.closeAll]
    rfl
  apply answer_ok_iff.mpr
  refine ⟨start.addAnswers coverage answers, ?_, rfl⟩
  rw [hinquiry, pursue_bind]
  exact after_bind_ok.mpr ⟨_, τ, hclose, rfl⟩

/-- Beginning with all functions of a project, a search that nothing disturbs finds these functions, and
of the calls of a function that the cache serves it finds those that it serves. -/
theorem answer_project (hs : s.Calm I index) (hv : ∀ w, I w → (s.versions.run w).1 = v)
    (hp : index.Covers project) {c : Cache F} (hc : c.Synced) {σ : Search W F} (hw : I σ.world)
    (hcache : σ.cache = (c.prune project v).2) {f : F} (hf : f ∈ project) {known : List F}
    (hserved : σ.cache.freshNeighbours? coverage f v = some known) :
    ∃ r τ, (s.answer (.closure project.toList coverage.direction)).after σ = (.ok r, τ) ∧
      (∀ g, g ∈ r.functions ↔ g ∈ project) ∧ (∀ k ∈ r.calls, k.caller ∈ project ∧ k.callee ∈ project) ∧
      ∀ g, coverage.call f g ∈ r.calls ↔ Listed known g := by
  obtain ⟨answers, τ, hround, hasked, hinside, hcached⟩ := answerRound_project hs hv hp hc hw hcache
  have hproject : project.toList ≠ [] := by
    intro hnil
    have hf' := listed_toList_iff.mpr hf
    rw [hnil] at hf'
    exact Listed.nil f hf'
  refine ⟨_, τ, answer_of_round hproject hround hinside, ?_⟩
  let start : Resolution F := ⟨Std.TreeSet.ofList project.toList, ∅, 0⟩
  change (∀ g, g ∈ (start.addAnswers coverage answers).functions ↔ g ∈ project) ∧
    (∀ k ∈ (start.addAnswers coverage answers).calls, k.caller ∈ project ∧ k.callee ∈ project) ∧
    ∀ g, coverage.call f g ∈ (start.addAnswers coverage answers).calls ↔ Listed known g
  have hcall (k : Call F) : k ∈ (start.addAnswers coverage answers).calls ↔
      ∃ answer ∈ answers, compare answer.1 (coverage.near k) = .eq ∧ Listed answer.2 (coverage.far k) := by
    rw [Resolution.mem_calls_addAnswers, or_iff_right Std.TreeSet.not_mem_emptyc]
  refine ⟨fun g => ?_, fun k hk => ?_, fun g => ?_⟩
  · rw [Resolution.mem_functions_addAnswers, mem_ofList_iff, listed_toList_iff, or_iff_left_iff_imp]
    rintro ⟨answer, ha, hg⟩
    exact hinside answer ha g hg
  · obtain ⟨answer, ha, hnear, hfar⟩ := (hcall k).mp hk
    have hnear' : coverage.near k ∈ project := (hasked _).mpr ⟨answer, ha, hnear⟩
    have hfar' : coverage.far k ∈ project := hinside answer ha _ hfar
    cases coverage with
    | callers => exact ⟨hfar', hnear'⟩
    | callees => exact ⟨hnear', hfar'⟩
  · have hanswer (answer : F × List F) (ha : answer ∈ answers) (heq : compare answer.1 f = .eq) :
        answer.2 = known := by
      apply hcached answer ha
      rw [σ.cache.freshNeighbours?_congr coverage heq v]
      exact hserved
    rw [hcall, Coverage.near_call, Coverage.far_call]
    constructor
    · rintro ⟨answer, ha, heq, hg⟩
      exact hanswer answer ha heq ▸ hg
    · intro hg
      obtain ⟨answer, ha, heq⟩ := (hasked f).mp hf
      exact ⟨answer, ha, heq, hanswer answer ha heq ▸ hg⟩

end Surroundings
end CallChart
