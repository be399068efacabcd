import CallChart.Proofs.Questions

/-! A search over an index that names functions of a project only. Whatever the cache has learned before, once
it is pruned to the project a search finds nothing else. -/
namespace CallChart

variable {W F α β : Type} [Handle F] {project : Std.TreeSet F}

/-- All functions that answers name are in a project. -/
def Answers.Inside (project : Std.TreeSet F) (answers : Answers F) : Prop :=
  ∀ answer ∈ answers, ∀ g ∈ answer.2, g ∈ project

/-- All functions found are in a project. -/
def Resolution.Inside (project : Std.TreeSet F) (r : Resolution F) : Prop := ∀ f ∈ r.functions, f ∈ project

theorem mem_of_listed {fs : List F} (h : ∀ f ∈ fs, f ∈ project) {f : F} (hf : Listed fs f) : f ∈ project := by
  obtain ⟨g, hg, hgf⟩ := hf
  exact (Std.TreeSet.mem_congr hgf).mp (h g hg)

namespace Cache

/-- Both ends of each recorded call are in a project. -/
def Inside (project : Std.TreeSet F) (c : Cache F) : Prop :=
  ∀ k d, c.dependencies[k]? = some d → ∀ coverage : Coverage, coverage.near k ∈ project

variable {c : Cache F} {coverage : Coverage} {f : F} {v : Versions}

/-- A cache with any past has the calls of a project after it was pruned. -/
theorem inside_prune (c : Cache F) (v : Versions) {scope : Std.TreeSet F} (hscope : ∀ f ∈ scope, f ∈ project) :
    (c.prune scope v).2.Inside project := by
  intro k d hd coverage
  obtain ⟨-, hstale⟩ := getElem?_prune.mp hd
  simp only [isStale, Bool.or_eq_false_iff, Bool.not_eq_false', Std.TreeSet.contains_iff_mem] at hstale
  obtain ⟨⟨hcaller, hcallee⟩, -⟩ := hstale
  cases coverage with
  | callers => exact hscope _ hcallee
  | callees => exact hscope _ hcaller

theorem Inside.counted (h : c.Inside project) (hits misses : Nat) :
    Inside project { c with hits := hits, misses := misses } := h

theorem Inside.served (h : c.Inside project) {known : List F} (hk : c.freshNeighbours? coverage f v = some known) :
    ∀ g ∈ known, g ∈ project := by
  intro g hg
  obtain ⟨-, -, hstored⟩ := freshNeighbours?_eq_some.mp hk
  obtain ⟨d, hd, -⟩ := hstored g hg
  have hfar := h _ d hd coverage.opposite
  cases coverage <;> exact hfar

theorem Inside.learned (h : c.Inside project) (hf : f ∈ project) {answer : List F} (ha : ∀ g ∈ answer, g ∈ project) :
    (c.replaceNeighbours coverage f answer v).Inside project := by
  intro k d hd
  rcases getElem?_replace hd with ⟨g, hg, hk, -⟩ | ⟨-, hold⟩
  · intro side
    rw [← Std.TreeSet.mem_congr (side.compare_iff.mp hk).1]
    cases side <;> cases coverage
    · exact hf
    · exact ha g hg
    · exact ha g hg
    · exact hf
  · exact h k d hold

end Cache

namespace Inquiry

/-- As long as answers name functions of a project only, an inquiry asks about such functions, and of what it
comes to something holds. -/
def Confined (project : Std.TreeSet F) (Q : α → Prop) : Inquiry F α → Prop
  | done a => Q a
  | unbounded => True
  | ask _ _ round next => (∀ f ∈ round, f ∈ project) ∧
      ∀ answers, answers.Inside project → (next answers).Confined project Q

theorem Confined.bind {P : α → Prop} {Q : β → Prop} {q : Inquiry F α} {more : α → Inquiry F β}
    (hq : q.Confined project P) (hmore : ∀ a, P a → (more a).Confined project Q) :
    (q.bind more).Confined project Q := by
  induction q with
  | done a => exact hmore a hq
  | unbounded => trivial
  | ask coverage counted round next ih => exact ⟨hq.1, fun answers ha => ih answers (hq.2 answers ha)⟩

theorem inside_addAnswers {coverage : Coverage} {answers : Answers F} {r : Resolution F} (hr : r.Inside project)
    (ha : answers.Inside project) : (r.addAnswers coverage answers).Inside project := by
  intro g hg
  rcases Resolution.mem_functions_addAnswers.mp hg with hg | ⟨answer, hanswer, hlisted⟩
  · exact hr g hg
  · exact mem_of_listed (ha answer hanswer) hlisted

theorem confined_close (coverage : Coverage) (rounds : Nat) {seen : Std.TreeSet F} {frontier : List F}
    {found : Resolution F} (hfrontier : ∀ f ∈ frontier, f ∈ project) (hfound : found.Inside project) :
    (close coverage rounds seen frontier found).Confined project (Resolution.Inside project) := by
  induction rounds generalizing seen frontier found with
  | zero =>
    cases frontier with
    | nil => exact hfound
    | cons f rest => trivial
  | succ rounds ih =>
    cases frontier with
    | nil => exact hfound
    | cons f rest =>
      refine ⟨hfrontier, fun answers ha => ih (fun g hg => ?_) (inside_addAnswers hfound ha)⟩
      obtain ⟨⟨answer, hanswer, hlisted⟩, -⟩ := Wave.mem_nextRound.mp (Std.TreeSet.mem_of_mem_toList hg)
      exact mem_of_listed (ha answer hanswer) hlisted

theorem confined_closeAll (rounds : Nat) {seeds : List F} (hseeds : ∀ f ∈ seeds, f ∈ project)
    (coverages : List Coverage) {found : Resolution F} (hfound : found.Inside project) :
    (closeAll rounds seeds coverages found).Confined project (Resolution.Inside project) := by
  have hfirst : ∀ f ∈ (gather seeds).toList, f ∈ project := by
    intro f hf
    exact mem_of_listed hseeds (mem_gather_iff.mp (Std.TreeSet.mem_of_mem_toList hf))
  induction coverages generalizing found with
  | nil => exact hfound
  | cons coverage rest ih => exact (confined_close coverage rounds hfirst hfound).bind fun _ hnext => ih hnext

end Inquiry

/-- A question that begins with functions of a project. -/
def Question.Inside (project : Std.TreeSet F) (q : Question F) : Prop := ∀ f ∈ q.functions, f ∈ project

theorem Question.Inside.inquiry {q : Question F} (h : q.Inside project) (rounds : Nat) :
    (q.inquiry rounds).Confined project (Resolution.Inside project) := by
  have hscope {scope : Std.TreeSet F} (hq : ∀ f ∈ scope.toList, f ∈ project) : ∀ f ∈ scope, f ∈ project :=
    fun f hf => mem_of_listed hq (listed_toList_iff.mpr hf)
  cases q with
  | closure seeds direction =>
    exact Inquiry.confined_closeAll rounds h _ fun f hf => mem_of_listed h (mem_ofList_iff.mp hf)
  | within scope =>
    refine ⟨h, fun calling _ f hf => hscope h f ?_⟩
    exact Resolution.functions_addInner.mp hf
  | adjacent scope =>
    refine ⟨h, fun called hcalled => ⟨h, fun calling hcalling => ?_⟩⟩
    exact Inquiry.inside_addAnswers (Inquiry.inside_addAnswers (hscope h) hcalled) hcalling

namespace Surroundings

open ExceptT

variable {s : Surroundings W F} {I : W → Prop}

/-- Surroundings in which answers name functions of a project only. Any question may stay unanswered, and
files may be edited meanwhile. -/
structure Confined (s : Surroundings W F) (I : W → Prop) (project : Std.TreeSet F) : Prop
    extends s.Keeps I where
  tells {w : W} {coverage : Coverage} {f : F} {found : Std.TreeSet F} : I w →
    ((s.ask coverage f).run w).1 = .ok found → ∀ g ∈ found, g ∈ project
  schedule (fs : List F) : (s.schedule fs).Perm fs

theorem Faithful.confined {index : CallIndex F} (hs : s.Faithful I index)
    (hnames : ∀ coverage f g, index.Names coverage f g → g ∈ project) : s.Confined I project where
  toKeeps := hs.toKeeps
  tells hw hreply g hg := hnames _ _ g ⟨_, hs.answers hw hreply, hg⟩
  schedule := hs.schedule

/-- A round about functions of a project finds such functions, and the cache learns of no others. -/
theorem AtOnce.round_confined {asking : Asking W F} (ha : s.AtOnce asking) (hs : s.Confined I project)
    {coverage : Coverage} {counted : Bool} {round : List F} (hround : ∀ f ∈ round, f ∈ project) {σ τ : Search W F}
    {answers : Answers F} (h : (s.answerRoundBy asking coverage counted round).after σ = (.ok answers, τ))
    (hw : I σ.world) (hc : σ.cache.Inside project) :
    I τ.world ∧ τ.cache.Inside project ∧ answers.Inside project := by
  obtain ⟨known, pending, learned, ρ, ρ', hconsulted, hqueried, rfl, rfl⟩ := ha.round_ok hs.toKeeps h hw
  have hlearned : ∀ answer ∈ learned, answer.1 ∈ project ∧ ∀ g ∈ answer.2, g ∈ project := by
    intro answer ha
    constructor
    · have hasked : answer.1 ∈ s.schedule pending := hqueried.functions ▸ List.mem_map_of_mem ha
      have hpending := (hs.schedule pending).mem_iff.mp hasked
      exact hround _ (hconsulted.functions.mem_iff.mp (List.mem_append_right _ hpending))
    · obtain ⟨w, found, hw', hreply, htold⟩ := hqueried.told answer ha
      rw [htold]
      exact fun g hg => hs.tells hw' hreply g (Std.TreeSet.mem_of_mem_toList hg)
  have hcache : ρ'.cache.Inside project :=
    hqueried.cache ▸ hconsulted.cache.keeps (fun _ hits misses hc => hc.counted hits misses) hc
  have hlearn : ∀ (c : Cache F) w, ∀ answer ∈ learned, c.Inside project → I w →
      (c.replaceNeighbours coverage answer.1 answer.2 (s.versions.run w).1).Inside project :=
    fun c w answer ha hc _ => hc.learned (hlearned answer ha).1 (hlearned answer ha).2
  obtain ⟨hτ, hc'⟩ := commit_keeps hs.toKeeps hlearn hqueried.world hcache
  refine ⟨hτ, hc', fun answer ha => ?_⟩
  rcases List.mem_append.mp ha with hknown | hnew
  · obtain ⟨w, -, hserved⟩ := hconsulted.served answer hknown
    exact hc.served hserved
  · exact (hlearned answer hnew).2

theorem Confined.pursue (hs : s.Confined I project) {Q : α → Prop} {q : Inquiry F α} (hq : q.Confined project Q)
    {σ τ : Search W F} {a : α} (h : (s.pursue q).after σ = (.ok a, τ)) (hw : I σ.world)
    (hc : σ.cache.Inside project) : Q a := by
  induction q generalizing σ with
  | done b =>
    cases h
    exact hq
  | unbounded => cases h
  | ask coverage counted round next ih =>
    obtain ⟨answers, ρ, hround, hrest⟩ := after_bind_ok.mp h
    obtain ⟨hw', hc', ha⟩ := s.atOnce_inTurn.round_confined hs hq.1 hround hw hc
    exact ih answers (hq.2 answers ha) hrest hw' hc'

/-- The answer to a question about a project stays in the project. -/
theorem Confined.answer (hs : s.Confined I project) {question : Question F} (hq : question.Inside project)
    {σ τ : Search W F} {r : Resolution F} (h : (s.answer question).after σ = (.ok r, τ)) (hw : I σ.world)
    (hc : σ.cache.Inside project) : r.Inside project := by
  obtain ⟨found, hfound, rfl⟩ := answer_ok_iff.mp h
  have hinside : found.Inside project := hs.pursue (hq.inquiry _) hfound hw hc
  exact hinside

end Surroundings
end CallChart
