import CallChart.Proofs.CallList
import CallChart.Proofs.ConfinedSearch

/-! Why a search does not run out of rounds. Every round asks about functions that no round before it asked
about, and there are no more of them than the question begins with, the cache has calls of and the index names. -/
namespace CallChart

variable {W F α β : Type} [Handle F] {project : Std.TreeSet F}

namespace Inquiry

/-- As long as answers name functions of a project only, an inquiry asks about such functions and comes to an
end. -/
def Halts (project : Std.TreeSet F) : Inquiry F α → Prop
  | done _ => True
  | unbounded => False
  | ask _ _ round next => (∀ f ∈ round, f ∈ project) ∧
      ∀ answers, answers.Inside project → (next answers).Halts project

theorem Halts.bind {q : Inquiry F α} {more : α → Inquiry F β} (hq : q.Halts project)
    (hmore : ∀ a, (more a).Halts project) : (q.bind more).Halts project := by
  induction q with
  | done a => exact hmore a
  | unbounded => exact hq
  | ask coverage counted round next ih => exact ⟨hq.1, fun answers ha => ih answers (hq.2 answers ha)⟩

/-- Every round takes something away from the functions that were not asked about. -/
theorem halts_close (coverage : Coverage) {rounds : Nat} {seen : Std.TreeSet F} {frontier : List F}
    {found : Resolution F} (hdistinct : frontier.Pairwise fun f g => compare f g ≠ .eq)
    (hfresh : ∀ f ∈ frontier, f ∉ seen) (hseen : ∀ f, f ∈ seen → f ∈ project)
    (hfrontier : ∀ f ∈ frontier, f ∈ project) (hrounds : project.size ≤ seen.size + rounds) :
    (close coverage rounds seen frontier found).Halts project := by
  induction rounds generalizing seen frontier found with
  | zero =>
    cases frontier with
    | nil => trivial
    | cons f rest =>
      have hall : ((f :: rest).foldl Std.TreeSet.insert seen).size ≤ project.size :=
        size_le_of_subset fun g hg => ((mem_foldl_insert _ _ g).mp hg).elim (hseen g) (mem_of_listed hfrontier)
      rw [size_foldl_insert hdistinct hfresh, List.length_cons] at hall
      omega
  | succ rounds ih =>
    cases frontier with
    | nil => trivial
    | cons f rest =>
      have hsize := size_foldl_insert hdistinct hfresh
      rw [List.length_cons] at hsize
      refine ⟨hfrontier, fun answers ha => ih Std.TreeSet.distinct_toList ?_ ?_ ?_ (by omega)⟩
      · intro g hg
        exact (Wave.mem_nextRound.mp (Std.TreeSet.mem_of_mem_toList hg)).2
      · intro g hg
        exact ((mem_foldl_insert _ _ g).mp hg).elim (hseen g) (mem_of_listed hfrontier)
      · intro g hg
        obtain ⟨answer, hanswer, hlisted⟩ := (Wave.mem_nextRound.mp (Std.TreeSet.mem_of_mem_toList hg)).1
        exact mem_of_listed (ha answer hanswer) hlisted

theorem halts_closeAll {rounds : Nat} {seeds : List F} (hseeds : ∀ f ∈ seeds, f ∈ project)
    (hrounds : project.size ≤ rounds) (coverages : List Coverage) (found : Resolution F) :
    (closeAll rounds seeds coverages found).Halts project := by
  induction coverages generalizing found with
  | nil => trivial
  | cons coverage rest ih =>
    refine (halts_close coverage Std.TreeSet.distinct_toList (fun _ _ => Std.TreeSet.not_mem_emptyc) ?_ ?_ ?_).bind ih
    · intro f hf
      exact absurd hf Std.TreeSet.not_mem_emptyc
    · intro f hf
      exact mem_of_listed hseeds (mem_gather_iff.mp (Std.TreeSet.mem_of_mem_toList hf))
    · rw [Std.TreeSet.size_emptyc, Nat.zero_add]
      exact hrounds

end Inquiry

/-- As many rounds as a project has functions are enough for every question about it. -/
theorem Question.Inside.halts {q : Question F} (h : q.Inside project) {rounds : Nat}
    (hrounds : project.size ≤ rounds) : (q.inquiry rounds).Halts project := by
  cases q with
  | closure seeds direction => exact Inquiry.halts_closeAll h hrounds _ _
  | within scope => exact ⟨h, fun _ _ => trivial⟩
  | adjacent scope => exact ⟨h, fun _ _ => ⟨h, fun _ _ => trivial⟩⟩

namespace Question

/-- All functions that a search may meet: those that it begins with, those that the cache has calls of, and those
that the index names. -/
def domain (q : Question F) (c : Cache F) (names : List F) : Std.TreeSet F :=
  Std.TreeSet.ofList (q.functions ++ (CallIndex.ends c.dependencies.keys ++ names))

variable {q : Question F} {c : Cache F} {names : List F}

theorem size_domain_le (q : Question F) (c : Cache F) (names : List F) :
    (q.domain c names).size ≤ q.functions.length + 2 * c.size + names.length := by
  refine Nat.le_trans Std.TreeSet.size_ofList_le (Nat.le_of_eq ?_)
  simp only [List.length_append, CallIndex.ends, List.length_map, Std.TreeMap.length_keys, Cache.size]
  omega

theorem inside_domain : q.Inside (q.domain c names) :=
  fun _ hf => mem_ofList_iff.mpr (Listed.append.mpr (.inl (.of_mem hf)))

theorem mem_domain_of_name {f : F} (hf : Listed names f) : f ∈ q.domain c names :=
  mem_ofList_iff.mpr (Listed.append.mpr (.inr (Listed.append.mpr (.inr hf))))

theorem cache_inside_domain : c.Inside (q.domain c names) := by
  intro k d hd coverage
  have hkey : Listed c.dependencies.keys k := by
    let := comparing (α := Call F)
    have := lawful_comparing (α := Call F)
    rw [← contains_iff_listed, Std.TreeMap.contains_keys]
    exact Std.TreeMap.mem_iff_isSome_getElem?.mpr (hd ▸ rfl)
  have hcall : Listed c.dependencies.keys (coverage.opposite.call (coverage.far k) (coverage.near k)) := by
    rw [Coverage.opposite_call, Coverage.call_near_far]
    exact hkey
  have hends : Listed (CallIndex.ends c.dependencies.keys) (coverage.near k) := CallIndex.exists_ends hcall
  exact mem_ofList_iff.mpr (Listed.append.mpr (.inr (Listed.append.mpr (.inl hends))))

end Question

namespace Surroundings

open ExceptT

variable {s : Surroundings W F} {I : W → Prop} {asking : Asking W F} {σ τ : Search W F}

/-- An inquiry that halts does not fail for the number of rounds. -/
theorem AtOnce.pursueBy_ne_unbounded (ha : s.AtOnce asking) (hs : s.Confined I project) {q : Inquiry F α}
    (hq : q.Halts project) (hw : I σ.world) (hc : σ.cache.Inside project) :
    (s.pursueBy asking q).after σ ≠ (.error .unbounded, τ) := by
  induction q generalizing σ with
  | done a =>
    intro h
    cases h
  | unbounded => exact hq.elim
  | ask coverage counted round next ih =>
    intro h
    rcases after_bind_error.mp h with hround | ⟨answers, ρ, hround, hrest⟩
    · obtain ⟨-, -, pending, -, hcause⟩ := ha.round_error hs.toKeeps hround hw
      exact hcause
    · obtain ⟨hw', hc', hinside⟩ := ha.round_confined hs hq.1 hround hw hc
      exact ih answers (hq.2 answers hinside) hw' hc' hrest

/-- Surroundings in which answers name no more functions than there are said to be. Any question may stay
unanswered. -/
structure Populated (s : Surroundings W F) (I : W → Prop) : Prop extends s.Keeps I where
  names : ∃ names : List F, names.length ≤ s.population ∧ ∀ {w coverage f found}, I w →
    ((s.ask coverage f).run w).1 = .ok found → ∀ g ∈ found, Listed names g
  schedule (fs : List F) : (s.schedule fs).Perm fs

theorem Calm.populated {index : CallIndex F} (hs : s.Calm I index) : s.Populated I where
  toKeeps := hs.toKeeps
  names := by
    obtain ⟨names, hlength, hnames⟩ := index.exists_names
    refine ⟨names, Nat.le_trans hlength hs.population, fun hw hreply g hg => ?_⟩
    exact hnames _ _ g ⟨_, hs.faithful.answers hw hreply, hg⟩
  schedule := hs.schedule

/-- Whatever the cache has learned before, no question takes more rounds than it may take. -/
theorem AtOnce.answerBy_ne_unbounded (ha : s.AtOnce asking) (hs : s.Populated I) (question : Question F)
    (hw : I σ.world) : (s.answerBy asking question).after σ ≠ (.error .unbounded, τ) := by
  obtain ⟨names, hlength, hnames⟩ := hs.names
  let project := question.domain σ.cache names
  have hconfined : s.Confined I project :=
    { hs.toKeeps with
      tells := fun hw hreply g hg => Question.mem_domain_of_name (hnames hw hreply g hg)
      schedule := hs.schedule }
  have hlimit : project.size ≤ s.limit question σ :=
    Nat.le_trans (question.size_domain_le σ.cache names) (Nat.add_le_add_left hlength _)
  intro h
  rw [after_answerBy] at h
  rcases hpursue : (s.pursueBy asking (question.inquiry (s.limit question σ))).after σ with ⟨e | found, ρ⟩
  · rw [hpursue] at h
    cases h
    exact ha.pursueBy_ne_unbounded hconfined (Question.inside_domain.halts hlimit) hw
      Question.cache_inside_domain hpursue
  · rw [hpursue] at h
    cases h

end Surroundings
end CallChart
