import CallChart.Proofs.Pursuit

/-! Following calls in one direction. Round by round the functions asked about and the functions to
be asked about next make up more of what the seeds lead to, until nothing is left to ask about. -/
namespace CallChart

variable {F : Type} [Handle F]

namespace Resolution

variable {index : CallIndex F} {coverage : Coverage}

private theorem functions_foldl_addNeighbour (f g : F) (found : List F) (r : Resolution F) :
    g ∈ (found.foldl (addNeighbour coverage f) r).functions ↔ g ∈ r.functions ∨ Listed found g := by
  induction found generalizing r with
  | nil => simp
  | cons h rest ih =>
    rw [List.foldl_cons, ih, addNeighbour, Std.TreeSet.mem_insert, Listed.cons, or_comm (a := compare h g = .eq),
      or_assoc]

private theorem calls_foldl_addNeighbour (f : F) (k : Call F) (found : List F) (r : Resolution F) :
    k ∈ (found.foldl (addNeighbour coverage f) r).calls ↔
      k ∈ r.calls ∨ compare f (coverage.near k) = .eq ∧ Listed found (coverage.far k) := by
  induction found generalizing r with
  | nil => simp
  | cons h rest ih =>
    rw [List.foldl_cons, ih, addNeighbour, Std.TreeSet.mem_insert, Listed.cons,
      coverage.compare_iff, Coverage.near_call, Coverage.far_call, and_or_left, or_comm (a := _ ∧ _),
      or_assoc]

theorem mem_functions_addAnswers {g : F} {answers : Answers F} {r : Resolution F} :
    g ∈ (r.addAnswers coverage answers).functions ↔
      g ∈ r.functions ∨ ∃ answer ∈ answers, Listed answer.2 g := by
  unfold addAnswers
  induction answers generalizing r with
  | nil => simp
  | cons answer rest ih =>
    simp only [List.foldl_cons, ih, functions_foldl_addNeighbour, List.mem_cons, exists_eq_or_imp, or_assoc]

theorem mem_calls_addAnswers {k : Call F} {answers : Answers F} {r : Resolution F} :
    k ∈ (r.addAnswers coverage answers).calls ↔
      k ∈ r.calls ∨
        ∃ answer ∈ answers, compare answer.1 (coverage.near k) = .eq ∧ Listed answer.2 (coverage.far k) := by
  unfold addAnswers
  induction answers generalizing r with
  | nil => simp
  | cons answer rest ih =>
    simp only [List.foldl_cons, ih, calls_foldl_addNeighbour, List.mem_cons, exists_eq_or_imp, or_assoc]

theorem functions_addInner {g : F} {answers : Answers F} {r : Resolution F} :
    g ∈ (r.addInner coverage answers).functions ↔ g ∈ r.functions := by
  rw [addInner, mem_functions_addAnswers, or_iff_left_iff_imp]
  rintro ⟨_, ha, hg⟩
  obtain ⟨answer, -, rfl⟩ := List.mem_map.mp ha
  exact (Listed.filter_contains.mp hg).2

theorem mem_calls_addInner {k : Call F} {answers : Answers F} {r : Resolution F} :
    k ∈ (r.addInner coverage answers).calls ↔
      k ∈ r.calls ∨
        (∃ answer ∈ answers, compare answer.1 (coverage.near k) = .eq ∧ Listed answer.2 (coverage.far k)) ∧
          coverage.far k ∈ r.functions := by
  rw [addInner, mem_calls_addAnswers]
  refine or_congr_right (Iff.intro ?_ ?_)
  · rintro ⟨_, hmem, hk, hg⟩
    obtain ⟨answer, ha, rfl⟩ := List.mem_map.mp hmem
    obtain ⟨hg, hfar⟩ := Listed.filter_contains.mp hg
    exact ⟨⟨answer, ha, hk, hg⟩, hfar⟩
  · rintro ⟨⟨answer, ha, hk, hg⟩, hfar⟩
    exact ⟨_, List.mem_map_of_mem ha, hk, Listed.filter_contains.mpr ⟨hg, hfar⟩⟩

end Resolution

namespace CallIndex.Answers

variable {index : CallIndex F} {coverage : Coverage} {round : List F} {answers : CallChart.Answers F}

/-- The functions of a round are those that have an answer. -/
theorem listed_iff (h : index.Answers coverage round answers) {f : F} :
    Listed round f ↔ ∃ answer ∈ answers, compare answer.1 f = .eq := by
  rw [← Listed.perm h.functions, Listed]
  simp only [List.mem_map]
  constructor
  · rintro ⟨_, ⟨answer, ha, rfl⟩, hf⟩
    exact ⟨answer, ha, hf⟩
  · rintro ⟨answer, ha, hf⟩
    exact ⟨_, ⟨answer, ha, rfl⟩, hf⟩

/-- The answers list the neighbours of the functions of the round. -/
theorem listed_answer_iff (h : index.Answers coverage round answers) {f g : F} :
    (∃ answer ∈ answers, compare answer.1 f = .eq ∧ Listed answer.2 g) ↔
      Listed round f ∧ index.Names coverage f g := by
  rw [h.listed_iff]
  constructor
  · rintro ⟨answer, ha, hf, hg⟩
    exact ⟨⟨answer, ha, hf⟩, ((h.right answer ha g).mp hg).congr hf (compare_refl g)⟩
  · rintro ⟨⟨answer, ha, hf⟩, hn⟩
    exact ⟨answer, ha, hf, (h.right answer ha g).mpr (hn.congr (compare_symm hf) (compare_refl g))⟩

theorem listed_any_iff (h : index.Answers coverage round answers) {g : F} :
    (∃ answer ∈ answers, Listed answer.2 g) ↔ ∃ f, Listed round f ∧ index.Names coverage f g := by
  constructor
  · rintro ⟨answer, ha, hg⟩
    exact ⟨answer.1, h.listed_answer_iff.mp ⟨answer, ha, compare_refl _, hg⟩⟩
  · rintro ⟨f, hf⟩
    obtain ⟨answer, ha, -, hg⟩ := h.listed_answer_iff.mpr hf
    exact ⟨answer, ha, hg⟩

end CallIndex.Answers

namespace Inquiry

variable {index : CallIndex F} {coverage : Coverage} {seeds : List F} {start : Resolution F}

/-- How far calls have been followed from the seeds: which functions have been asked about, which are
to be asked about next, and what was found. -/
structure Wave (index : CallIndex F) (coverage : Coverage) (seeds : List F) (start : Resolution F)
    (seen : Std.TreeSet F) (frontier : List F) (found : Resolution F) : Prop where
  reached {f : F} : f ∈ seen ∨ Listed frontier f → index.Reached coverage seeds f
  seeds {f : F} : Listed seeds f → f ∈ seen ∨ Listed frontier f
  closed {f g : F} : f ∈ seen → index.Names coverage f g → g ∈ seen ∨ Listed frontier g
  distinct : frontier.Pairwise fun f g => compare f g ≠ .eq
  fresh : ∀ f ∈ frontier, f ∉ seen
  functions {g : F} : g ∈ found.functions ↔
    g ∈ start.functions ∨ ∃ f, f ∈ seen ∧ index.Names coverage f g
  calls {k : Call F} : k ∈ found.calls ↔ k ∈ start.calls ∨
    coverage.near k ∈ seen ∧ index.Names coverage (coverage.near k) (coverage.far k)

namespace Wave

/-- At first only the seeds are to be asked about. -/
theorem first (index : CallIndex F) (coverage : Coverage) (seeds : List F) (start : Resolution F) :
    Wave index coverage seeds start ∅ (gather seeds).toList start where
  reached := by
    rintro f (hf | hf)
    · exact absurd hf Std.TreeSet.not_mem_emptyc
    · exact .seed (mem_gather_iff.mp (listed_toList_iff.mp hf))
  seeds hf := .inr (listed_toList_iff.mpr (mem_gather_iff.mpr hf))
  closed hf := absurd hf Std.TreeSet.not_mem_emptyc
  distinct := Std.TreeSet.distinct_toList
  fresh _ _ := Std.TreeSet.not_mem_emptyc
  functions := by simp
  calls := by simp

variable {seen : Std.TreeSet F} {frontier : List F} {found : Resolution F}

theorem mem_nextRound {answers : Answers F} {f : F} :
    f ∈ nextRound seen answers ↔ (∃ answer ∈ answers, Listed answer.2 f) ∧ f ∉ seen := by
  rw [nextRound, mem_ofList_iff]
  constructor
  · rintro ⟨g, hg, hgf⟩
    obtain ⟨hmem, hnew⟩ := List.mem_filter.mp hg
    obtain ⟨answer, ha, hga⟩ := List.mem_flatMap.mp hmem
    refine ⟨⟨answer, ha, g, hga, hgf⟩, fun hf => ?_⟩
    rw [Bool.not_eq_true', Std.TreeSet.contains_congr hgf, ← Bool.not_eq_true] at hnew
    exact hnew hf
  · rintro ⟨⟨answer, ha, g, hga, hgf⟩, hnew⟩
    refine ⟨g, List.mem_filter.mpr ⟨List.mem_flatMap.mpr ⟨answer, ha, hga⟩, ?_⟩, hgf⟩
    rw [Bool.not_eq_true', Std.TreeSet.contains_congr hgf, ← Bool.not_eq_true]
    exact hnew

/-- A round of right answers leads from one wave to the next. -/
theorem next (h : Wave index coverage seeds start seen frontier found) {answers : Answers F}
    (ha : index.Answers coverage frontier answers) :
    Wave index coverage seeds start (frontier.foldl Std.TreeSet.insert seen)
      (nextRound (frontier.foldl Std.TreeSet.insert seen) answers).toList
      (found.addAnswers coverage answers) where
  reached {g} hg := by
    rw [mem_foldl_insert, listed_toList_iff, mem_nextRound, ha.listed_any_iff] at hg
    rcases hg with hg | ⟨⟨f, hf, hn⟩, -⟩
    · exact h.reached hg
    · exact .call (h.reached (.inr hf)) hn
  seeds hf := .inl ((mem_foldl_insert _ _ _).mpr (h.seeds hf))
  closed {f g} hf hn := by
    rw [listed_toList_iff, mem_nextRound, ha.listed_any_iff]
    by_cases hg : g ∈ frontier.foldl Std.TreeSet.insert seen
    · exact .inl hg
    · rcases (mem_foldl_insert _ _ _).mp hf with hseen | hfrontier
      · exact absurd ((mem_foldl_insert _ _ _).mpr (h.closed hseen hn)) hg
      · exact .inr ⟨⟨f, hfrontier, hn⟩, hg⟩
  distinct := Std.TreeSet.distinct_toList
  fresh f hf := (mem_nextRound.mp (Std.TreeSet.mem_of_mem_toList hf)).2
  functions {g} := by
    rw [Resolution.mem_functions_addAnswers, h.functions, ha.listed_any_iff, or_assoc, ← exists_or]
    simp only [mem_foldl_insert, or_and_right]
  calls {k} := by
    rw [Resolution.mem_calls_addAnswers, h.calls, ha.listed_answer_iff, or_assoc, ← or_and_right,
      mem_foldl_insert]

/-- When nothing is left to ask about, everything that the seeds lead to was asked about. -/
theorem mem_iff_reached (h : Wave index coverage seeds start seen [] found) {f : F} :
    f ∈ seen ↔ index.Reached coverage seeds f := by
  refine ⟨fun hf => h.reached (.inl hf), fun hf => ?_⟩
  refine hf.least (fun g hg => ?_) (fun g g' hg hn => ?_)
  · exact (h.seeds hg).resolve_right (Listed.nil g)
  · exact (h.closed hg hn).resolve_right (Listed.nil g')

/-- So far no more functions have been asked about than there are, and those of the next round are
among the others. -/
theorem size_add_length_le (h : Wave index coverage seeds start seen frontier found)
    {names : List F} (hnames : ∀ coverage f g, index.Names coverage f g → Listed names g) :
    seen.size + frontier.length ≤ seeds.length + names.length := by
  rw [← size_foldl_insert h.distinct h.fresh, ← List.length_append, ← Std.TreeSet.length_toList]
  refine length_le_of_listed Std.TreeSet.distinct_toList fun f hf => ?_
  exact (h.reached ((mem_foldl_insert _ _ _).mp (Std.TreeSet.mem_of_mem_toList hf))).listed hnames

end Wave

/-- Whatever an inquiry comes to that follows calls, it comes to it with the last wave. -/
theorem close_outcome {rounds : Nat} {seen : Std.TreeSet F} {frontier : List F}
    {found r : Resolution F} {n : Nat}
    (h : (close coverage rounds seen frontier found).Outcome index r n)
    (hw : Wave index coverage seeds start seen frontier found) :
    ∃ last, Wave index coverage seeds start last [] r ∧ last.size = seen.size + n := by
  induction rounds generalizing seen frontier found n with
  | zero =>
    cases frontier with
    | nil => cases h; exact ⟨seen, hw, rfl⟩
    | cons f rest => cases h
  | succ rounds ih =>
    cases frontier with
    | nil => cases h; exact ⟨seen, hw, rfl⟩
    | cons f rest =>
      cases h with
      | ask hanswers hrest =>
        obtain ⟨last, hlast, hsize⟩ := ih hrest (hw.next hanswers)
        refine ⟨last, hlast, ?_⟩
        rw [hsize, size_foldl_insert hw.distinct hw.fresh, Nat.add_assoc]
        rfl

/-- Following calls comes to an end in as many rounds as there are functions not asked about, and
asks only about functions that the seeds lead to. -/
theorem close_ends {names : List F}
    (hnames : ∀ coverage f g, index.Names coverage f g → Listed names g) {rounds : Nat}
    {seen : Std.TreeSet F} {frontier : List F} {found : Resolution F}
    (hw : Wave index coverage seeds start seen frontier found)
    (hrounds : seeds.length + names.length ≤ seen.size + rounds) :
    (close coverage rounds seen frontier found).Ends index
      fun side f => side = coverage ∧ index.Reached coverage seeds f := by
  induction rounds generalizing seen frontier found with
  | zero =>
    cases frontier with
    | nil => trivial
    | cons f rest =>
      have hsize := hw.size_add_length_le hnames
      rw [List.length_cons] at hsize
      omega
  | succ rounds ih =>
    cases frontier with
    | nil => trivial
    | cons f rest =>
      refine ⟨fun g hg => ⟨rfl, hw.reached (.inr (.of_mem hg))⟩, fun answers ha => ?_⟩
      refine ih (hw.next ha) ?_
      rw [size_foldl_insert hw.distinct hw.fresh, List.length_cons]
      omega

theorem close_asksOnly (rounds : Nat) (seen : Std.TreeSet F) (frontier : List F)
    (found : Resolution F) : (close coverage rounds seen frontier found).AsksOnly (· = coverage) := by
  induction rounds generalizing seen frontier found with
  | zero => cases frontier <;> trivial
  | succ rounds ih =>
    cases frontier with
    | nil => trivial
    | cons f rest => exact ⟨rfl, fun answers => ih _ _ _⟩

end Inquiry
end CallChart
