import CallChart.Proofs.Waves

/-! What the answer to a question has to be, told by an index alone, and that answering comes to it. -/
namespace CallChart

variable {W F : Type} [Handle F]

/-- Two results with the same functions, the same calls and the same count. -/
structure Resolution.Same (r r' : Resolution F) : Prop where
  functions (f : F) : f ∈ r.functions ↔ f ∈ r'.functions
  calls (k : Call F) : k ∈ r.calls ↔ k ∈ r'.calls
  processed : r.processed = r'.processed

theorem Direction.nodup_coverages (direction : Direction) : direction.coverages.Nodup := by
  cases direction <;> decide

namespace Inquiry

variable {index : CallIndex F} {seeds : List F}

/-- Following calls in one direction after the other finds what the seeds lead to in each of them. -/
theorem closeAll_outcome {rounds : Nat} {coverages : List Coverage} (hnodup : coverages.Nodup)
    {start r : Resolution F} {n : Nat}
    (h : (closeAll rounds seeds coverages start).Outcome index r n) :
    ∃ closed : Coverage → Std.TreeSet F,
      (∀ coverage ∈ coverages, ∀ f, f ∈ closed coverage ↔ index.Reached coverage seeds f) ∧
      (∀ g, g ∈ r.functions ↔ g ∈ start.functions ∨
        ∃ coverage ∈ coverages, ∃ f, index.Reached coverage seeds f ∧ index.Names coverage f g) ∧
      (∀ k, k ∈ r.calls ↔ k ∈ start.calls ∨ ∃ coverage ∈ coverages,
        index.Reached coverage seeds (coverage.near k) ∧
          index.Names coverage (coverage.near k) (coverage.far k)) ∧
      n = (coverages.map fun coverage => (closed coverage).size).foldr (· + ·) 0 := by
  induction coverages generalizing start n with
  | nil =>
    cases h
    exact ⟨fun _ => ∅, by simp, by simp, by simp, rfl⟩
  | cons coverage rest ih =>
    obtain ⟨hnew, hrest⟩ := List.nodup_cons.mp hnodup
    obtain ⟨found, k, m, hclose, hmore, rfl⟩ := outcome_bind.mp h
    obtain ⟨last, hwave, hsize⟩ := close_outcome hclose (Wave.first ..)
    obtain ⟨closed, hclosed, hfunctions, hcalls, rfl⟩ := ih hrest hmore
    obtain ⟨closed', hfirst, hkeep⟩ : ∃ closed' : Coverage → Std.TreeSet F,
        closed' coverage = last ∧ ∀ side ∈ rest, closed' side = closed side := by
      refine ⟨fun side => if side = coverage then last else closed side, if_pos rfl, ?_⟩
      exact fun side hside => if_neg fun heq : side = coverage => hnew (heq ▸ hside)
    refine ⟨closed', ?_, ?_, ?_, ?_⟩
    · refine List.forall_mem_cons.mpr ⟨fun f => ?_, fun side hside f => ?_⟩
      · rw [hfirst]
        exact hwave.mem_iff_reached
      · rw [hkeep side hside]
        exact hclosed side hside f
    · intro g
      rw [hfunctions, hwave.functions, or_assoc]
      simp only [hwave.mem_iff_reached, List.mem_cons, exists_eq_or_imp]
    · intro k
      rw [hcalls, hwave.calls, or_assoc]
      simp only [hwave.mem_iff_reached, List.mem_cons, exists_eq_or_imp]
    · have hsizes : rest.map (fun side => (closed' side).size) = rest.map fun side => (closed side).size :=
        List.map_congr_left fun side hside => congrArg Std.TreeSet.size (hkeep side hside)
      rw [Std.TreeSet.size_emptyc, Nat.zero_add] at hsize
      rw [List.map_cons, List.foldr_cons, hfirst, hsizes, hsize]

theorem closeAll_ends {names : List F}
    (hnames : ∀ coverage f g, index.Names coverage f g → Listed names g) {rounds : Nat}
    (hrounds : seeds.length + names.length ≤ rounds) (coverages : List Coverage)
    (start : Resolution F) :
    (closeAll rounds seeds coverages start).Ends index
      fun coverage f => coverage ∈ coverages ∧ index.Reached coverage seeds f := by
  induction coverages generalizing start with
  | nil => trivial
  | cons coverage rest ih =>
    have hfirst : seeds.length + names.length ≤ (∅ : Std.TreeSet F).size + rounds := by
      rw [Std.TreeSet.size_emptyc, Nat.zero_add]
      exact hrounds
    have hclose := close_ends hnames (Wave.first index coverage seeds start) hfirst
    refine Ends.bind (hclose.mono ?_) fun found n _ => (ih found).mono ?_
    · rintro side f ⟨rfl, hf⟩
      exact ⟨List.mem_cons_self, hf⟩
    · rintro side f ⟨hside, hf⟩
      exact ⟨List.mem_cons_of_mem coverage hside, hf⟩

end Inquiry

namespace Question

variable (index : CallIndex F)

/-- The functions that have to be asked about in each direction. -/
def Asks : Question F → Coverage → F → Prop
  | closure seeds direction, coverage, f =>
    coverage ∈ direction.coverages ∧ index.Reached coverage seeds f
  | within scope, coverage, f => coverage = .callers ∧ f ∈ scope
  | adjacent scope, _, f => f ∈ scope

/-- The neighbours that are taken up. -/
def Takes : Question F → F → Prop
  | within scope, g => g ∈ scope
  | _, _ => True

/-- The directions in which functions are counted. -/
def counted : Question F → List Coverage
  | closure _ direction => direction.coverages
  | _ => [.callers]

/-- The functions and calls that answer a question, and how many functions are counted. -/
structure Answered (q : Question F) (r : Resolution F) (n : Nat) : Prop where
  functions (g : F) : g ∈ r.functions ↔ Listed q.functions g ∨
    ∃ coverage f, q.Asks index coverage f ∧ index.Names coverage f g ∧ q.Takes g
  calls (k : Call F) : k ∈ r.calls ↔ ∃ coverage : Coverage, q.Asks index coverage (coverage.near k) ∧
    index.Names coverage (coverage.near k) (coverage.far k) ∧ q.Takes (coverage.far k)
  counted : ∃ asked : Coverage → Std.TreeSet F,
    (∀ coverage ∈ q.counted, ∀ f, f ∈ asked coverage ↔ q.Asks index coverage f) ∧
      n = (q.counted.map fun coverage => (asked coverage).size).foldr (· + ·) 0

variable {index}

/-- A question has one answer. -/
theorem Answered.unique {q : Question F} {r r' : Resolution F} {n n' : Nat}
    (h : q.Answered index r n) (h' : q.Answered index r' n') :
    (∀ f, f ∈ r.functions ↔ f ∈ r'.functions) ∧ (∀ k, k ∈ r.calls ↔ k ∈ r'.calls) ∧ n = n' := by
  refine ⟨fun f => (h.functions f).trans (h'.functions f).symm,
    fun k => (h.calls k).trans (h'.calls k).symm, ?_⟩
  obtain ⟨asked, hasked, rfl⟩ := h.counted
  obtain ⟨asked', hasked', rfl⟩ := h'.counted
  congr 1
  refine List.map_congr_left fun coverage hc => size_eq_of_mem_iff fun f => ?_
  rw [hasked coverage hc, hasked' coverage hc]

private theorem exists_coverage {p : Coverage → Prop} : (∃ coverage, p coverage) ↔ p .callees ∨ p .callers := by
  constructor
  · rintro ⟨_ | _, h⟩
    · exact .inr h
    · exact .inl h
  · rintro (h | h)
    · exact ⟨_, h⟩
    · exact ⟨_, h⟩

private theorem answered_within {scope : Std.TreeSet F} {calling : Answers F}
    (h : index.Answers .callers scope.toList calling) :
    (within scope).Answered index (Resolution.addInner .callers ⟨scope, ∅, 0⟩ calling) scope.size where
  functions g := by
    rw [Resolution.functions_addInner]
    refine ⟨fun hg => .inl (listed_toList_iff.mpr hg), ?_⟩
    rintro (hg | ⟨-, -, -, -, hg⟩)
    · exact listed_toList_iff.mp hg
    · exact hg
  calls k := by
    rw [Resolution.mem_calls_addInner, h.listed_answer_iff, listed_toList_iff, and_assoc]
    constructor
    · rintro (hk | hk)
      · exact absurd hk Std.TreeSet.not_mem_emptyc
      · exact ⟨.callers, ⟨rfl, hk.1⟩, hk.2⟩
    · rintro ⟨_, ⟨rfl, hnear⟩, hk⟩
      exact .inr ⟨hnear, hk⟩
  counted := by
    refine ⟨fun _ => scope, fun coverage hc f => ?_, by simp [counted]⟩
    exact ⟨fun hf => ⟨List.mem_singleton.mp hc, hf⟩, fun hf => hf.2⟩

private theorem answered_adjacent {scope : Std.TreeSet F} {called calling : Answers F}
    (hcalled : index.Answers .callees scope.toList called)
    (hcalling : index.Answers .callers scope.toList calling) :
    (adjacent scope).Answered index
      ((Resolution.addAnswers .callees ⟨scope, ∅, 0⟩ called).addAnswers .callers calling) scope.size where
  functions g := by
    rw [Resolution.mem_functions_addAnswers, Resolution.mem_functions_addAnswers,
      hcalled.listed_any_iff, hcalling.listed_any_iff, exists_coverage, or_assoc]
    simp only [Asks, Takes, functions, listed_toList_iff, and_true]
  calls k := by
    rw [Resolution.mem_calls_addAnswers, Resolution.mem_calls_addAnswers,
      hcalled.listed_answer_iff, hcalling.listed_answer_iff, exists_coverage]
    simp only [Asks, Takes, listed_toList_iff, and_true, Std.TreeSet.not_mem_emptyc, false_or]
  counted := ⟨fun _ => scope, fun _ _ _ => Iff.rfl, by simp [counted]⟩

/-- Right answers lead the inquiry of a question to its answer. -/
theorem inquiry_outcome {q : Question F} {rounds n : Nat} {r : Resolution F}
    (h : (q.inquiry rounds).Outcome index r n) : q.Answered index r n := by
  cases q with
  | closure seeds direction =>
    obtain ⟨closed, hclosed, hfunctions, hcalls, hn⟩ :=
      Inquiry.closeAll_outcome direction.nodup_coverages h
    refine ⟨fun g => ?_, fun k => ?_, closed, fun coverage hc f => ?_, hn⟩
    · rw [hfunctions, mem_ofList_iff]
      simp [Asks, Takes, functions, and_assoc]
    · rw [hcalls]
      simp [Asks, Takes, and_assoc]
    · rw [hclosed coverage hc]
      exact ⟨fun hf => ⟨hc, hf⟩, fun hf => hf.2⟩
  | within scope =>
    cases h with
    | ask hcalling hdone =>
      cases hdone
      simpa using answered_within hcalling
  | adjacent scope =>
    cases h with
    | ask hcalled hrest =>
      cases hrest with
      | ask hcalling hdone =>
        cases hdone
        simpa using answered_adjacent hcalled hcalling

/-- The inquiry of a question comes to an end within its limit. -/
theorem inquiry_ends {q : Question F} {rounds : Nat}
    (h : q.functions.length + index.population ≤ rounds) :
    (q.inquiry rounds).Ends index (q.Asks index) := by
  cases q with
  | closure seeds direction =>
    obtain ⟨names, hlength, hnames⟩ := index.exists_names
    exact Inquiry.closeAll_ends hnames (Nat.le_trans (Nat.add_le_add_left hlength _) h) _ _
  | within scope =>
    exact ⟨fun f hf => ⟨rfl, Std.TreeSet.mem_of_mem_toList hf⟩, fun _ _ => trivial⟩
  | adjacent scope =>
    refine ⟨fun f hf => Std.TreeSet.mem_of_mem_toList hf, fun _ _ => ?_⟩
    exact ⟨fun f hf => Std.TreeSet.mem_of_mem_toList hf, fun _ _ => trivial⟩

/-- A coherent index knows what it is asked about if it knows what the question begins with. -/
theorem Asks.knows (hc : index.Coherent) {q : Question F} (hq : ∀ f ∈ q.functions, index.Knows f)
    {coverage : Coverage} {f : F} (h : q.Asks index coverage f) : index.Knows f := by
  have hscope {scope : Std.TreeSet F} (hq : ∀ f ∈ scope.toList, index.Knows f) (hf : f ∈ scope) :
      index.Knows f := by
    obtain ⟨g, hg, hgf⟩ := listed_toList_iff.mpr hf
    exact (hq g hg).congr hgf
  cases q with
  | closure seeds direction => exact h.2.knows hc hq
  | within scope => exact hscope hq h.2
  | adjacent scope => exact hscope hq h

end Question

namespace Surroundings

open ExceptT

variable {s : Surroundings W F} {asking : Asking W F} {question : Question F} {σ τ : Search W F}

theorem answerBy_ok_iff {r : Resolution F} :
    (s.answerBy asking question).after σ = (.ok r, τ) ↔
      ∃ found, (s.pursueBy asking (question.inquiry (s.limit question σ))).after σ = (.ok found, τ) ∧
        r = { found with processed := τ.processed } := by
  rw [after_answerBy]
  rcases (s.pursueBy asking (question.inquiry (s.limit question σ))).after σ with ⟨e | found, ρ⟩
  · simp
  · simp only [Prod.mk.injEq, Except.ok.injEq]
    constructor
    · rintro ⟨rfl, rfl⟩
      exact ⟨found, ⟨rfl, rfl⟩, rfl⟩
    · rintro ⟨_, ⟨rfl, rfl⟩, rfl⟩
      exact ⟨rfl, rfl⟩

theorem answerBy_error_iff {e : ResolveError} :
    (s.answerBy asking question).after σ = (.error e, τ) ↔
      (s.pursueBy asking (question.inquiry (s.limit question σ))).after σ = (.error e, τ) := by
  rw [after_answerBy]
  rcases (s.pursueBy asking (question.inquiry (s.limit question σ))).after σ with ⟨_ | _, _⟩
  · rfl
  · simp

theorem answer_ok_iff {r : Resolution F} :
    (s.answer question).after σ = (.ok r, τ) ↔
      ∃ found, (s.pursue (question.inquiry (s.limit question σ))).after σ = (.ok found, τ) ∧
        r = { found with processed := τ.processed } := by
  rw [← answerBy_inTurn, ← pursueBy_inTurn]
  exact answerBy_ok_iff

variable {I : W → Prop} {index : CallIndex F} {V : Versions → Prop} {P : Cache F → Prop}

/-- What every round keeps, answering a question keeps, whether it succeeds or fails. -/
theorem AtOnce.answerBy_keeps (ha : s.AtOnce asking) (hs : s.Keeps I)
    (hcounted : ∀ (c : Cache F) hits misses, P c → P { c with hits := hits, misses := misses })
    (hlearn : ∀ coverage c w answer, s.Told I coverage answer → P c → I w →
      P (c.replaceNeighbours coverage answer.1 answer.2 (s.versions.run w).1))
    {result : Except ResolveError (Resolution F)} (h : (s.answerBy asking question).after σ = (result, τ))
    (hw : I σ.world) (hP : P σ.cache) : I τ.world ∧ P τ.cache := by
  cases result with
  | error e => exact ha.pursueBy_keeps hs hcounted hlearn (answerBy_error_iff.mp h) hw hP
  | ok r =>
    obtain ⟨found, hfound, -⟩ := answerBy_ok_iff.mp h
    exact ha.pursueBy_keeps hs hcounted hlearn hfound hw hP

/-- Over a cache that can be trusted, a question gets its answer or none. -/
theorem AtOnce.answerBy_ok (ha : s.AtOnce asking) (hs : s.Faithful I index)
    (hV : ∀ w, I w → V (s.versions.run w).1) (trust : ∀ coverage, Trust P index V coverage) {r : Resolution F}
    (h : (s.answerBy asking question).after σ = (.ok r, τ)) (hw : I σ.world) (hP : P σ.cache) :
    I τ.world ∧ P τ.cache ∧ ∃ n, question.Answered index r n ∧ r.processed = σ.processed + n := by
  obtain ⟨found, hpursue, rfl⟩ := answerBy_ok_iff.mp h
  obtain ⟨hw', hP', n, houtcome, hn⟩ := ha.pursueBy_ok hs hV (fun coverage _ => trust coverage) (.all _) hpursue hw hP
  have hanswered := Question.inquiry_outcome houtcome
  exact ⟨hw', hP', n, ⟨hanswered.functions, hanswered.calls, hanswered.counted⟩, hn⟩

/-- Every limit is enough for the rounds that a question takes. -/
theorem Calm.inquiry_ends (hs : s.Calm I index) (question : Question F) (σ : Search W F) :
    (question.inquiry (s.limit question σ)).Ends index (question.Asks index) := by
  refine Question.inquiry_ends ?_
  have := hs.population
  unfold limit
  omega

/-- In calm surroundings a question gets its answer if the index answers about all functions to be asked about. -/
theorem AtOnce.answerBy_calm (ha : s.AtOnce asking) (hs : s.Calm I index)
    (hV : ∀ w, I w → V (s.versions.run w).1) (trust : ∀ coverage, Trust P index V coverage)
    (hknown : ∀ coverage f, question.Asks index coverage f → ∃ found, index.neighbours coverage f = .ok found)
    (hw : I σ.world) (hP : P σ.cache) : ∃ r τ, (s.answerBy asking question).after σ = (.ok r, τ) := by
  obtain ⟨found, τ, hfound⟩ := ha.pursueBy_calm hs hV (fun coverage _ => trust coverage) (.all _)
    ((hs.inquiry_ends question σ).mono hknown) hw hP
  exact ⟨_, τ, answerBy_ok_iff.mpr ⟨found, hfound, rfl⟩⟩

/-! ### In turn or at once -/

/-- To answer a question in turn is to answer it by a way to ask that asks at once. -/
theorem Resolves.exists_asking {step : Searching W F (Resolution F)} (h : s.Resolves question step) :
    ∃ asking, s.AtOnce asking ∧ step = s.answerBy asking question := by
  cases h with
  | inTurn => exact ⟨s.inTurn, s.atOnce_inTurn, (s.answerBy_inTurn question).symm⟩
  | atOnce ha => exact ⟨_, ha, rfl⟩

/-- What a cache is trusted for stays true, whether a question is answered or not. -/
theorem Resolves.keeps {step : Searching W F (Resolution F)} (hstep : s.Resolves question step) (hs : s.Faithful I index)
    (hV : ∀ w, I w → V (s.versions.run w).1) (trust : ∀ coverage, Trust P index V coverage)
    {result : Except ResolveError (Resolution F)} (h : step.after σ = (result, τ)) (hw : I σ.world) (hP : P σ.cache) :
    I τ.world ∧ P τ.cache := by
  obtain ⟨asking, ha, rfl⟩ := hstep.exists_asking
  exact ha.answerBy_keeps hs.toKeeps (fun _ hits misses => (trust .callers).counted hits misses)
    (fun coverage => hs.learned hV (trust coverage)) h hw hP

/-- Over a cache that can be trusted, a question gets its answer or none. -/
theorem Resolves.answered_of_trust {step : Searching W F (Resolution F)} (hstep : s.Resolves question step)
    (hs : s.Faithful I index) (hV : ∀ w, I w → V (s.versions.run w).1) (trust : ∀ coverage, Trust P index V coverage)
    {r : Resolution F} (h : step.after σ = (.ok r, τ)) (hw : I σ.world) (hP : P σ.cache) :
    ∃ n, question.Answered index r n ∧ r.processed = σ.processed + n := by
  obtain ⟨asking, ha, rfl⟩ := hstep.exists_asking
  exact (ha.answerBy_ok hs hV trust h hw hP).2.2

theorem Resolves.calm_of_trust {step : Searching W F (Resolution F)} (hstep : s.Resolves question step)
    (hs : s.Calm I index) (hV : ∀ w, I w → V (s.versions.run w).1) (trust : ∀ coverage, Trust P index V coverage)
    (hknown : ∀ coverage f, question.Asks index coverage f → ∃ found, index.neighbours coverage f = .ok found)
    (hw : I σ.world) (hP : P σ.cache) : ∃ r τ, step.after σ = (.ok r, τ) := by
  obtain ⟨asking, ha, rfl⟩ := hstep.exists_asking
  exact ha.answerBy_calm hs hV trust hknown hw hP

/-- If every call is told in both directions and the covered sets are the index's answers, a question gets its answer
or none. -/
theorem Resolves.answered {step : Searching W F (Resolution F)} (hstep : s.Resolves question step)
    (hs : s.Faithful I index) (hm : index.Mirrored) {r : Resolution F} (h : step.after σ = (.ok r, τ))
    (hw : I σ.world) (hc : σ.cache.Agrees index) :
    ∃ n, question.Answered index r n ∧ r.processed = σ.processed + n :=
  hstep.answered_of_trust hs (V := fun _ => True) (fun _ _ => trivial) (Cache.Agrees.trust_of_mirrored hm _) h hw hc

theorem Resolves.calm {step : Searching W F (Resolution F)} (hstep : s.Resolves question step) (hs : s.Calm I index)
    (hm : index.Mirrored)
    (hknown : ∀ coverage f, question.Asks index coverage f → ∃ found, index.neighbours coverage f = .ok found)
    (hw : I σ.world) (hc : σ.cache.Agrees index) : ∃ r τ, step.after σ = (.ok r, τ) :=
  hstep.calm_of_trust hs (V := fun _ => True) (fun _ _ => trivial) (Cache.Agrees.trust_of_mirrored hm _) hknown hw hc

/-- An answer found over a cache that can be trusted is the one that calm surroundings give with an
empty cache, in whatever way the index is asked there. -/
theorem Resolves.exists_fresh {step : Searching W F (Resolution F)} (hstep : s.Resolves question step)
    (hs : s.Faithful I index) (hV : ∀ w, I w → V (s.versions.run w).1)
    (trust : ∀ coverage, Trust P index V coverage) (hw : I σ.world) (hP : P σ.cache)
    {r : Resolution F} (h : step.after σ = (.ok r, τ))
    (hc : index.Coherent) (hq : ∀ f ∈ question.functions, index.Knows f)
    {W' : Type} {s' : Surroundings W' F} {I' : W' → Prop} (hs' : s'.Calm I' index)
    {fresh : Searching W' F (Resolution F)} (hfresh : s'.Resolves question fresh) {w' : W'} (hw' : I' w') :
    ∃ r' τ', fresh.after ⟨w', .empty, σ.processed⟩ = (.ok r', τ') ∧ r.Same r' := by
  have hV' : ∀ w, I' w → True := fun _ _ => trivial
  have htrust : ∀ coverage, Trust (Cache.Agrees index) index (fun _ => True) coverage :=
    Cache.Agrees.trust hc _
  have hempty : (Cache.empty : Cache F).Agrees index := fun coverage =>
    (Cache.uncoveredAt_empty coverage).agreesAt
  obtain ⟨r', τ', h'⟩ := hfresh.calm_of_trust (σ := ⟨w', .empty, σ.processed⟩) hs' hV' htrust
    (fun coverage f hf => hf.knows hc hq coverage) hw' hempty
  obtain ⟨n, hanswered, hn⟩ := hstep.answered_of_trust hs hV trust h hw hP
  obtain ⟨n', hanswered', hn'⟩ := hfresh.answered_of_trust hs'.faithful hV' htrust h' hw' hempty
  obtain ⟨hfunctions, hcalls, rfl⟩ := hanswered.unique hanswered'
  exact ⟨r', τ', h', hfunctions, hcalls, hn.trans hn'.symm⟩

theorem answer_keeps (hs : s.Keeps I)
    (hcounted : ∀ (c : Cache F) hits misses, P c → P { c with hits := hits, misses := misses })
    (hlearn : ∀ coverage c w answer, s.Told I coverage answer → P c → I w →
      P (c.replaceNeighbours coverage answer.1 answer.2 (s.versions.run w).1))
    {result : Except ResolveError (Resolution F)} (h : (s.answer question).after σ = (result, τ))
    (hw : I σ.world) (hP : P σ.cache) : I τ.world ∧ P τ.cache := by
  rw [← answerBy_inTurn] at h
  exact s.atOnce_inTurn.answerBy_keeps hs hcounted hlearn h hw hP

end Surroundings
end CallChart
