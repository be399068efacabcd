import CallChart.Proofs.CallList
import CallChart.Proofs.Questions

/-! The calls of a scope, found in two ways. The calls inside of it are found by asking about callers only, and
those that touch it by asking in both directions, while the second round changes what the first one has just
recorded. Both ways agree on the calls inside. -/
namespace CallChart

variable {W F : Type} [Handle F]

namespace Question

variable {index : CallIndex F} {scope : Std.TreeSet F} {r : Resolution F} {n : Nat}

theorem Answered.functions_within (h : (within scope).Answered index r n) (f : F) :
    f ∈ r.functions ↔ f ∈ scope := by
  rw [h.functions, Question.functions, listed_toList_iff, or_iff_left_iff_imp]
  rintro ⟨-, -, -, -, hf⟩
  exact hf

theorem Answered.calls_within (h : (within scope).Answered index r n) (hm : index.Mirrored) (k : Call F) :
    k ∈ r.calls ↔ index.Names .callees k.caller k.callee ∧ k.caller ∈ scope ∧ k.callee ∈ scope := by
  rw [h.calls, hm]
  constructor
  · rintro ⟨_, ⟨rfl, hcallee⟩, hn, hcaller⟩
    exact ⟨hn, hcaller, hcallee⟩
  · rintro ⟨hn, hcaller, hcallee⟩
    exact ⟨.callers, ⟨rfl, hcallee⟩, hn, hcaller⟩

theorem Answered.calls_adjacent (h : (adjacent scope).Answered index r n) (hm : index.Mirrored) (k : Call F) :
    k ∈ r.calls ↔ index.Names .callees k.caller k.callee ∧ (k.caller ∈ scope ∨ k.callee ∈ scope) := by
  rw [h.calls]
  constructor
  · rintro ⟨coverage, hasked, hn, -⟩
    cases coverage with
    | callees => exact ⟨hn, .inl hasked⟩
    | callers => exact ⟨(hm _ _).mpr hn, .inr hasked⟩
  · rintro ⟨hn, hcaller | hcallee⟩
    · exact ⟨.callees, hcaller, hn, trivial⟩
    · exact ⟨.callers, hcallee, (hm _ _).mp hn, trivial⟩

/-- Besides the scope there are the other ends of the calls that were found. -/
theorem Answered.functions_adjacent (h : (adjacent scope).Answered index r n) (hm : index.Mirrored) (f : F) :
    f ∈ r.functions ↔ f ∈ scope ∨ ∃ g, (⟨f, g⟩ : Call F) ∈ r.calls ∨ (⟨g, f⟩ : Call F) ∈ r.calls := by
  simp only [h.calls_adjacent hm]
  rw [h.functions, Question.functions, listed_toList_iff]
  constructor
  · rintro (hf | ⟨coverage, g, hg, hn, -⟩)
    · exact .inl hf
    · cases coverage with
      | callees => exact .inr ⟨g, .inr ⟨hn, .inl hg⟩⟩
      | callers => exact .inr ⟨g, .inl ⟨(hm f g).mpr hn, .inr hg⟩⟩
  · rintro (hf | ⟨g, ⟨hn, hf | hg⟩ | ⟨hn, hg | hf⟩⟩)
    · exact .inl hf
    · exact .inl hf
    · exact .inr ⟨.callers, g, hg, (hm f g).mp hn, trivial⟩
    · exact .inr ⟨.callees, g, hg, hn, trivial⟩
    · exact .inl hf

/-- Whichever way the calls of a scope are found, each of its functions is counted once. -/
theorem Answered.counted_scope (limited : Bool) (h : (ofScope limited scope).Answered index r n) : n = scope.size := by
  obtain ⟨asked, hasked, hn⟩ := h.counted
  have hsize : (asked .callers).size = scope.size := by
    cases limited with
    | true =>
      exact size_eq_of_mem_iff fun f => (hasked .callers List.mem_cons_self f).trans (and_iff_right rfl)
    | false => exact size_eq_of_mem_iff (hasked .callers List.mem_cons_self)
  cases limited with
  | true => exact hn.trans hsize
  | false => exact hn.trans hsize

end Question

namespace Surroundings

variable {s : Surroundings W F} {I : W → Prop} {index : CallIndex F}

/-- The calls inside of a scope and those that touch it, found with an empty cache. The former are the latter that
begin and end in the scope, whatever the scope is, and either way each of its functions is counted once. -/
theorem scope_calls_agree (hs : s.Faithful I index) (hm : index.Mirrored) (scope : Std.TreeSet F)
    {inner outer : Searching W F (Resolution F)} (hinner : s.Resolves (.within scope) inner)
    (houter : s.Resolves (.adjacent scope) outer) (w w' : W) (hw : I w) (hw' : I w') (n n' : Nat) :
    (∀ r τ, inner.after ⟨w, .empty, n⟩ = (.ok r, τ) →
      (∀ f, f ∈ r.functions ↔ f ∈ scope) ∧
      (∀ k, k ∈ r.calls ↔ index.Names .callees k.caller k.callee ∧ k.caller ∈ scope ∧ k.callee ∈ scope) ∧
      r.processed = n + scope.size) ∧
    (∀ r' τ', outer.after ⟨w', .empty, n'⟩ = (.ok r', τ') →
      (∀ f, f ∈ r'.functions ↔ f ∈ scope ∨ ∃ g, (⟨f, g⟩ : Call F) ∈ r'.calls ∨ (⟨g, f⟩ : Call F) ∈ r'.calls) ∧
      (∀ k, k ∈ r'.calls ↔ index.Names .callees k.caller k.callee ∧ (k.caller ∈ scope ∨ k.callee ∈ scope)) ∧
      r'.processed = n' + scope.size) ∧
    (∀ r τ r' τ', inner.after ⟨w, .empty, n⟩ = (.ok r, τ) → outer.after ⟨w', .empty, n'⟩ = (.ok r', τ') →
      ∀ k, k ∈ r.calls ↔ k ∈ r'.calls ∧ k.caller ∈ scope ∧ k.callee ∈ scope) ∧
    (s.Calm I index →
      ((∀ f ∈ scope, ∃ found, index.neighbours .callers f = .ok found) →
        ∃ r τ, inner.after ⟨w, .empty, n⟩ = (.ok r, τ)) ∧
      ((∀ coverage, ∀ f ∈ scope, ∃ found, index.neighbours coverage f = .ok found) →
        ∃ r' τ', outer.after ⟨w', .empty, n'⟩ = (.ok r', τ'))) := by
  have hempty := Cache.agrees_empty index
  refine ⟨fun r τ h => ?_, fun r τ h => ?_, fun r τ r' τ' h h' k => ?_, fun hcalm => ⟨?_, ?_⟩⟩
  · obtain ⟨m, hanswered, hm'⟩ := hinner.answered hs hm h hw hempty
    have hcounted : m = scope.size := Question.Answered.counted_scope true hanswered
    exact ⟨hanswered.functions_within, hanswered.calls_within hm, hcounted ▸ hm'⟩
  · obtain ⟨m, hanswered, hm'⟩ := houter.answered hs hm h hw' hempty
    have hcounted : m = scope.size := Question.Answered.counted_scope false hanswered
    exact ⟨hanswered.functions_adjacent hm, hanswered.calls_adjacent hm, hcounted ▸ hm'⟩
  · obtain ⟨_, hanswered, -⟩ := hinner.answered hs hm h hw hempty
    obtain ⟨_, hanswered', -⟩ := houter.answered hs hm h' hw' hempty
    rw [hanswered.calls_within hm, hanswered'.calls_adjacent hm]
    constructor
    · rintro ⟨hn, hcaller, hcallee⟩
      exact ⟨⟨hn, .inl hcaller⟩, hcaller, hcallee⟩
    · rintro ⟨⟨hn, -⟩, hends⟩
      exact ⟨hn, hends⟩
  · intro hknown
    refine hinner.calm (σ := ⟨w, .empty, n⟩) hcalm hm ?_ hw hempty
    rintro _ f ⟨rfl, hf⟩
    exact hknown f hf
  · intro hknown
    exact houter.calm (σ := ⟨w', .empty, n'⟩) hcalm hm (fun coverage f hf => hknown coverage f hf) hw' hempty

/-- A function that calls itself and another one, which calls a third one from outside of the scope. -/
theorem calls_of_two :
    let index : CallIndex SourceFunction := .ofCalls [⟨.named "main", .named "main"⟩, ⟨.named "main", .named "parse"⟩,
      ⟨.named "parse", .named "fail"⟩]
    let s := index.quiet (FileVersions.start none).now
    let functions : List SourceFunction := [.named "main", .named "parse"]
    let scope := Std.TreeSet.ofList functions
    ∃ r τ r' τ', (s.resolveWithin scope).after ⟨(), .empty, 0⟩ = (.ok r, τ) ∧
      (s.resolveAdjacent scope).after ⟨(), .empty, 0⟩ = (.ok r', τ') ∧
      r.processed = 2 ∧ r'.processed = 2 ∧ (⟨.named "main", .named "main"⟩ : Call SourceFunction) ∈ r.calls ∧
      (⟨.named "parse", .named "fail"⟩ : Call SourceFunction) ∈ r'.calls ∧ .named "fail" ∈ r'.functions ∧
      (∀ k, k ∈ r.calls ↔ k ∈ r'.calls ∧ k.caller ∈ scope ∧ k.callee ∈ scope) := by
  intro index s functions scope
  have hcalm := index.calm_quiet (FileVersions.start none).now
  have hm : index.Mirrored := (CallIndex.coherent_ofCalls _).isMirrored
  have hinside : s.Resolves (.within scope) (s.resolveWithin scope) := .inTurn
  have haround : s.Resolves (.adjacent scope) (s.resolveAdjacent scope) := .inTurn
  obtain ⟨hwithin, hadjacent, hagree, hends⟩ :=
    scope_calls_agree hcalm.faithful hm scope hinside haround () () trivial trivial 0 0
  obtain ⟨r, τ, hr⟩ := (hends hcalm).1 fun f _ => CallIndex.knows_ofCalls _ f .callers
  obtain ⟨r', τ', hr'⟩ := (hends hcalm).2 fun coverage f _ => CallIndex.knows_ofCalls _ f coverage
  obtain ⟨-, hinner, hprocessed⟩ := hwithin r τ hr
  obtain ⟨hfunctions, houter, hprocessed'⟩ := hadjacent r' τ' hr'
  have hsize : 0 + scope.size = 2 := by decide +kernel
  have hmain : (.named "main" : SourceFunction) ∈ scope := mem_ofList_iff.mpr (.of_mem List.mem_cons_self)
  have hparse : (.named "parse" : SourceFunction) ∈ scope :=
    mem_ofList_iff.mpr (.of_mem (List.mem_cons_of_mem _ List.mem_cons_self))
  have hself : (⟨.named "main", .named "main"⟩ : Call SourceFunction) ∈ r.calls :=
    (hinner _).mpr ⟨CallIndex.names_ofCalls.mpr (.of_mem List.mem_cons_self), hmain, hmain⟩
  have hleaves : (⟨.named "parse", .named "fail"⟩ : Call SourceFunction) ∈ r'.calls := by
    refine (houter _).mpr ⟨CallIndex.names_ofCalls.mpr (.of_mem ?_), .inl hparse⟩
    exact List.mem_cons_of_mem _ (List.mem_cons_of_mem _ List.mem_cons_self)
  exact ⟨r, τ, r', τ', hr, hr', hprocessed.trans hsize, hprocessed'.trans hsize, hself, hleaves,
    (hfunctions _).mpr (.inr ⟨_, .inr hleaves⟩), hagree r τ r' τ' hr hr'⟩

end Surroundings
end CallChart
