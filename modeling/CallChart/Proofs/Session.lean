import CallChart.Proofs.CacheCurrent
import CallChart.Proofs.CallList
import CallChart.Proofs.Questions

/-! Sessions on one cache: files are edited, the index changes, the cache is pruned, and questions are
answered or fail. As long as the index changes only where files were edited, the cache is not to be
noticed in any answer. -/
namespace CallChart

variable {W F : Type} [Handle F]

/-- The moment at which a session is, its cache, and the moment of the latest question. -/
structure Session (F : Type) [Handle F] where
  moment : Moment F
  cache : Cache F
  asked : Option (Moment F)

namespace Session

/-- A question may be asked now: the index is coherent and has changed since the question before only
where files were edited, and neither the index nor the versions move during the search, whatever else
happens to it. -/
structure Admits (t : Session F) (s : Surroundings W F) (I : W → Prop) (w : W) : Prop where
  coherent : t.moment.index.Coherent
  follows : ∀ earlier, t.asked = some earlier → t.moment.Follows earlier
  faithful : s.Faithful I t.moment.index
  versions : ∀ w, I w → (s.versions.run w).1 = t.moment.versions
  world : I w

/-- What can happen in a session. -/
inductive Step : Session F → Session F → Prop where
  | edit {t : Session F} {v : Versions} : t.moment.versions.Before v →
      Step t { t with moment := ⟨v, t.moment.index⟩ }
  | reindex {t : Session F} (index : CallIndex F) :
      Step t { t with moment := ⟨t.moment.versions, index⟩ }
  | prune {t : Session F} (scope : Std.TreeSet F) :
      Step t { t with cache := (t.cache.prune scope t.moment.versions).2 }
  | ask {W : Type} {t : Session F} {s : Surroundings W F} {I : W → Prop} {w : W}
      {question : Question F} {step : Searching W F (Resolution F)}
      {result : Except ResolveError (Resolution F)} {τ : Search W F} :
      t.Admits s I w → s.Resolves question step → step.after ⟨w, t.cache, 0⟩ = (result, τ) →
      Step t { t with cache := τ.cache, asked := some t.moment }

/-- The sessions that begin with an empty cache. -/
inductive Reachable : Session F → Prop where
  | start (m : Moment F) : Reachable ⟨m, .empty, none⟩
  | step {t u : Session F} : Reachable t → Step t u → Reachable u

/-- Before the first question the cache is blank; later it is current at the moment of the latest
question, which is not after now. -/
def Sound (t : Session F) : Prop :=
  match t.asked with
  | none => t.cache.Blank
  | some m => m.index.Coherent ∧ m.versions.Before t.moment.versions ∧ t.cache.Current m

/-- When a question may be asked, the cache is current. -/
theorem Sound.current {t : Session F} (ht : t.Sound) {s : Surroundings W F} {I : W → Prop} {w : W}
    (h : t.Admits s I w) : t.cache.Current t.moment := by
  unfold Sound at ht
  cases hasked : t.asked with
  | none =>
    rw [hasked] at ht
    exact ht.current t.moment
  | some m =>
    rw [hasked] at ht
    obtain ⟨hm, hbefore, hcurrent⟩ := ht
    exact hcurrent.later hm h.coherent hbefore (h.follows m hasked)

theorem Sound.step {t u : Session F} (ht : t.Sound) (h : Step t u) : u.Sound := by
  cases h with
  | edit hv =>
    unfold Sound at ht ⊢
    cases hasked : t.asked with
    | none => simpa [hasked] using ht
    | some m =>
      simp only [hasked] at ht ⊢
      exact ⟨ht.1, ht.2.1.trans hv, ht.2.2⟩
  | reindex index => exact ht
  | prune scope =>
    unfold Sound at ht ⊢
    cases hasked : t.asked with
    | none =>
      simp only [hasked] at ht ⊢
      exact ht.pruned scope _
    | some m =>
      simp only [hasked] at ht ⊢
      exact ⟨ht.1, ht.2.1, ht.2.2.pruned scope _⟩
  | ask hadmits hstep hanswer =>
    refine ⟨hadmits.coherent, .refl _, ?_⟩
    exact (hstep.keeps hadmits.faithful hadmits.versions (Cache.Current.trust hadmits.coherent)
      hanswer hadmits.world (ht.current hadmits)).2

theorem Reachable.sound {t : Session F} (h : t.Reachable) : t.Sound := by
  induction h with
  | start m => exact Cache.blank_empty
  | step _ hstep ih => exact ih.step hstep

/-- The cache of a session is not to be noticed: a question that gets an answer gets the functions,
the calls and the count that it would get with an empty cache, whether the functions of a round are asked about in
turn or at once. -/
theorem answer_as_with_empty_cache {t : Session F} (ht : t.Reachable) {s : Surroundings W F}
    {I : W → Prop} {w : W} (h : t.Admits s I w) {question : Question F}
    (hq : ∀ f ∈ question.functions, t.moment.index.Knows f) {step : Searching W F (Resolution F)}
    (hstep : s.Resolves question step) {r : Resolution F} {τ : Search W F}
    (hr : step.after ⟨w, t.cache, 0⟩ = (.ok r, τ))
    {W' : Type} {s' : Surroundings W' F} {I' : W' → Prop} (hs' : s'.Calm I' t.moment.index)
    {fresh : Searching W' F (Resolution F)} (hfresh : s'.Resolves question fresh) {w' : W'} (hw' : I' w') :
    ∃ r' τ', fresh.after ⟨w', .empty, 0⟩ = (.ok r', τ') ∧ r.Same r' :=
  hstep.exists_fresh h.faithful h.versions (Cache.Current.trust h.coherent) h.world
    (ht.sound.current h) hr h.coherent hq hs' hfresh hw'

/-- Nothing happens in calm surroundings that show the versions of the moment. -/
theorem admits_quiet {t : Session F} (hc : t.moment.index.Coherent)
    (hf : ∀ earlier, t.asked = some earlier → t.moment.Follows earlier) :
    t.Admits (t.moment.index.quiet t.moment.versions) (fun _ => True) () where
  coherent := hc
  follows := hf
  faithful := (t.moment.index.calm_quiet _).faithful
  versions _ _ := rfl
  world := trivial

/-- A call is removed by an edit of its file between two questions. -/
theorem answer_after_edit :
    let question : Question SourceFunction := .closure [.named "main"] .downstream
    ∃ t : Session SourceFunction, t.Reachable ∧ t.cache.size = 1 ∧
      ∃ s : Surroundings Unit SourceFunction, ∃ r r' τ τ',
        (s.answer question).after ⟨(), t.cache, 0⟩ = (.ok r, τ) ∧
          (s.answer question).after ⟨(), .empty, 0⟩ = (.ok r', τ') ∧ r.Same r' := by
  intro question
  let v := FileVersions.start none
  let first : Moment SourceFunction := ⟨v.now, .ofCalls [⟨.named "main", .named "run"⟩]⟩
  let second : Moment SourceFunction := ⟨(v.bump ⟨"main"⟩).now, .ofCalls []⟩
  obtain ⟨asked, hasked⟩ :
      ∃ asked, ((first.index.quiet first.versions).answer question).after ⟨(), .empty, 0⟩ = asked := ⟨_, rfl⟩
  have hsize : asked.2.cache.size = 1 := by
    rw [← hasked]
    decide +kernel
  let t : Session SourceFunction := ⟨second, asked.2.cache, some first⟩
  have hcoherent (m : Moment SourceFunction) (calls : List (Call SourceFunction))
      (hm : m.index = .ofCalls calls) : m.index.Coherent := hm ▸ CallIndex.coherent_ofCalls calls
  have hnone (coverage : Coverage) (f g : SourceFunction) : ¬ second.index.Names coverage f g :=
    fun h => Listed.nil _ (CallIndex.names_ofCalls.mp h)
  have hfollows : second.Follows first := by
    refine ⟨fun h => absurd h (hnone _ _ _), fun {f g} h _ => .inl ?_⟩
    obtain ⟨call, hcall, heq⟩ := CallIndex.names_ofCalls.mp h
    obtain rfl := List.mem_singleton.mp hcall
    have hfile : compare (Path.mk "main") (Handle.sourceFile f) = .eq :=
      Handle.sourceFile_congr (Coverage.callees.compare_iff.mp heq).1
    rw [← first.versions.ofFile_congr hfile, ← second.versions.ofFile_congr hfile]
    decide +kernel
  have ht : t.Reachable := by
    have hstart : Reachable ⟨first, .empty, none⟩ := .start first
    have hanswered : Reachable ⟨first, asked.2.cache, some first⟩ :=
      hstart.step (.ask (admits_quiet (hcoherent first _ rfl) nofun) .inTurn hasked)
    have hedited := hanswered.step (.edit (v := second.versions) (v.before_bump _))
    exact hedited.step (.reindex second.index)
  have hadmits : t.Admits (second.index.quiet second.versions) (fun _ => True) () :=
    admits_quiet (hcoherent second _ rfl) fun _ h => Option.some.inj h ▸ hfollows
  have hknown : ∀ f ∈ question.functions, second.index.Knows f := fun f _ => CallIndex.knows_ofCalls _ f
  have hcalm := second.index.calm_quiet second.versions
  obtain ⟨r, τ, hr⟩ : ∃ r τ, ((second.index.quiet second.versions).answer question).after
      ⟨(), t.cache, 0⟩ = (.ok r, τ) :=
    Surroundings.Resolves.inTurn.calm_of_trust hcalm hadmits.versions (Cache.Current.trust hadmits.coherent)
      (fun coverage f hf => hf.knows hadmits.coherent hknown coverage) trivial (ht.sound.current hadmits)
  obtain ⟨r', τ', hr', hsame⟩ := answer_as_with_empty_cache ht hadmits hknown .inTurn hr hcalm .inTurn trivial
  exact ⟨t, ht, hsize, _, r, r', τ, τ', hr, hr', hsame⟩

end Session
end CallChart
