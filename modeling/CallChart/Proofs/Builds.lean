import CallChart.Proofs.Arrangement
import CallChart.Proofs.Assembly
import CallChart.Proofs.Questions

/-! One build from its beginning to its end: what it keeps, what was found when it succeeds, and that
it succeeds when nothing happens meanwhile. -/
namespace CallChart

variable {W F α : Type} [Handle F]

/-- What is asked of a search that draws a request from an index. A scope that is gone is empty. -/
def BuildRequest.question? (index : CallIndex F) : BuildRequest F → Option (Question F)
  | .scope part limited =>
    match index.functions part with
    | .ok functions => some (.ofScope limited functions)
    | .error e => if e.isScopeError then some (.ofScope limited ∅) else none
  | .focus seeds direction => some (.closure seeds direction)

/-- What all that a build does to a cache keeps. -/
structure Cache.Lasting (P : Cache F → Prop) : Prop where
  learned {c : Cache F} (coverage : Coverage) (f : F) (answer : List F) (v : Versions) :
    P c → P (c.replaceNeighbours coverage f answer v)
  pruned {c : Cache F} (scope : Std.TreeSet F) (v : Versions) : P c → P (c.prune scope v).2
  counted {c : Cache F} (hits misses : Nat) : P c → P { c with hits := hits, misses := misses }

namespace Site

open ExceptT

variable {site : Site W F α} {I : W → Prop} {P : Cache F → Prop} {index : CallIndex F}
  {build : Nat} {request : BuildRequest F}

/-- What holds of the world whatever a build looks at. -/
structure Keeps (site : Site W F α) (I : W → Prop) : Prop where
  cancelled {w : W} : I w → I (site.cancelled.run w).2
  versions {w : W} : I w → I (site.versions.run w).2
  functions {w : W} (scope : Scope) : I w → I ((site.functions scope).run w).2
  ask {w : W} (coverage : Coverage) (f : F) : I w → I ((site.ask coverage f).run w).2
  draw {w : W} (request : LayoutRequest) : I w → I ((site.draw request).run w).2
  emit {w : W} (event : BuildEvent) : I w → I ((site.emit event).run w).2

theorem Keeps.surroundings (hs : site.Keeps I) (build : Nat) (total : Option Nat) :
    (site.surroundings build total).Keeps I :=
  ⟨hs.cancelled, hs.versions, hs.ask, fun _ => hs.emit _⟩

theorem Keeps.layout [Scalar α] (hs : site.Keeps I) : LayoutService.Keeps ⟨site.cancelled, site.draw⟩ I :=
  ⟨fun _ => hs.cancelled, fun request _ => hs.draw request⟩

/-! ### What is kept -/

theorem after_observe {β : Type} (view : StateM W β) (σ : Search W F) :
    (observe view).after σ = (.ok (view.run σ.world).1, { σ with world := (view.run σ.world).2 }) := rfl

theorem after_guarded {ε β : Type} (cause : ε → BuildError) (step : StateM (Search W F) (Except ε β))
    (σ : Search W F) :
    (guarded cause step).after σ = ((step.run σ).1.mapError cause, (step.run σ).2) := rfl

theorem guarded_ok_iff {ε β : Type} {cause : ε → BuildError} {step : StateM (Search W F) (Except ε β)}
    {σ τ : Search W F} {b : β} :
    (guarded cause step).after σ = (.ok b, τ) ↔ step.run σ = (.ok b, τ) := by
  rw [after_guarded]
  rcases step.run σ with ⟨_ | _, _⟩
  · exact iff_of_false (fun h => by cases h) fun h => by cases h
  · constructor
    · intro h
      cases h
      rfl
    · intro h
      cases h
      rfl

theorem after_checkCancelled (site : Site W F α) (σ : Search W F) :
    site.checkCancelled.after σ =
      (if (site.cancelled.run σ.world).1 then .error .cancelled else .ok (),
        { σ with world := (site.cancelled.run σ.world).2 }) := by
  rw [checkCancelled, after_bind, after_observe]
  dsimp only
  split <;> rfl

/-- The invariant of a build: something of the world and something of the cache. -/
def Holding (I : W → Prop) (P : Cache F → Prop) (σ : Search W F) : Prop := I σ.world ∧ P σ.cache

theorem Keeps.checkCancelled (hs : site.Keeps I) : site.checkCancelled.Preserves (Holding I P) := by
  intro σ hσ
  rw [after_checkCancelled]
  exact ⟨hs.cancelled hσ.1, hσ.2⟩

theorem Keeps.scopeFunctions (hs : site.Keeps I) (build : Nat) (scope : Scope) :
    (site.scopeFunctions build scope).Preserves (Holding I P) := by
  refine .bind (fun σ hσ => ⟨hs.functions scope hσ.1, hσ.2⟩) fun answer => ?_
  cases answer with
  | ok functions => exact preserves_pure _ _
  | error e =>
    dsimp only
    split
    · exact .bind (fun σ hσ => ⟨hs.emit _ hσ.1, hσ.2⟩) fun _ => preserves_pure _ _
    · exact preserves_throw _ _

theorem Keeps.question (hs : site.Keeps I) (build : Nat) (request : BuildRequest F) :
    (site.question build request).Preserves (Holding I P) := by
  cases request with
  | scope scope limited => exact .bind (hs.scopeFunctions build scope) fun _ => preserves_pure _ _
  | focus seeds direction => exact preserves_pure _ _

theorem Keeps.find (hs : site.Keeps I) (hP : Cache.Lasting P) (build : Nat) (request : BuildRequest F) :
    (site.find build request).Preserves (Holding I P) := by
  refine .bind (hs.question build request) fun asked σ hσ => ?_
  exact Surroundings.answer_keeps (hs.surroundings build asked.2) (fun _ hits misses => hP.counted hits misses)
    (fun coverage _ _ answer _ hc _ => hP.learned coverage answer.1 answer.2 _ hc) rfl hσ.1 hσ.2

theorem Keeps.prune (hs : site.Keeps I) (hP : Cache.Lasting P) : site.prune.Preserves (Holding I P) := by
  refine .bind (fun σ hσ => ⟨hs.functions .whole hσ.1, hσ.2⟩) fun project σ hσ => ?_
  exact ⟨hs.versions hσ.1, hP.pruned project _ hσ.2⟩

variable [Scalar α] {settings : LayoutSettings α}

theorem Keeps.arrange (hs : site.Keeps I) (settings : LayoutSettings α) (g : Graph F α) :
    (site.arrange settings g).Preserves (Holding I P) :=
  fun σ hσ => ⟨hs.layout.arrange settings g σ.world hσ.1, hσ.2⟩

/-- A build keeps of the world and of the cache what each of its steps keeps, however it ends. -/
theorem Keeps.run (hs : site.Keeps I) (hP : Cache.Lasting P) (settings : LayoutSettings α) (build : Nat)
    (request : BuildRequest F) : (site.run settings build request).Preserves (Holding I P) := by
  refine .bind hs.checkCancelled fun _ => .bind (fun σ hσ => ⟨hs.emit _ hσ.1, hσ.2⟩) fun _ => ?_
  refine .bind (hs.prune hP) fun _ => .bind (hs.find hP build request) fun found => ?_
  refine .bind (fun σ hσ => hσ) fun g => .bind hs.checkCancelled fun _ => ?_
  refine .bind (hs.arrange settings g) fun drawn => .bind hs.checkCancelled fun _ => ?_
  exact preserves_pure _ _

/-! ### What was found -/

/-- A site whose answers are those of an index. Any question may stay unanswered. -/
structure Faithful (site : Site W F α) (I : W → Prop) (index : CallIndex F) : Prop
    extends site.Keeps I where
  lists {w : W} {scope : Scope} {found : Std.TreeSet F} : I w →
    ((site.functions scope).run w).1 = .ok found → index.functions scope = .ok found
  misses {w : W} {scope : Scope} {e : IndexError} : I w →
    ((site.functions scope).run w).1 = .error e → e.isScopeError = true → index.functions scope = .error e
  tells {w : W} {coverage : Coverage} {f : F} {found : Std.TreeSet F} : I w →
    ((site.ask coverage f).run w).1 = .ok found → index.neighbours coverage f = .ok found
  schedule (fs : List F) : (site.schedule fs).Perm fs

omit [Scalar α] in
theorem Faithful.surroundings (hs : site.Faithful I index) (build : Nat) (total : Option Nat) :
    (site.surroundings build total).Faithful I index where
  toKeeps := hs.toKeeps.surroundings build total
  answers hw h := hs.tells hw h
  schedule := hs.schedule

omit [Scalar α] in
theorem checkCancelled_ok (hs : site.Keeps I) {σ τ : Search W F} (h : site.checkCancelled.after σ = (.ok (), τ))
    (hw : I σ.world) : I τ.world ∧ τ.cache = σ.cache ∧ τ.processed = σ.processed := by
  rw [after_checkCancelled] at h
  split at h
  · cases h
  · cases h
    exact ⟨hs.cancelled hw, rfl, rfl⟩

omit [Scalar α] in
theorem Faithful.question_ok (hs : site.Faithful I index) {σ τ : Search W F}
    {asked : Question F × Option Nat} (h : (site.question build request).after σ = (.ok asked, τ))
    (hw : I σ.world) :
    request.question? index = some asked.1 ∧ I τ.world ∧ τ.cache = σ.cache ∧ τ.processed = σ.processed := by
  cases request with
  | focus seeds direction =>
    cases h
    exact ⟨rfl, hw, rfl, rfl⟩
  | scope part limited =>
    obtain ⟨functions, ρ, hfunctions, hpure⟩ := after_bind_ok.mp h
    cases hpure
    rw [scopeFunctions, after_bind, after_observe] at hfunctions
    dsimp only at hfunctions
    have hw' := hs.functions part hw
    cases hanswer : ((site.functions part).run σ.world).1 with
    | ok found =>
      rw [hanswer] at hfunctions
      cases hfunctions
      exact ⟨by rw [BuildRequest.question?, hs.lists hw hanswer], hw', rfl, rfl⟩
    | error e =>
      rw [hanswer] at hfunctions
      dsimp only at hfunctions
      split at hfunctions
      · next hscope =>
        cases hfunctions
        refine ⟨?_, hs.emit _ hw', rfl, rfl⟩
        rw [BuildRequest.question?, hs.misses hw hanswer hscope]
        simp [hscope]
      · cases hfunctions

/-- What a build that succeeds has done: it pruned the cache, answered the question of its request, and
drew the answer. -/
theorem Faithful.run_ok (hs : site.Faithful I index) {σ τ : Search W F} {g : Graph F α}
    (h : (site.run settings build request).after σ = (.ok g, τ)) (hw : I σ.world) :
    ∃ project question total w r ρ ρ', index.functions .whole = .ok project ∧
      request.question? index = some question ∧ I w ∧ I ρ.world ∧
      ρ.cache = (σ.cache.prune project (site.versions.run w).1).2 ∧ ρ.processed = σ.processed ∧
      ((site.surroundings build total).answer question).after ρ = (.ok r, ρ') ∧ g.Shows r := by
  obtain ⟨_, σ₁, hcheck, h⟩ := after_bind_ok.mp h
  obtain ⟨hw₁, hc₁, hn₁⟩ := checkCancelled_ok hs.toKeeps hcheck hw
  obtain ⟨_, σ₂, hstarted, h⟩ := after_bind_ok.mp h
  cases hstarted
  obtain ⟨_, σ₃, hprune, h⟩ := after_bind_ok.mp h
  obtain ⟨project, σ₄, hproject, hpruned⟩ := after_bind_ok.mp hprune
  rw [guarded_ok_iff] at hproject
  obtain ⟨found, σ₅, hfind, h⟩ := after_bind_ok.mp h
  obtain ⟨asked, σ₆, hquestion, hfound⟩ := after_bind_ok.mp hfind
  rw [guarded_ok_iff] at hfound
  obtain ⟨g₀, σ₇, hassemble, h⟩ := after_bind_ok.mp h
  rw [guarded_ok_iff] at hassemble
  obtain ⟨_, σ₈, -, h⟩ := after_bind_ok.mp h
  obtain ⟨drawn, σ₉, harrange, h⟩ := after_bind_ok.mp h
  rw [arrange, guarded_ok_iff] at harrange
  obtain ⟨_, σ₁₀, -, hdrawn⟩ := after_bind_ok.mp h
  cases hdrawn
  -- the looks at the index and at the versions between which the cache is pruned
  let w₃ := ((site.emit (.started build)).run σ₁.world).2
  have hw₃ : I w₃ := hs.emit _ hw₁
  have hlists : index.functions .whole = .ok project := hs.lists hw₃ (congrArg Prod.fst hproject)
  have hw₄ : I σ₄.world := congrArg (fun out => out.2.world) hproject ▸ hs.functions .whole hw₃
  have hc₄ : σ₄.cache = σ.cache := (congrArg (fun out => out.2.cache) hproject).symm.trans hc₁
  have hn₄ : σ₄.processed = σ.processed := (congrArg (fun out => out.2.processed) hproject).symm.trans hn₁
  cases hpruned
  obtain ⟨hasked, hw₆, hc₆, hn₆⟩ := hs.question_ok hquestion (hs.versions hw₄)
  refine ⟨project, asked.1, asked.2, σ₄.world, found, σ₆, _, hlists, hasked, hw₄, hw₆, ?_, ?_, hfound, ?_⟩
  · rw [hc₆, ← hc₄]
    rfl
  · exact hn₆.trans hn₄
  · have hshows : g₀.Shows found := Graph.shows_of_assemble (congrArg Prod.fst hassemble)
    let service : LayoutService W α := ⟨site.cancelled, site.draw⟩
    have hlaid : ((service.arrange settings g₀).after σ₈.world).1 = .ok g := congrArg Prod.fst harrange
    rcases LayoutService.arrange_ok (Prod.ext hlaid rfl) with rfl | ⟨points, rfl⟩
    · exact hshows
    · exact hshows.applyLayout points

/-! ### Builds that nothing disturbs -/

/-- Nothing is cancelled, the index answers every question, and all nodes are drawn at one finite
point. -/
structure Calm (site : Site W F α) (I : W → Prop) (index : CallIndex F) (p : Point α) : Prop
    extends site.Keeps I where
  quiet {w : W} : I w → (site.cancelled.run w).1 = false
  lists {w : W} (scope : Scope) : I w → ((site.functions scope).run w).1 = index.functions scope
  tells {w : W} (coverage : Coverage) (f : F) : I w →
    ((site.ask coverage f).run w).1 = index.neighbours coverage f
  schedule (fs : List F) : (site.schedule fs).Perm fs
  population : index.population ≤ site.population
  draws {w : W} (request : LayoutRequest) : I w →
    ((site.draw request).run w).1 = .ok (.pinned p request)
  finite : p.isFinite = true

variable {p : Point α}

theorem Calm.surroundings (hs : site.Calm I index p) (build : Nat) (total : Option Nat) :
    (site.surroundings build total).Calm I index where
  toKeeps := hs.toKeeps.surroundings build total
  quiet := hs.quiet
  answers coverage f := hs.tells coverage f
  schedule := hs.schedule
  population := hs.population

theorem Calm.layout (hs : site.Calm I index p) : LayoutService.Calm ⟨site.cancelled, site.draw⟩ I p where
  toKeeps := hs.toKeeps.layout
  quiet _ := hs.quiet
  draws request _ := hs.draws request
  finite := hs.finite

theorem Calm.checkCancelled (hs : site.Calm I index p) (P : Cache F → Prop) :
    site.checkCancelled.Succeeds (Holding I P) fun _ => Holding I P := by
  intro σ hσ
  refine ⟨(), { σ with world := (site.cancelled.run σ.world).2 }, ?_, hs.cancelled hσ.1, hσ.2⟩
  rw [after_checkCancelled, hs.quiet hσ.1]
  rfl

theorem Calm.announce (hs : site.Calm I index p) (P : Cache F → Prop) (event : BuildEvent) :
    (observe (site.emit event)).Succeeds (Holding I P) fun _ => Holding I P :=
  fun _ hσ => ⟨(), _, rfl, hs.toKeeps.emit event hσ.1, hσ.2⟩

theorem Calm.prune (hs : site.Calm I index p) {project : Std.TreeSet F}
    (hproject : index.functions .whole = .ok project) {c : Cache F} :
    site.prune.Succeeds (Holding I (· = c)) fun _ =>
      Holding I fun c' => ∃ w, I w ∧ c' = (c.prune project (site.versions.run w).1).2 := by
  rintro σ ⟨hw, rfl⟩
  refine ⟨(), _, after_bind_ok.mpr ⟨project, _, guarded_ok_iff.mpr (Prod.ext ?_ rfl), rfl⟩, ?_⟩
  · exact (hs.lists .whole hw).trans hproject
  · exact ⟨hs.versions (hs.functions _ hw), _, hs.functions .whole hw, rfl⟩

/-- What was found is drawn. -/
theorem Calm.finish (hs : site.Calm I index p) (settings : LayoutSettings α) {r : Resolution F}
    (hends : ∀ k ∈ r.calls, k.caller ∈ r.functions ∧ k.callee ∈ r.functions) :
    (do
      let g ← guarded BuildError.contract (pure (assemble r))
      site.checkCancelled
      let drawn ← site.arrange settings g
      site.checkCancelled
      return drawn : Building W F (Graph F α)).Succeeds (Holding I fun _ => True) fun g σ =>
        I σ.world ∧ g.Shows r := by
  intro σ hσ
  obtain ⟨g, hg⟩ := Graph.exists_assemble (α := α) hends
  have hshows := Graph.shows_of_assemble hg
  have harrange : (site.arrange settings g).Succeeds (Holding I fun _ => True) fun g' =>
      Holding I fun _ => g'.Shows r := by
    intro σ hσ
    obtain ⟨g', w, hg', hw⟩ := hs.layout.arrange settings g σ.world hσ.1
    refine ⟨g', { σ with world := w }, guarded_ok_iff.mpr ?_, hw, ?_⟩
    · exact congrArg (fun out : Except LayoutError (Graph F α) × W =>
        (out.1, ({ σ with world := out.2 } : Search W F))) hg'
    · rcases LayoutService.arrange_ok hg' with rfl | ⟨points, rfl⟩
      · exact hshows
      · exact hshows.applyLayout points
  have hdraw : (do
      site.checkCancelled
      let drawn ← site.arrange settings g
      site.checkCancelled
      return drawn : Building W F (Graph F α)).Succeeds (Holding I fun _ => True) fun g σ =>
        I σ.world ∧ g.Shows r := by
    refine .bind (hs.checkCancelled _) fun _ => .bind harrange fun drawn => ?_
    exact .bind (hs.checkCancelled _) fun _ => .pure fun _ hσ => hσ
  obtain ⟨drawn, τ, hdrawn, hτ⟩ := hdraw σ hσ
  exact ⟨drawn, τ, after_bind_ok.mpr ⟨g, σ, guarded_ok_iff.mpr (Prod.ext hg rfl), hdrawn⟩, hτ⟩

/-- A build that nothing disturbs succeeds if its question is answered with calls between functions that
are found, and draws the answer. -/
theorem Calm.run (hs : site.Calm I index p) {project : Std.TreeSet F}
    (hproject : index.functions .whole = .ok project) {seeds : List F} {direction : Direction}
    {c : Cache F} {Q : Resolution F → Prop}
    (hfound : ∀ ρ w, I ρ.world → I w → ρ.cache = (c.prune project (site.versions.run w).1).2 →
      ∃ r τ, ((site.surroundings build none).answer (.closure seeds direction)).after ρ = (.ok r, τ) ∧
        (∀ k ∈ r.calls, k.caller ∈ r.functions ∧ k.callee ∈ r.functions) ∧ Q r) :
    (site.run settings build (.focus seeds direction)).Succeeds (Holding I (· = c)) fun g σ =>
      I σ.world ∧ ∃ r, Q r ∧ g.Shows r := by
  refine .bind (hs.checkCancelled _) fun _ => .bind (hs.announce _ _) fun _ => .bind (hs.prune hproject) fun _ => ?_
  rintro σ ⟨hw, w, hw', hc⟩
  obtain ⟨r, τ, hr, hends, hQ⟩ := hfound σ w hw hw' hc
  have hτ : I τ.world :=
    (Surroundings.answer_keeps (hs.toKeeps.surroundings build none) (P := fun _ => True)
      (fun _ _ _ _ => trivial) (fun _ _ _ _ _ _ _ => trivial) hr hw trivial).1
  have hfind : (site.find build (.focus seeds direction)).after σ = (.ok r, τ) :=
    after_bind_ok.mpr ⟨_, σ, rfl, guarded_ok_iff.mpr hr⟩
  obtain ⟨g, ρ, hg, hρ, hshows⟩ := hs.finish settings hends τ ⟨hτ, trivial⟩
  exact ⟨g, ρ, after_bind_ok.mpr ⟨r, τ, hfind, hg⟩, hρ, r, hQ, hshows⟩

end Site
end CallChart
