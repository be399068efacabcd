import CallChart.Proofs.BuilderSession
import CallChart.Proofs.CallList
import CallChart.Proofs.ProjectSearch

/-! Builds after the index was exchanged. The cache outlives the exchange and only knows the versions of
files, so a build shows the calls of the new index exactly if no set that the pruned cache still serves
differs from the new index's answer. -/
namespace CallChart

variable {X F α : Type} [Handle F] [Scalar α]

namespace BuildRequest

/-- The functions that a request names are those of a project. -/
def Within (project : Std.TreeSet F) : BuildRequest F → Prop
  | scope _ _ => True
  | focus seeds _ => ∀ f ∈ seeds, f ∈ project

/-- What an index answers to a request, asked with an empty cache. -/
def Resolves (request : BuildRequest F) (index : CallIndex F) (v : Versions) (r : Resolution F) : Prop :=
  ∃ question τ, request.question? index = some question ∧
    ((index.quiet v).answer question).after ⟨(), .empty, 0⟩ = (.ok r, τ)

theorem Within.functions {request : BuildRequest F} {project : Std.TreeSet F} {index : CallIndex F}
    {question : Question F} (h : request.Within project) (hp : index.Covers project)
    (hq : request.question? index = some question) : ∀ f ∈ question.functions, f ∈ project := by
  have hscope {limited : Bool} {found : Std.TreeSet F} (hfound : ∀ f ∈ found, f ∈ project) :
      ∀ f ∈ (Question.ofScope limited found).functions, f ∈ project := by
    intro f hf
    refine hfound f (Std.TreeSet.mem_of_mem_toList ?_)
    cases limited with
    | true => exact hf
    | false => exact hf
  cases request with
  | focus seeds direction =>
    obtain rfl := Option.some.inj hq
    exact h
  | scope part limited =>
    simp only [question?] at hq
    split at hq
    · next found hfound =>
      obtain rfl := Option.some.inj hq
      exact hscope fun f hf => hp.scopes hfound hf
    · split at hq
      · obtain rfl := Option.some.inj hq
        exact hscope fun f hf => absurd hf Std.TreeSet.not_mem_emptyc
      · cases hq

end BuildRequest

omit [Scalar α] in
/-- Two graphs of search results that found the same show the same. -/
theorem Graph.Shows.same {g : Graph F α} {r r' : Resolution F} (h : g.Shows r) (hsame : r.Same r') :
    g.Shows r' :=
  h.congr (fun f => (hsame.functions f).mp) (fun f hf => ⟨f, (hsame.functions f).mpr hf, rfl⟩)
    (fun k => (hsame.calls k).mp) fun k hk => ⟨k, (hsame.calls k).mpr hk, rfl⟩

/-- No two functions of a project share a node id. -/
def Handle.Identifies (project : Std.TreeSet F) : Prop :=
  ∀ f ∈ project, ∀ g ∈ project, nodeId f = nodeId g → compare f g = .eq

/-- It is enough to look at the functions that a project is made of. -/
theorem Handle.identifies_ofList {fs : List F}
    (h : ∀ f ∈ fs, ∀ g ∈ fs, nodeId f = nodeId g → compare f g = .eq) : Identifies (Std.TreeSet.ofList fs) := by
  intro f hf g hg hid
  obtain ⟨f', hf', hff'⟩ := mem_ofList_iff.mp hf
  obtain ⟨g', hg', hgg'⟩ := mem_ofList_iff.mp hg
  have hid' : nodeId f' = nodeId g' := (nodeId_congr hff').trans (hid.trans (nodeId_congr hgg').symm)
  exact compare_trans (compare_symm hff') (compare_trans (h f' hf' g' hg' hid') hgg')

omit [Scalar α] in
/-- If functions are told apart by their node ids, a graph tells which calls were found. -/
theorem Graph.Shows.mem_calls_iff {project : Std.TreeSet F} {g : Graph F α} {r r' : Resolution F}
    (h : g.Shows r) (h' : g.Shows r') (hids : Handle.Identifies project)
    (hr : ∀ k ∈ r.calls, k.caller ∈ project ∧ k.callee ∈ project)
    (hr' : ∀ k ∈ r'.calls, k.caller ∈ project ∧ k.callee ∈ project) (k : Call F) :
    k ∈ r.calls ↔ k ∈ r'.calls := by
  have hsub {r r' : Resolution F} (h : g.Shows r) (h' : g.Shows r')
      (hr : ∀ k ∈ r.calls, k.caller ∈ project ∧ k.callee ∈ project)
      (hr' : ∀ k ∈ r'.calls, k.caller ∈ project ∧ k.callee ∈ project) (hk : k ∈ r.calls) : k ∈ r'.calls := by
    obtain ⟨k', hk', hedge⟩ := (h'.edges _).mp ((h.edges _).mpr ⟨k, hk, rfl⟩)
    have hcaller := hids _ (hr' k' hk').1 _ (hr k hk).1 (congrArg Edge.source hedge)
    have hcallee := hids _ (hr' k' hk').2 _ (hr k hk).2 (congrArg Edge.target hedge)
    exact (Std.TreeSet.mem_congr (Coverage.callees.compare_iff.mpr ⟨hcaller, hcallee⟩)).mp hk'
  exact ⟨hsub h h' hr hr', hsub h' h hr' hr⟩

namespace Builder

variable {b : Builder X F α} {index : CallIndex F} {project : Std.TreeSet F}

/-- The cache as the next build will prune it. -/
def pruned (b : Builder X F α) (project : Std.TreeSet F) : Cache F :=
  (b.cache.prune project b.floor.versions.now).2

/-- A build takes effect of its index if the pruned cache has nothing else to say. -/
theorem shows_resolution (hc : index.Coherent) (hp : index.Covers project)
    (hagrees : (b.pruned project).Agrees index) {J : X → Prop} (hs : b.services.Tells J index)
    (hJ : J b.floor.outside) {request : BuildRequest F} (hr : request.Within project) {g : Graph F α}
    (h : ((build request).run b).1 = .ok g) :
    ∃ r, request.Resolves index b.floor.versions.now r ∧ g.Shows r := by
  have hsite := hs.site (register.run b).1 b.floor.versions
  obtain ⟨project', question, total, floor, r, ρ, ρ', hwhole, hq, hfloor, hρ, hcache, hcount, hanswer, hshows⟩ :=
    hsite.run_ok (Prod.ext (build_ok h) rfl) ⟨rfl, hJ⟩
  obtain rfl := Except.ok.inj (hwhole.symm.trans hp.whole)
  have hversions : ((b.services.site (register.run b).1).versions.run floor).1 = b.floor.versions.now :=
    congrArg FileVersions.now (hsite.versions hfloor).1
  have hknown : ∀ f ∈ question.functions, index.Knows f := fun f hf => hp.knows (hr.functions hp hq f hf)
  rw [hversions] at hcache
  obtain ⟨r', τ, hfresh, hsame⟩ := Surroundings.Resolves.inTurn.exists_fresh (hsite.surroundings _ total)
    (V := fun _ => True) (fun _ _ => trivial) (Cache.Agrees.trust hc _) hρ (hcache ▸ hagrees) hanswer hc hknown
    (index.calm_quiet b.floor.versions.now) .inTurn (show True from trivial)
  rw [hcount] at hfresh
  exact ⟨r', ⟨question, τ, hq, hfresh⟩, hshows.same hsame⟩

/-- A build of the whole project that nothing disturbs succeeds and shows the sets that the pruned cache
serves. -/
theorem exists_build_of_served (hb : b.Sound) (hp : index.Covers project) {p : Point α}
    (hfinite : p.isFinite = true)
    (hservices : b.services = .answering index fun request => .ok (.pinned p request))
    {coverage : Coverage} {f : F} (hf : f ∈ project) {known : List F}
    (hserved : (b.pruned project).freshNeighbours? coverage f b.floor.versions.now = some known) :
    ∃ g r, ((build (.focus project.toList coverage.direction)).run b).1 = .ok g ∧ g.Shows r ∧
      (∀ k ∈ r.calls, k.caller ∈ project ∧ k.callee ∈ project) ∧
      ∀ f', coverage.call f f' ∈ r.calls ↔ Listed known f' := by
  let ticket := b.floor.desk.register.1
  let I (floor : Floor X F α) : Prop := floor.desk = b.floor.desk.register.2 ∧ floor.versions = b.floor.versions
  let Q (r : Resolution F) : Prop := (∀ k ∈ r.calls, k.caller ∈ project ∧ k.callee ∈ project) ∧
    ∀ f', coverage.call f f' ∈ r.calls ↔ Listed known f'
  have hcalm : (b.services.site ticket).Calm I index p :=
    hservices ▸ Services.calm_answering index hfinite hb.desk.not_cancelled b.floor.versions
  have hv (floor : Floor X F α) (hfloor : I floor) :
      ((b.services.site ticket).versions.run floor).1 = b.floor.versions.now :=
    congrArg FileVersions.now (hcalm.versions hfloor).2
  have hrun : ((b.services.site ticket).run b.settings ticket.build
      (.focus project.toList coverage.direction)).Succeeds (Site.Holding I (· = b.cache))
        fun g σ => I σ.world ∧ ∃ r, Q r ∧ g.Shows r := by
    refine hcalm.run hp.whole fun ρ floor hρ hfloor hcache => ?_
    rw [hv floor hfloor] at hcache
    have hserved' : ρ.cache.freshNeighbours? coverage f b.floor.versions.now = some known := by
      rw [hcache]
      exact hserved
    obtain ⟨r, τ, hr, hfunctions, hcalls, hexact⟩ := Surroundings.answer_project
      (hcalm.surroundings _ none) hv hp hb.cache hρ hcache hf hserved'
    refine ⟨r, τ, hr, fun k hk => ?_, hcalls, hexact⟩
    exact ⟨(hfunctions _).mpr (hcalls k hk).1, (hfunctions _).mpr (hcalls k hk).2⟩
  obtain ⟨g, τ, hresult, hτ, r, ⟨hcalls, hexact⟩, hshows⟩ := hrun ⟨(register.run b).2.floor, b.cache, 0⟩ ⟨⟨rfl, rfl⟩, rfl⟩
  exact ⟨g, r, hb.build_published hresult hτ.1, hshows, hcalls, hexact⟩

/-- Once services are exchanged for some that tell what an index tells, builds that succeed show what this
index answers. -/
def Effective (b : Builder X F α) (index : CallIndex F) (project : Std.TreeSet F) : Prop :=
  ∀ (services : Services X F α) (J : X → Prop), services.Tells J index → J b.floor.outside →
    ∀ request : BuildRequest F, request.Within project → ∀ g : Graph F α,
      ((do setServices services; build request : StateM (Builder X F α) (Except BuildError (Graph F α))).run b).1
        = .ok g →
      ∃ r, request.Resolves index b.floor.versions.now r ∧ g.Shows r

/-- A set that the pruned cache serves is right if builds show it as the index has it. -/
theorem Effective.isAnswer (heffective : b.Effective index project) (hb : b.Sound) (hc : index.Coherent)
    (hp : index.Covers project) (hids : Handle.Identifies project) {p : Point α} (hfinite : p.isFinite = true)
    {coverage : Coverage} {f : F} {known : List F}
    (hserved : (b.pruned project).freshNeighbours? coverage f b.floor.versions.now = some known) :
    index.IsAnswer coverage f known := by
  obtain ⟨-, htoken, -⟩ := Cache.freshNeighbours?_eq_some.mp hserved
  obtain ⟨-, hf, -⟩ := Cache.token?_prune.mp htoken
  let services : Services X F α := .answering index fun request => .ok (.pinned p request)
  have hexchanged : { b with services := services }.Sound := ⟨hb.desk, hb.cache⟩
  obtain ⟨g, r, hbuild, hshows, hinside, hexact⟩ :=
    exists_build_of_served hexchanged hp hfinite rfl hf hserved
  have hwithin : (BuildRequest.focus project.toList coverage.direction).Within project :=
    fun _ hf => Std.TreeSet.mem_of_mem_toList hf
  obtain ⟨r', ⟨question, τ, hquestion, hfresh⟩, hshows'⟩ :=
    heffective services (fun _ => True) (Services.tells_answering index _) trivial _ hwithin g hbuild
  obtain rfl := Option.some.inj hquestion
  have hcalls := Surroundings.calls_of_answer_project (index.calm_quiet _).faithful hc hp hfresh trivial
  have hinside' (k : Call F) (hk : k ∈ r'.calls) : k.caller ∈ project ∧ k.callee ∈ project :=
    hp.ends ((hcalls k).mp hk).1 ((hcalls k).mp hk).2
  intro g'
  rw [← hexact g', hshows.mem_calls_iff hshows' hids hinside hinside', hcalls, Coverage.near_call,
    Coverage.far_call, and_iff_right hf]

/-- An exchange of the index takes effect exactly if nothing that the cache still serves differs from what
the new index answers. -/
theorem effective_iff_served (hb : b.Reachable) (hc : index.Coherent) (hp : index.Covers project)
    (hids : Handle.Identifies project) {p : Point α} (hfinite : p.isFinite = true) :
    b.Effective index project ↔
      ∀ coverage f known, (b.pruned project).freshNeighbours? coverage f b.floor.versions.now = some known →
        index.IsAnswer coverage f known := by
  constructor
  · intro heffective coverage f known hserved
    exact heffective.isAnswer hb.sound hc hp hids hfinite hserved
  · intro hserved services J hs hJ request hwithin g h
    have hagrees : (b.pruned project).Agrees index := hb.sound.cache.agrees_iff.mpr hserved
    exact shows_resolution (b := { b with services := services }) hc hp hagrees hs hJ hwithin h

/-- Services that answer from a list of calls. -/
def listing (calls : List (Call F)) (p : Point α) : Services X F α :=
  .answering (.ofCalls calls) fun request => .ok (.pinned p request)

/-- A call is turned round while no file's version moves. The next build shows nothing of it. -/
theorem turned_call_ignored :
    let main := SourceFunction.named "main"
    let run := SourceFunction.named "run"
    let project := Std.TreeSet.ofList [main, run]
    let request : BuildRequest SourceFunction := .focus [main] .downstream
    let b : Builder Unit SourceFunction Rat :=
      ((build request).run (.start (listing [⟨run, main⟩] ⟨0, 0⟩) .standard (.start none) ())).2
    let index : CallIndex SourceFunction := .ofCalls [⟨main, run⟩]
    b.Reachable ∧ index.Coherent ∧ index.Covers project ∧ request.Within project ∧
      ∃ g, ((do setServices (listing [⟨main, run⟩] ⟨0, 0⟩); build request :
          StateM (Builder Unit SourceFunction Rat) (Except BuildError (Graph SourceFunction Rat))).run b).1 = .ok g ∧
        ∀ r, request.Resolves index b.floor.versions.now r → ¬ g.Shows r := by
  intro main run project request b index
  have hreachable : b.Reachable := (Reachable.start _ _ _ _).build request
  have hwithin : request.Within project := by
    intro f hf
    obtain rfl := List.mem_singleton.mp hf
    decide +kernel
  refine ⟨hreachable, CallIndex.coherent_ofCalls _, CallIndex.covers_ofCalls _, hwithin, ?_⟩
  obtain ⟨result, hresult⟩ : ∃ result, ((do setServices (listing [⟨main, run⟩] ⟨0, 0⟩); build request :
      StateM (Builder Unit SourceFunction Rat) (Except BuildError (Graph SourceFunction Rat))).run b).1 = result :=
    ⟨_, rfl⟩
  have hedges : result.toOption.map Graph.edges = some #[] := by
    rw [← hresult]
    decide +kernel
  cases result with
  | error e => cases hedges
  | ok g =>
    refine ⟨g, hresult, ?_⟩
    rintro r ⟨question, τ, hquestion, hfresh⟩ hshows
    obtain rfl := Option.some.inj hquestion
    have hfound : (((index.quiet b.floor.versions.now).answer (.closure [main] .downstream)).after
        ⟨(), .empty, 0⟩).1.toOption.map (fun r => r.calls.contains ⟨main, run⟩) = some true := by
      decide +kernel
    rw [hfresh] at hfound
    have hedge := (hshows.edges _).mpr ⟨⟨main, run⟩, Std.TreeSet.mem_iff_contains.mpr (Option.some.inj hfound), rfl⟩
    rw [Option.some.inj hedges] at hedge
    exact Array.not_mem_empty _ hedge

/-- What the cache serves about the turned call keeps the exchange from taking effect. -/
theorem turned_call_not_effective :
    let main := SourceFunction.named "main"
    let run := SourceFunction.named "run"
    let b : Builder Unit SourceFunction Rat :=
      ((build (.focus [main] .downstream)).run
        (.start (listing [⟨run, main⟩] ⟨0, 0⟩) .standard (.start none) ())).2
    ¬ b.Effective (.ofCalls [⟨main, run⟩]) (Std.TreeSet.ofList [main, run]) := by
  intro main run b heffective
  have hb : b.Reachable := (Reachable.start _ _ _ _).build _
  have hids : Handle.Identifies (Std.TreeSet.ofList [main, run]) :=
    Handle.identifies_ofList (by decide +kernel)
  have hp : (CallIndex.ofCalls [⟨main, run⟩]).Covers (Std.TreeSet.ofList [main, run]) := CallIndex.covers_ofCalls _
  have hright := (effective_iff_served hb (CallIndex.coherent_ofCalls _) hp hids (p := ⟨0, 0⟩) rfl).mp heffective
  obtain ⟨known, hknown, hlength⟩ : ∃ known, (b.pruned (Std.TreeSet.ofList [main, run])).freshNeighbours? .callees
      main b.floor.versions.now = some known ∧ known.length = 0 := by
    refine Option.map_eq_some_iff.mp (?_ : Option.map List.length _ = some 0)
    decide +kernel
  obtain rfl := List.eq_nil_of_length_eq_zero hlength
  have hcall := (hright .callees main [] hknown run).mpr (CallIndex.names_ofCalls.mpr (.of_mem List.mem_cons_self))
  exact Listed.nil run hcall

end Builder
end CallChart
