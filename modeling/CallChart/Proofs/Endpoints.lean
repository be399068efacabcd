import CallChart.Build.Builder
import CallChart.Proofs.AtOnce
import CallChart.Proofs.Builds
import CallChart.Proofs.CallList

/-! Both ends of every call that a search finds are among the functions it finds, whatever the index tells and
whatever the cache remembers. So a graph can be made of every search result, with one node for each function
and one edge for each call. -/
namespace CallChart

variable {W F α β : Type} [Handle F]

namespace Resolution

/-- Certain functions were found, and with every call both of its ends. -/
structure Grounded (start : List F) (r : Resolution F) : Prop where
  starts : ∀ f ∈ start, f ∈ r.functions
  ends : ∀ k ∈ r.calls, k.caller ∈ r.functions ∧ k.callee ∈ r.functions

variable {start : List F} {r : Resolution F}

theorem Grounded.listed (hr : r.Grounded start) {f : F} (hf : Listed start f) : f ∈ r.functions := by
  obtain ⟨g, hg, hgf⟩ := hf
  exact (Std.TreeSet.mem_congr hgf).mp (hr.starts g hg)

/-- Answers about functions that were found add calls between functions that are found then. -/
theorem Grounded.addAnswers (hr : r.Grounded start) {coverage : Coverage} {answers : Answers F}
    (ha : ∀ answer ∈ answers, answer.1 ∈ r.functions) : (r.addAnswers coverage answers).Grounded start := by
  have hold {f : F} (hf : f ∈ r.functions) : f ∈ (r.addAnswers coverage answers).functions :=
    mem_functions_addAnswers.mpr (.inl hf)
  refine ⟨fun f hf => hold (hr.starts f hf), fun k hk => ?_⟩
  rcases mem_calls_addAnswers.mp hk with hk | ⟨answer, hanswer, hnear, hfar⟩
  · exact ⟨hold (hr.ends k hk).1, hold (hr.ends k hk).2⟩
  · have hasked : coverage.near k ∈ (r.addAnswers coverage answers).functions :=
      hold ((Std.TreeSet.mem_congr hnear).mp (ha answer hanswer))
    have hnamed : coverage.far k ∈ (r.addAnswers coverage answers).functions :=
      mem_functions_addAnswers.mpr (.inr ⟨answer, hanswer, hfar⟩)
    cases coverage with
    | callers => exact ⟨hnamed, hasked⟩
    | callees => exact ⟨hasked, hnamed⟩

theorem Grounded.addInner (hr : r.Grounded start) {coverage : Coverage} {answers : Answers F}
    (ha : ∀ answer ∈ answers, answer.1 ∈ r.functions) : (r.addInner coverage answers).Grounded start := by
  refine hr.addAnswers fun inner hinner => ?_
  obtain ⟨answer, hanswer, rfl⟩ := List.mem_map.mp hinner
  exact ha answer hanswer

end Resolution

namespace Inquiry

/-- Whatever is answered about the functions of each round, what an inquiry comes to has a property. -/
def Ensures (Q : α → Prop) : Inquiry F α → Prop
  | done a => Q a
  | unbounded => True
  | ask _ _ round next =>
    ∀ answers : Answers F, (answers.map Prod.fst).Perm round → (next answers).Ensures Q

omit [Handle F] in
theorem Ensures.bind {P : α → Prop} {Q : β → Prop} {q : Inquiry F α} {more : α → Inquiry F β}
    (hq : q.Ensures P) (hmore : ∀ a, P a → (more a).Ensures Q) : (q.bind more).Ensures Q := by
  induction q with
  | done a => exact hmore a hq
  | unbounded => trivial
  | ask coverage counted round next ih => exact fun answers ha => ih answers (hq answers ha)

omit [Handle F] in
theorem forall_of_perm {P : F → Prop} {round : List F} (hround : ∀ f ∈ round, P f) {answers : Answers F}
    (ha : (answers.map Prod.fst).Perm round) : ∀ answer ∈ answers, P answer.1 :=
  fun _ hanswer => hround _ (ha.mem_iff.mp (List.mem_map_of_mem hanswer))

variable {start : List F}

/-- Only functions that were found are asked about, so the functions stay ahead of the calls. -/
theorem ensures_close (coverage : Coverage) (rounds : Nat) {seen : Std.TreeSet F} {frontier : List F}
    {found : Resolution F} (hfrontier : ∀ f ∈ frontier, f ∈ found.functions) (hfound : found.Grounded start) :
    (close coverage rounds seen frontier found).Ensures (Resolution.Grounded start) := by
  induction rounds generalizing seen frontier found with
  | zero =>
    cases frontier with
    | nil => exact hfound
    | cons f rest => trivial
  | succ rounds ih =>
    cases frontier with
    | nil => exact hfound
    | cons f rest =>
      intro answers ha
      refine ih (fun g hg => ?_) (hfound.addAnswers (forall_of_perm hfrontier ha))
      have hnamed := (Wave.mem_nextRound.mp (Std.TreeSet.mem_of_mem_toList hg)).1
      exact Resolution.mem_functions_addAnswers.mpr (.inr hnamed)

theorem ensures_closeAll (rounds : Nat) (seeds : List F) (coverages : List Coverage) {found : Resolution F}
    (hfound : found.Grounded seeds) :
    (closeAll rounds seeds coverages found).Ensures (Resolution.Grounded seeds) := by
  induction coverages generalizing found with
  | nil => exact hfound
  | cons coverage rest ih =>
    refine (ensures_close coverage rounds (fun f hf => ?_) hfound).bind fun _ hnext => ih hnext
    exact hfound.listed (mem_gather_iff.mp (Std.TreeSet.mem_of_mem_toList hf))

end Inquiry

theorem Question.ensures_inquiry (question : Question F) (rounds : Nat) :
    (question.inquiry rounds).Ensures (Resolution.Grounded question.functions) := by
  have hscope (scope : Std.TreeSet F) : ∀ f ∈ scope.toList, f ∈ scope := fun _ => Std.TreeSet.mem_of_mem_toList
  have hstart (scope : Std.TreeSet F) : Resolution.Grounded scope.toList ⟨scope, ∅, 0⟩ :=
    ⟨hscope scope, fun _ hk => absurd hk Std.TreeSet.not_mem_emptyc⟩
  cases question with
  | closure seeds direction =>
    refine Inquiry.ensures_closeAll rounds seeds _ ⟨fun f hf => ?_, fun _ hk => ?_⟩
    · exact mem_ofList_iff.mpr (.of_mem hf)
    · exact absurd hk Std.TreeSet.not_mem_emptyc
  | within scope => exact fun calling ha => (hstart scope).addInner (Inquiry.forall_of_perm (hscope scope) ha)
  | adjacent scope =>
    intro called hcalled calling hcalling
    refine ((hstart scope).addAnswers (Inquiry.forall_of_perm (hscope scope) hcalled)).addAnswers ?_
    refine Inquiry.forall_of_perm (fun f hf => ?_) hcalling
    exact Resolution.mem_functions_addAnswers.mpr (.inl (hscope scope f hf))

namespace Surroundings

open ExceptT

variable {s : Surroundings W F} {asking : Asking W F} {σ τ : Search W F}

/-- A round that succeeds has one answer about each of its functions. -/
theorem AtOnce.round (ha : s.AtOnce asking) (hs : ∀ fs, (s.schedule fs).Perm fs) {coverage : Coverage}
    {counted : Bool} {round : List F} {answers : Answers F}
    (h : (s.answerRoundBy asking coverage counted round).after σ = (.ok answers, τ)) :
    (answers.map Prod.fst).Perm round := by
  obtain ⟨_, ρ, -, hround⟩ := after_bind_ok.mp h
  obtain ⟨_, _, hconsult, hrest⟩ := after_bind_ok.mp hround
  cases hconsult
  obtain ⟨learned, _, hlearned, hcommit⟩ := after_bind_ok.mp hrest
  cases hcommit
  have hconsulted := consulted s.keeps_true coverage counted round (σ := ρ) trivial
  rw [List.map_append, ha.functions hlearned]
  exact ((hs _).append_left _).trans hconsulted.functions

theorem AtOnce.ensures (ha : s.AtOnce asking) (hs : ∀ fs, (s.schedule fs).Perm fs) {Q : α → Prop}
    {q : Inquiry F α} (hq : q.Ensures Q) {a : α} (h : (s.pursueBy asking q).after σ = (.ok a, τ)) : Q a := by
  induction q generalizing σ with
  | done b =>
    cases h
    exact hq
  | unbounded => cases h
  | ask coverage counted round next ih =>
    obtain ⟨answers, ρ, hround, hrest⟩ := after_bind_ok.mp h
    exact ih answers (hq answers (ha.round hs hround)) hrest

theorem AtOnce.grounded (ha : s.AtOnce asking) (hs : ∀ fs, (s.schedule fs).Perm fs) {question : Question F}
    {r : Resolution F} (h : (s.answerBy asking question).after σ = (.ok r, τ)) : r.Grounded question.functions := by
  rw [after_answerBy] at h
  rcases hpursue : (s.pursueBy asking (question.inquiry (s.limit question σ))).after σ with ⟨e | found, ρ⟩
  · rw [hpursue] at h
    cases h
  · rw [hpursue] at h
    cases h
    have hgrounded := ha.ensures hs (question.ensures_inquiry _) hpursue
    exact ⟨hgrounded.starts, hgrounded.ends⟩

theorem Resolves.grounded {question : Question F} {step : Searching W F (Resolution F)}
    (hstep : s.Resolves question step) (hs : ∀ fs, (s.schedule fs).Perm fs) {r : Resolution F}
    (h : step.after σ = (.ok r, τ)) : r.Grounded question.functions := by
  cases hstep with
  | inTurn =>
    rw [← answerBy_inTurn] at h
    exact s.atOnce_inTurn.grounded hs h
  | atOnce ha => exact ha.grounded hs h

end Surroundings

namespace Graph

/-- Exactly one node for each function found and exactly one edge for each call found, in their order. -/
structure Charts (g : Graph F α) [Scalar α] (r : Resolution F) : Prop where
  nodes : g.nodes.toList = r.functions.toList.map freshNode
  edges : g.edges.toList = r.calls.toList.map Call.edge
  distinctNodes : (g.nodes.toList.map Node.id).Nodup
  distinctEdges : (g.edges.toList.map Edge.id).Nodup

variable {g : Graph F α} {r : Resolution F}

theorem edges_addCalls {ks : List (Call F)} {g' : Graph F α} (hnew : ∀ k ∈ ks, k.edge.id ∉ g.edgeIndex)
    (hd : (ks.map fun k => k.edge.id).Nodup) (h : g.addCalls ks = .ok g') :
    g'.edges.toList = g.edges.toList ++ ks.map Call.edge := by
  induction ks generalizing g with
  | nil =>
    cases h
    exact (List.append_nil _).symm
  | cons k rest ih =>
    obtain ⟨hk, hrest⟩ := List.forall_mem_cons.mp hnew
    rw [List.map_cons, List.nodup_cons] at hd
    rw [addCalls, List.foldlM_cons] at h
    cases hfirst : (g.addEdge k.caller k.callee).map Prod.fst with
    | error e =>
      rw [hfirst] at h
      cases h
    | ok next =>
      rw [hfirst] at h
      obtain ⟨-, rfl⟩ := addEdge_ok_iff.mp hfirst
      have hpush : g.pushEdge k.edge = { g with
          edges := g.edges.push k.edge
          edgeIndex := g.edgeIndex.insert k.edge.id g.edges.size
          knownComponents := none } := if_neg hk
      have hlater : ∀ j ∈ rest, j.edge.id ∉ (g.pushEdge k.edge).edgeIndex := by
        intro j hj hmem
        rw [hpush, Std.TreeMap.mem_insert, Std.LawfulEqCmp.compare_eq_iff_eq] at hmem
        rcases hmem with heq | hmem
        · exact hd.1 (heq ▸ List.mem_map_of_mem hj)
        · exact hrest j hj hmem
      rw [ih hlater hd.2 h, hpush]
      simp

variable [Scalar α]

theorem nodes_foldl_addNode (fs : List F) (hnew : ∀ f ∈ fs, Handle.nodeId f ∉ g.nodeIndex)
    (hd : (fs.map Handle.nodeId).Nodup) :
    (fs.foldl addNode g).nodes.toList = g.nodes.toList ++ fs.map freshNode ∧
      (fs.foldl addNode g).edges = g.edges ∧ (fs.foldl addNode g).edgeIndex = g.edgeIndex := by
  induction fs generalizing g with
  | nil => exact ⟨(List.append_nil _).symm, rfl, rfl⟩
  | cons f rest ih =>
    obtain ⟨hf, hrest⟩ := List.forall_mem_cons.mp hnew
    rw [List.map_cons, List.nodup_cons] at hd
    have hpush : g.addNode f = { g with
        nodes := g.nodes.push (freshNode f)
        nodeIndex := g.nodeIndex.insert (Handle.nodeId f) g.nodes.size
        knownComponents := none } := if_neg hf
    have hlater : ∀ j ∈ rest, Handle.nodeId j ∉ (g.addNode f).nodeIndex := by
      intro j hj hmem
      rw [hpush, Std.TreeMap.mem_insert, Std.LawfulEqCmp.compare_eq_iff_eq] at hmem
      rcases hmem with heq | hmem
      · exact hd.1 (heq ▸ List.mem_map_of_mem hj)
      · exact hrest j hj hmem
    obtain ⟨hnodes, hedges, hindex⟩ := ih hlater hd.2
    rw [List.foldl_cons, hnodes, hedges, hindex, hpush]
    simp

/-- If no two functions found have one node id, an assembled graph has a node for each of them and an edge for
each call. -/
theorem charts_of_assemble (hr : ∀ k ∈ r.calls, k.caller ∈ r.functions ∧ k.callee ∈ r.functions)
    (hinj : ∀ f ∈ r.functions, ∀ f' ∈ r.functions, Handle.nodeId f = Handle.nodeId f' → compare f f' = .eq)
    (h : assemble r = .ok g) : g.Charts r := by
  have hfunctions : (r.functions.toList.map Handle.nodeId).Nodup := by
    refine List.pairwise_map.mpr (Std.TreeSet.distinct_toList.imp_of_mem fun {f f'} hf hf' hne heq => hne ?_)
    exact hinj f (Std.TreeSet.mem_of_mem_toList hf) f' (Std.TreeSet.mem_of_mem_toList hf') heq
  have hcalls : (r.calls.toList.map fun k => k.edge.id).Nodup := by
    refine List.pairwise_map.mpr (Std.TreeSet.distinct_toList.imp_of_mem fun {k k'} hk hk' hne heq => hne ?_)
    obtain ⟨hcaller, hcallee⟩ := hr k (Std.TreeSet.mem_of_mem_toList hk)
    obtain ⟨hcaller', hcallee'⟩ := hr k' (Std.TreeSet.mem_of_mem_toList hk')
    have hends : compare k.caller k'.caller = .eq ∧ compare k.callee k'.callee = .eq :=
      ⟨hinj _ hcaller _ hcaller' (congrArg EdgeId.source heq), hinj _ hcallee _ hcallee' (congrArg EdgeId.target heq)⟩
    exact (Coverage.callees.compare_iff (j := k) (k := k')).mpr hends
  obtain ⟨hnodes, hedges, hindex⟩ :=
    nodes_foldl_addNode (g := (empty : Graph F α)) r.functions.toList (fun _ _ => Std.TreeMap.not_mem_emptyc) hfunctions
  have hfree : ∀ k ∈ r.calls.toList,
      k.edge.id ∉ (r.functions.toList.foldl addNode (empty : Graph F α)).edgeIndex := by
    intro k _
    rw [hindex]
    exact Std.TreeMap.not_mem_emptyc
  have hnodes' : g.nodes.toList = r.functions.toList.map freshNode := by
    rw [nodes_addCalls h]
    exact hnodes
  have hedges' : g.edges.toList = r.calls.toList.map Call.edge := by
    rw [edges_addCalls hfree hcalls h, hedges]
    rfl
  refine ⟨hnodes', hedges', ?_, ?_⟩
  · rw [hnodes', List.map_map]
    exact hfunctions
  · rw [hedges', List.map_map]
    exact hcalls

end Graph

namespace Site

open ExceptT

variable {site : Site W F α}

/-- A step that never fails for want of an end of a call. -/
def Unbroken (step : Building W F β) : Prop := ∀ σ e τ, step.after σ ≠ (.error (.contract e), τ)

theorem Unbroken.bind {γ : Type} {step : Building W F β} {more : β → Building W F γ} (hstep : Unbroken step)
    (hmore : ∀ b σ τ, step.after σ = (.ok b, τ) → Unbroken (more b)) : Unbroken (step >>= more) := by
  intro σ e τ h
  rcases after_bind_error.mp h with hfirst | ⟨b, ρ, hfirst, hrest⟩
  · exact hstep σ e τ hfirst
  · exact hmore b σ ρ hfirst ρ e τ hrest

theorem unbroken_pure (b : β) : Unbroken (pure b : Building W F β) := by
  intro σ e τ h
  cases h

theorem unbroken_observe (view : StateM W β) : Unbroken (F := F) (observe view) := by
  intro σ e τ h
  cases h

theorem unbroken_guarded {ε : Type} {cause : ε → BuildError} (hcause : ∀ e c, cause e ≠ .contract c)
    (step : StateM (Search W F) (Except ε β)) : Unbroken (guarded cause step) := by
  intro σ e τ h
  rw [after_guarded] at h
  cases hstep : (step.run σ).1 with
  | ok b =>
    rw [hstep] at h
    have hfirst : (Except.ok b : Except BuildError β) = .error (.contract e) := congrArg Prod.fst h
    cases hfirst
  | error failure =>
    rw [hstep] at h
    have hfirst : (Except.error (cause failure) : Except BuildError β) = .error (.contract e) := congrArg Prod.fst h
    exact hcause failure e (Except.error.inj hfirst)

theorem ofResolve_ne_contract (e : ResolveError) (c : GraphError) : BuildError.ofResolve e ≠ .contract c := by
  unfold BuildError.ofResolve
  split <;> nofun

theorem ofLayout_ne_contract (e : LayoutError) (c : GraphError) : BuildError.ofLayout e ≠ .contract c := by
  cases e <;> nofun

theorem unbroken_checkCancelled (site : Site W F α) : Unbroken site.checkCancelled := by
  intro σ e τ h
  rw [after_checkCancelled] at h
  split at h <;> cases h

theorem unbroken_question (site : Site W F α) (build : Nat) (request : BuildRequest F) :
    Unbroken (site.question build request) := by
  cases request with
  | focus seeds direction => exact unbroken_pure _
  | scope scope limited =>
    refine .bind (.bind (unbroken_observe _) fun answer _ _ _ => ?_) fun _ _ _ _ => unbroken_pure _
    cases answer with
    | ok functions => exact unbroken_pure _
    | error error =>
      dsimp only
      split
      · exact .bind (unbroken_observe _) fun _ _ _ _ => unbroken_pure _
      · intro σ e τ h
        exact ofResolve_ne_contract (.index error) e (Except.error.inj (congrArg Prod.fst h))

theorem unbroken_opening (site : Site W F α) (build : Nat) : Unbroken (site.opening build) := by
  have hprune : Unbroken site.prune := by
    refine .bind (unbroken_guarded (fun _ => ofResolve_ne_contract _) _) fun project _ _ _ σ e τ h => ?_
    cases h
  exact .bind site.unbroken_checkCancelled fun _ _ _ _ => .bind (unbroken_observe _) fun _ _ _ _ => hprune

theorem unbroken_findBy (site : Site W F α) (asking : Option Nat → Asking W F) (build : Nat)
    (request : BuildRequest F) : Unbroken (site.findBy asking build request) :=
  .bind (site.unbroken_question build request) fun _ _ _ _ => unbroken_guarded ofResolve_ne_contract _

variable [Scalar α]

/-- What was found can be drawn if both ends of all calls were found. -/
theorem unbroken_finish (site : Site W F α) (layout : Graph F α → StateM W (Except LayoutError (Graph F α)))
    {start : List F} {found : Resolution F} (h : found.Grounded start) : Unbroken (site.finish layout found) := by
  obtain ⟨g, hg⟩ := Graph.exists_assemble (α := α) h.ends
  have hassemble : Unbroken (W := W) (F := F)
      (guarded BuildError.contract (pure (assemble found : Except GraphError (Graph F α)))) := by
    intro σ e τ hfailed
    rw [hg] at hfailed
    cases hfailed
  refine .bind hassemble fun _ _ _ _ => .bind site.unbroken_checkCancelled fun _ _ _ _ => ?_
  refine .bind (unbroken_guarded ofLayout_ne_contract _) fun _ _ _ _ => ?_
  exact .bind site.unbroken_checkCancelled fun _ _ _ _ => unbroken_pure _

theorem unbroken_runBy (hs : ∀ fs, (site.schedule fs).Perm fs) {asking : Option Nat → Asking W F} {build : Nat}
    (ha : ∀ total, (site.surroundings build total).AtOnce (asking total))
    (layout : Graph F α → StateM W (Except LayoutError (Graph F α))) (request : BuildRequest F) :
    Unbroken (site.runBy asking layout build request) := by
  refine .bind (site.unbroken_opening build) fun _ _ _ _ => ?_
  refine .bind (site.unbroken_findBy asking build request) fun found σ τ hfound => ?_
  obtain ⟨asked, ρ, -, hanswer⟩ := after_bind_ok.mp hfound
  exact site.unbroken_finish layout ((ha asked.2).grounded hs (guarded_ok_iff.mp hanswer))

/-- A build never fails because an edge lacks an end. -/
theorem Runs.unbroken {heard : W → List BuildEvent} {settings : LayoutSettings α} {build : Nat}
    {request : BuildRequest F} {parallel : Bool} {step : Building W F (Graph F α)}
    (h : site.Runs heard settings build request parallel step) (hs : ∀ fs, (site.schedule fs).Perm fs) :
    Unbroken step := by
  cases h with
  | inTurn =>
    rw [← runBy_inTurn]
    exact unbroken_runBy hs (fun total => (site.surroundings build total).atOnce_inTurn) _ request
  | atOnce ha _ => exact unbroken_runBy hs ha _ request

end Site

namespace Surroundings

open ExceptT

/-- Whatever the index, the cache, the question and the world, and whether functions are asked about one after the
other or at once: the functions found hold those that the question begins with and both ends of every call found. A
graph can be assembled from them, with exactly one node for each function and one edge for each call if no two of
the functions have one node id. So no build ever fails because an edge lacks an end. -/
theorem found_assembles {W F α : Type} [Handle F] [Scalar α] :
    (∀ s : Surroundings W F, (∀ fs, (s.schedule fs).Perm fs) → ∀ question step, s.Resolves question step →
      ∀ σ r τ, step.after σ = (.ok r, τ) →
      (∀ f ∈ question.functions, f ∈ r.functions) ∧
      (∀ k ∈ r.calls, k.caller ∈ r.functions ∧ k.callee ∈ r.functions) ∧
      ∃ g : Graph F α, assemble r = .ok g ∧
        ((∀ f ∈ r.functions, ∀ f' ∈ r.functions, Handle.nodeId f = Handle.nodeId f' → compare f f' = .eq) →
          g.Charts r)) ∧
    ∀ site : Site W F α, (∀ fs, (site.schedule fs).Perm fs) → ∀ heard settings build request parallel step,
      site.Runs heard settings build request parallel step → ∀ σ e τ, step.after σ ≠ (.error (.contract e), τ) := by
  refine ⟨fun s hs question step hstep σ r τ h => ?_, fun site hs _ _ _ _ _ _ hruns => hruns.unbroken hs⟩
  have hr := hstep.grounded hs h
  obtain ⟨g, hg⟩ := Graph.exists_assemble (α := α) hr.ends
  exact ⟨hr.starts, hr.ends, g, hg, fun hinj => Graph.charts_of_assemble hr.ends hinj hg⟩

/-- It is enough to look at one handle of each function. -/
theorem ids_differ {F : Type} [Handle F] {functions : Std.TreeSet F}
    (h : ∀ f ∈ functions.toList, ∀ f' ∈ functions.toList, Handle.nodeId f = Handle.nodeId f' → compare f f' = .eq) :
    ∀ f ∈ functions, ∀ f' ∈ functions, Handle.nodeId f = Handle.nodeId f' → compare f f' = .eq := by
  intro f hf f' hf' hid
  obtain ⟨g, hg, hgf⟩ := listed_toList_iff.mpr hf
  obtain ⟨g', hg', hgf'⟩ := listed_toList_iff.mpr hf'
  have hids : Handle.nodeId g = Handle.nodeId g' := by
    rw [Handle.nodeId_congr hgf, hid, Handle.nodeId_congr hgf']
  exact compare_trans (compare_symm hgf) (compare_trans (h g hg g' hg' hids) hgf')

/-- Two functions of which one calls itself and the other, and one that nobody calls: a search from the first and
the last finds three functions and two calls, and the graph has three nodes and two edges. -/
theorem idle_seed_charted :
    let main := SourceFunction.named "main"
    let idle := SourceFunction.named "idle"
    let index := CallIndex.ofCalls [⟨main, .named "run"⟩, ⟨main, main⟩]
    let services : Services Unit SourceFunction Rat := .answering index fun request => .ok (.pinned ⟨0, 0⟩ request)
    let site := services.site ⟨1, ⟨0⟩⟩
    let request : BuildRequest SourceFunction := .focus [main, idle] .downstream
    (∃ r, ∃ g : Graph SourceFunction Rat,
      (((index.quiet (FileVersions.start none).now).resolve [main, idle] .downstream).after ⟨(), .empty, 0⟩).1 = .ok r ∧
        idle ∈ r.functions ∧ assemble r = .ok g ∧ g.nodes.size = 3 ∧ g.edges.size = 2) ∧
      ∀ e τ, (site.run .standard 1 request).after ⟨⟨.empty, .start none, [], ()⟩, .empty, 0⟩ ≠
        (.error (.contract e), τ) := by
  intro main idle index services site request
  refine ⟨?_, found_assembles.2 site (fun fs => .refl fs) (fun _ => []) _ _ _ _ _ .inTurn _⟩
  let out := ((index.quiet (FileVersions.start none).now).resolve [main, idle] .downstream).after ⟨(), .empty, 0⟩
  have hfound : out.1.toOption.map (fun r => (r.functions.toList.length, r.calls.toList.length,
      decide (∀ f ∈ r.functions.toList, ∀ f' ∈ r.functions.toList,
        Handle.nodeId f = Handle.nodeId f' → compare f f' = .eq))) = some (3, 2, true) := by decide +kernel
  cases hresult : out.1 with
  | error e =>
    rw [hresult] at hfound
    cases hfound
  | ok r =>
    rw [hresult] at hfound
    simp only [Except.toOption, Option.map_some, Option.some.injEq, Prod.mk.injEq, decide_eq_true_eq] at hfound
    obtain ⟨hfunctions, hcalls, hids⟩ := hfound
    obtain ⟨hstarts, -, g, hg, hcharts⟩ := (found_assembles (α := Rat)).1 (index.quiet _) (fun fs => .refl fs)
      (.closure [main, idle] .downstream) _ .inTurn _ r _ (Prod.ext hresult rfl)
    have hdrawn := hcharts (ids_differ hids)
    refine ⟨r, g, rfl, hstarts idle (List.mem_cons_of_mem _ List.mem_cons_self), hg, ?_, ?_⟩
    · rw [← Array.length_toList, hdrawn.nodes, List.length_map, hfunctions]
    · rw [← Array.length_toList, hdrawn.edges, List.length_map, hcalls]

end Surroundings
end CallChart
