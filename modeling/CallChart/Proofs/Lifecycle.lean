import CallChart.Proofs.BuilderSession
import CallChart.Proofs.CallList
import CallChart.Proofs.Counts

/-! What listeners hear of one build from its beginning to its end, however it ends, and whether it asks about
functions one after the other or at once. -/
namespace CallChart

variable {W F α β : Type} [Handle F]

/-! ### What there is to hear -/

/-- The warnings of a build, by the index's answer about the scope that is drawn. A build that draws no scope, or
ends before it asks, has no such answer. -/
def BuildEvent.warnings (build : Nat) : Option (Except IndexError (Std.TreeSet F)) → List BuildEvent
  | some (.error e) => if e.isScopeError then [.warning build e] else []
  | _ => []

/-- How many functions are to be asked about, by the index's answer about the scope. A scope that is gone has
none. -/
def BuildRequest.total? : BuildRequest F → Option (Except IndexError (Std.TreeSet F)) → Option Nat
  | .focus _ _, _ => none
  | .scope _ _, some (.ok functions) => some functions.size
  | .scope _ _, _ => some 0

/-- What is heard of a build until it is ended. It may end before it has started. Otherwise it starts, warns at
most once, and tells the numbers of functions: no more than there are to be asked about, and that many if it
succeeds. -/
inductive Lifecycle (parallel : Bool) (build : Nat) (warned : List BuildEvent) (total : Option Nat) :
    List BuildEvent → Except BuildError (Graph F α) → Prop where
  | dismissed : Lifecycle parallel build warned total [] (.error .cancelled)
  | ran {told : List Nat} {result : Except BuildError (Graph F α)} : Numbered parallel 0 told.length told →
      (∀ n, total = some n → told.length ≤ n ∧ ∀ g, result = .ok g → told.length = n) →
      Lifecycle parallel build warned total
        (.started build :: (warned ++ told.map fun n => .progress build n total)) result

/-- The last event of a build matches its result. -/
inductive Closes (build : Nat) : Except BuildError (Graph F α) → BuildEvent → Prop where
  | completed (g : Graph F α) : Closes build (.ok g) (.completed build g.nodes.size g.edges.size)
  | cancelled : Closes build (.error .cancelled) (.cancelled build)
  | failed {e : BuildError} : e ≠ .cancelled → Closes build (.error e) (.failed build e)

omit [Handle F] in
/-- A build that could be published or was superseded meanwhile is told as before. -/
theorem Lifecycle.settle {parallel : Bool} {build : Nat} {warned : List BuildEvent} {total : Option Nat}
    {events : List BuildEvent} {result result' : Except BuildError (Graph F α)}
    (h : Lifecycle parallel build warned total events result) (hok : ∀ g, result' = .ok g → result = .ok g)
    (herror : ∀ e, result = .error e → result' = .error e) : Lifecycle parallel build warned total events result' := by
  cases h with
  | dismissed =>
    rw [herror _ rfl]
    exact .dismissed
  | ran hnumbered htotal =>
    exact .ran hnumbered fun n hn => ⟨(htotal n hn).1, fun g hg => (htotal n hn).2 g (hok g hg)⟩

omit [Handle F] in
theorem Closes.build_eq {build : Nat} {result : Except BuildError (Graph F α)} {event : BuildEvent}
    (h : Closes build result event) : event.build = build := by
  cases h <;> rfl

omit [Handle F] in
theorem closes_closingEvent (build : Nat) (result : Except BuildError (Graph F α)) :
    Closes build result (Builder.closingEvent build result) := by
  cases result with
  | ok g => exact .completed g
  | error e =>
    cases e with
    | cancelled => exact .cancelled
    | resolve _ | layout _ | contract _ | lost => exact .failed nofun

namespace Site

open ExceptT

/-- Those who listen to one build hear all that is told of it, and nothing else while it looks at the world. -/
structure Announces (site : Site W F α) (heard : W → List BuildEvent) (build : Nat) : Prop where
  cancelled (w : W) : heard (site.cancelled.run w).2 = heard w
  versions (w : W) : heard (site.versions.run w).2 = heard w
  functions (scope : Scope) (w : W) : heard ((site.functions scope).run w).2 = heard w
  ask (coverage : Coverage) (f : F) (w : W) : heard ((site.ask coverage f).run w).2 = heard w
  draw (request : LayoutRequest) (w : W) : heard ((site.draw request).run w).2 = heard w
  emit (event : BuildEvent) (w : W) : event.build = build →
    heard ((site.emit event).run w).2 = heard w ++ [event]
  schedule (fs : List F) : (site.schedule fs).Perm fs

/-- A step of which nothing is heard. -/
def Silent (heard : W → List BuildEvent) (step : Building W F β) : Prop :=
  ∀ events, step.Preserves fun σ => heard σ.world = events

variable (site : Site W F α)

/-- The index's answer about the scope of a request, if it has one. -/
def answerAbout (request : BuildRequest F) (w : W) : Option (Except IndexError (Std.TreeSet F)) :=
  match request with
  | .scope scope _ => some ((site.functions scope).run w).1
  | .focus _ _ => none

/-- The index's answer about the scope that a build draws, if the build comes so far that it asks. -/
def scopeAnswer (build : Nat) (request : BuildRequest F) (σ : Search W F) :
    Option (Except IndexError (Std.TreeSet F)) :=
  match (site.opening build).after σ with
  | (.ok (), τ) => site.answerAbout request τ.world
  | (.error _, _) => none

variable {site} {heard : W → List BuildEvent} {build : Nat} {request : BuildRequest F} {parallel : Bool}

/-! ### Steps of which nothing is heard -/

theorem Silent.after {step : Building W F β} (h : Silent heard step) (σ : Search W F) :
    heard (step.after σ).2.world = heard σ.world := h _ σ rfl

namespace Announces

theorem checkCancelled (hs : site.Announces heard build) : Silent heard site.checkCancelled := by
  intro events σ hσ
  rw [after_checkCancelled]
  exact (hs.cancelled σ.world).trans hσ

theorem prune (hs : site.Announces heard build) : Silent heard site.prune := by
  intro events
  refine .bind (fun σ hσ => (hs.functions .whole σ.world).trans hσ) fun project σ hσ => ?_
  exact (hs.versions σ.world).trans hσ

theorem layout [Scalar α] (hs : site.Announces heard build) (settings : LayoutSettings α) (g : Graph F α) (w : W) :
    heard ((site.layout settings g).run w).2 = heard w := by
  have hlayout : LayoutService.Keeps ⟨site.cancelled, site.draw⟩ fun w' => heard w' = heard w :=
    ⟨fun w' hw => (hs.cancelled w').trans hw, fun request w' hw => (hs.draw request w').trans hw⟩
  exact hlayout.arrange settings g w rfl

theorem finish [Scalar α] (hs : site.Announces heard build)
    {layout : Graph F α → StateM W (Except LayoutError (Graph F α))}
    (hlayout : ∀ g w, heard ((layout g).run w).2 = heard w) (found : Resolution F) :
    Silent heard (site.finish layout found) := by
  intro events
  refine .bind (fun σ hσ => hσ) fun g => .bind (hs.checkCancelled events) fun _ => ?_
  refine .bind (fun σ hσ => (hlayout g σ.world).trans hσ) fun drawn => ?_
  exact .bind (hs.checkCancelled events) fun _ => preserves_pure _ _

theorem surroundings (hs : site.Announces heard build) (total : Option Nat) :
    (site.surroundings build total).Announces heard fun n => .progress build n total where
  cancelled := hs.cancelled
  versions := hs.versions
  ask := hs.ask
  progress _ w := hs.emit _ w rfl
  schedule := hs.schedule

/-! ### Steps that are heard -/

/-- A build that does not start is cancelled; otherwise it is heard to start, and nothing else so far. -/
theorem opening (hs : site.Announces heard build) {σ τ : Search W F} {result : Except BuildError Unit}
    (h : (site.opening build).after σ = (result, τ)) :
    (result = .error .cancelled ∧ heard τ.world = heard σ.world) ∨
      heard τ.world = heard σ.world ++ [.started build] ∧ τ.processed = σ.processed := by
  rw [Site.opening, after_bind, after_checkCancelled] at h
  cases hcancelled : (site.cancelled.run σ.world).1 with
  | true =>
    rw [hcancelled] at h
    cases h
    exact .inl ⟨rfl, hs.cancelled σ.world⟩
  | false =>
    right
    let ρ : Search W F := { σ with world := ((site.emit (.started build)).run (site.cancelled.run σ.world).2).2 }
    have hstarted : heard ρ.world = heard σ.world ++ [.started build] := by
      rw [← hs.cancelled σ.world]
      exact hs.emit (.started build) _ rfl
    have hprune : site.prune.after ρ = (result, τ) := by
      rw [hcancelled] at h
      exact h
    have hprocessed : site.prune.Preserves fun σ' => σ'.processed = σ.processed :=
      .bind (fun _ hσ => hσ) fun _ _ hσ => hσ
    have hτ : (site.prune.after ρ).2 = τ := congrArg Prod.snd hprune
    rw [← hτ]
    exact ⟨(hs.prune.after ρ).trans hstarted, hprocessed ρ rfl⟩

/-- What is heard while a question is answered: the numbers of the functions asked about. -/
theorem asked (hs : site.Announces heard build) {asking : Asking W F} {total : Option Nat}
    (ha : Surroundings.CountsBy asking heard (fun n => .progress build n total) parallel) {question : Question F}
    (htotal : ∀ n, total = some n → ∀ rounds, (question.inquiry rounds).Takes n) {σ τ : Search W F}
    {result : Except BuildError (Resolution F)}
    (h : (guarded BuildError.ofResolve ((site.surroundings build total).answerBy asking question).run :
      Building W F (Resolution F)).after σ = (result, τ)) (hσ : σ.processed = 0) :
    ∃ told, Numbered parallel 0 told.length told ∧
      heard τ.world = heard σ.world ++ told.map (fun n => .progress build n total) ∧
      ∀ n, total = some n → told.length ≤ n ∧ ∀ r, result = .ok r → told.length = n := by
  obtain ⟨n, ⟨-, told, hnumbered, hheard⟩, htakes⟩ := (hs.surroundings total).answerBy ha question σ
  rw [after_guarded] at h
  obtain ⟨rfl, rfl⟩ := Prod.mk.inj h
  obtain rfl := hnumbered.length
  refine ⟨told, hσ ▸ hnumbered, hheard, fun n hn => ?_⟩
  obtain ⟨hle, hok⟩ := htakes n (htotal n hn)
  refine ⟨hle, fun r hr => ?_⟩
  have hanswer : (guarded BuildError.ofResolve ((site.surroundings build total).answerBy asking question).run :
      Building W F (Resolution F)).after σ = (.ok r, _) := Prod.ext hr rfl
  exact hok r _ (guarded_ok_iff.mp hanswer)

/-- The step that asks the index about a scope. -/
theorem after_question_scope (site : Site W F α) (build : Nat) (scope : Scope) (limited : Bool) (σ : Search W F) :
    (site.question build (.scope scope limited)).after σ =
      let ρ : Search W F := { σ with world := ((site.functions scope).run σ.world).2 }
      match ((site.functions scope).run σ.world).1 with
      | .ok functions => (.ok (.ofScope limited functions, some functions.size), ρ)
      | .error e =>
        if e.isScopeError then
          (.ok (.ofScope limited ∅, some 0), { ρ with world := ((site.emit (.warning build e)).run ρ.world).2 })
        else (.error (.ofResolve (.index e)), ρ) := by
  rw [question, after_bind, scopeFunctions, after_bind, after_observe]
  dsimp only
  cases ((site.functions scope).run σ.world).1 with
  | ok functions => rfl
  | error e =>
    dsimp only
    cases e.isScopeError <;> rfl

/-- What is heard while a build finds out what to draw. -/
theorem findBy (hs : site.Announces heard build) {asking : Option Nat → Asking W F}
    (ha : ∀ total, Surroundings.CountsBy (asking total) heard (fun n => .progress build n total) parallel)
    {σ τ : Search W F} (hσ : σ.processed = 0) {result : Except BuildError (Resolution F)}
    (h : (site.findBy asking build request).after σ = (result, τ)) :
    let answer := site.answerAbout request σ.world
    let total := request.total? answer
    ∃ told, Numbered parallel 0 told.length told ∧
      heard τ.world = heard σ.world ++ (BuildEvent.warnings build answer ++ told.map fun n => .progress build n total) ∧
      ∀ n, total = some n → told.length ≤ n ∧ ∀ r, result = .ok r → told.length = n := by
  intro answer total
  cases request with
  | focus seeds direction => exact hs.asked (ha none) (fun n hn => by cases hn) h hσ
  | scope scope limited =>
    have hfunctions := hs.functions scope σ.world
    rw [Site.findBy, after_bind, after_question_scope] at h
    cases hanswer : ((site.functions scope).run σ.world).1 with
    | ok functions =>
      have hanswered : answer = some (.ok functions) := congrArg some hanswer
      have htotal : total = some functions.size := congrArg (BuildRequest.total? _) hanswered
      rw [hanswer] at h
      obtain ⟨told, hnumbered, hheard, hbound⟩ := hs.asked (ha (some functions.size))
        (fun n hn rounds => Option.some.inj hn ▸ Question.takes_ofScope limited functions rounds) h hσ
      rw [hanswered, htotal, ← hfunctions]
      exact ⟨told, hnumbered, hheard, hbound⟩
    | error e =>
      have hanswered : answer = some (.error e) := congrArg some hanswer
      have htotal : total = some 0 := congrArg (BuildRequest.total? _) hanswered
      rw [hanswer] at h
      rw [hanswered, htotal, BuildEvent.warnings]
      cases hscope : e.isScopeError with
      | true =>
        simp only [hscope, if_true] at h
        have htakes (n : Nat) (hn : some 0 = some n) (rounds : Nat) :
            ((Question.ofScope limited (∅ : Std.TreeSet F)).inquiry rounds).Takes n := by
          cases hn
          exact Question.takes_ofScope limited ∅ rounds
        obtain ⟨told, hnumbered, hheard, hbound⟩ := hs.asked (ha (some 0)) htakes h hσ
        refine ⟨told, hnumbered, ?_, hbound⟩
        rw [hheard, hs.emit _ _ rfl, hfunctions, List.append_assoc]
        rfl
      | false =>
        simp only [hscope, Bool.false_eq_true, if_false] at h
        obtain ⟨rfl, rfl⟩ := Prod.mk.inj h
        refine ⟨[], numbered_range' parallel 0 0, ?_, fun n _ => ⟨Nat.zero_le n, fun _ hok => by cases hok⟩⟩
        rw [hfunctions]
        exact (List.append_nil _).symm

variable [Scalar α]

/-- What is heard of the work of a build. -/
theorem runBy (hs : site.Announces heard build) {asking : Option Nat → Asking W F}
    (ha : ∀ total, Surroundings.CountsBy (asking total) heard (fun n => .progress build n total) parallel)
    {layout : Graph F α → StateM W (Except LayoutError (Graph F α))}
    (hlayout : ∀ g w, heard ((layout g).run w).2 = heard w) {σ τ : Search W F} (hσ : σ.processed = 0)
    {result : Except BuildError (Graph F α)} (h : (site.runBy asking layout build request).after σ = (result, τ)) :
    let answer := site.scopeAnswer build request σ
    ∃ events, heard τ.world = heard σ.world ++ events ∧
      Lifecycle parallel build (BuildEvent.warnings build answer) (request.total? answer) events result := by
  intro answer
  rw [Site.runBy, after_bind] at h
  rcases hopening : (site.opening build).after σ with ⟨e | _, ρ⟩
  · have hanswer : answer = none := by
      simp only [answer, scopeAnswer, hopening]
    rw [hopening] at h
    obtain ⟨rfl, rfl⟩ := Prod.mk.inj h
    rcases hs.opening hopening with ⟨he, hheard⟩ | ⟨hheard, -⟩
    · cases he
      exact ⟨[], hheard.trans (List.append_nil _).symm, .dismissed⟩
    · rw [hanswer]
      refine ⟨_, hheard, .ran (numbered_range' parallel 0 0) fun n _ => ⟨Nat.zero_le n, fun _ hok => by cases hok⟩⟩
  · have hanswer : answer = site.answerAbout request ρ.world := by
      simp only [answer, scopeAnswer, hopening]
    rw [hopening] at h
    obtain ⟨hheard, hprocessed⟩ := (hs.opening hopening).resolve_left fun hstop => by cases hstop.1
    dsimp only at h
    rw [after_bind] at h
    rcases hfind : (site.findBy asking build request).after ρ with ⟨e | found, ρ'⟩
    · obtain ⟨told, hnumbered, hheard', hbound⟩ := hs.findBy ha (hprocessed.trans hσ) hfind
      rw [hfind] at h
      obtain ⟨rfl, rfl⟩ := Prod.mk.inj h
      rw [hanswer]
      refine ⟨_, ?_, .ran hnumbered fun n hn => ⟨(hbound n hn).1, fun _ hok => by cases hok⟩⟩
      rw [hheard', hheard, List.append_assoc]
      rfl
    · obtain ⟨told, hnumbered, hheard', hbound⟩ := hs.findBy ha (hprocessed.trans hσ) hfind
      rw [hfind] at h
      have hτ : heard τ.world = heard ρ'.world := by
        have hsilent := (hs.finish hlayout found).after ρ'
        have hend : (site.finish layout found).after ρ' = (result, τ) := h
        rwa [hend] at hsilent
      rw [hanswer]
      refine ⟨_, ?_, .ran hnumbered fun n hn => ⟨(hbound n hn).1, fun g _ => (hbound n hn).2 found rfl⟩⟩
      rw [hτ, hheard', hheard, List.append_assoc]
      rfl

end Announces

variable [Scalar α]

theorem Announces.runs (hs : site.Announces heard build) {settings : LayoutSettings α}
    {step : Building W F (Graph F α)} (hstep : site.Runs heard settings build request parallel step)
    {σ : Search W F} (hσ : σ.processed = 0) :
    let answer := site.scopeAnswer build request σ
    ∃ events, heard (step.after σ).2.world = heard σ.world ++ events ∧
      Lifecycle parallel build (BuildEvent.warnings build answer) (request.total? answer) events (step.after σ).1 := by
  cases hstep with
  | inTurn =>
    rw [← runBy_inTurn]
    exact hs.runBy (fun total => (hs.surroundings total).inTurn) (hs.layout settings) hσ rfl
  | atOnce hasking hlayout =>
    exact hs.runBy (fun total => (hasking total).countsBy (hs.surroundings total)) hlayout hσ rfl

end Site

variable {X : Type}

namespace Floor

/-- The events of a build. -/
def eventsOf (build : Nat) (floor : Floor X F α) : List BuildEvent :=
  floor.events.filter fun event => event.build == build

/-- Between two states of the floor everything was heard of a build that comes to a result, and nothing else of
it. -/
def Hears (parallel : Bool) (build : Nat) (request : BuildRequest F)
    (answer : Option (Except IndexError (Std.TreeSet F))) (floor floor' : Floor X F α)
    (result : Except BuildError (Graph F α)) : Prop :=
  ∃ events closing, floor'.eventsOf build = floor.eventsOf build ++ events ++ [closing] ∧
    Lifecycle parallel build (BuildEvent.warnings build answer) (request.total? answer) events result ∧
    Closes build result closing

omit [Handle F] in
theorem eventsOf_emit (floor : Floor X F α) {build : Nat} {event : BuildEvent} (h : event.build = build) :
    Floor.eventsOf build { floor with events := floor.events ++ [event] } = floor.eventsOf build ++ [event] := by
  have hown : [event].filter (fun event => event.build == build) = [event] := by simp [h]
  rw [eventsOf, List.filter_append, hown]
  rfl

end Floor

/-- Services tell nobody anything, whatever happens meanwhile. -/
theorem Services.announces (services : Services X F α) (ticket : Ticket) :
    (services.site ticket).Announces (Floor.eventsOf ticket.build) ticket.build := by
  have hserve {γ : Type} (service : StateM X (γ × List Happening)) (floor : Floor X F α) :
      Floor.eventsOf ticket.build ((Floor.serve service).run floor).2 = floor.eventsOf ticket.build := by
    have hafter (floor' : Floor X F α) (happening : Happening) (h : floor'.events = floor.events) :
        (floor'.after happening).events = floor.events := by cases happening <;> exact h
    refine congrArg (List.filter _) ?_
    exact Floor.serve_keeps (I := fun floor' => floor'.events = floor.events) (K := fun _ => True)
      (fun floor' happening _ => hafter floor' happening) rfl fun _ _ => trivial
  exact ⟨hserve _, hserve _, fun _ => hserve _, fun _ _ => hserve _, fun _ => hserve _,
    fun _ floor => floor.eventsOf_emit, .refl⟩

namespace Builder

variable [Scalar α]

omit [Scalar α] in
/-- Whatever a build comes to, its end is told with the result that it returns. -/
theorem hears_conclude {parallel : Bool} {ticket : Ticket} {request : BuildRequest F}
    {answer : Option (Except IndexError (Std.TreeSet F))} {floor : Floor X F α} {b : Builder X F α}
    {events : List BuildEvent} {result : Except BuildError (Graph F α)}
    (hheard : b.floor.eventsOf ticket.build = floor.eventsOf ticket.build ++ events)
    (h : Lifecycle parallel ticket.build (BuildEvent.warnings ticket.build answer) (request.total? answer) events
      result) :
    Floor.Hears parallel ticket.build request answer floor ((conclude ticket result).run b).2.floor
      ((conclude ticket result).run b).1 := by
  rw [run_conclude]
  have hclosed := closes_closingEvent ticket.build (settle b.floor.desk ticket result).1
  refine ⟨events, _, ?_, h.settle (fun g hg => settle_ok hg) fun e he => ?_, hclosed⟩
  · rw [← hheard]
    exact b.floor.eventsOf_emit hclosed.build_eq
  · rw [he]
    rfl

/-- What is heard of a build, whatever is asked for, whatever the services answer and the cache knows, and whatever
happens meanwhile: either only that it was cancelled, or that it started, then a warning if the scope is gone, then
the numbers of functions and at last its end, which is that of the result. In the second statement the build may ask
about functions at once, and anything may happen between its work and its end that does not tell of it. -/
theorem build_heard {X F α : Type} [Handle F] [Scalar α] :
    (∀ (b : Builder X F α) request,
      let ticket := (register.run b).1
      let begun := (register.run b).2
      let answer := (b.services.site ticket).scopeAnswer ticket.build request ⟨begun.floor, begun.cache, 0⟩
      let ended := (build request).run b
      Floor.Hears false ticket.build request answer b.floor ended.2.floor ended.1) ∧
    ∀ (services : Services X F α) (ticket : Ticket) settings request parallel step,
      (services.site ticket).Runs (Floor.eventsOf ticket.build) settings ticket.build request parallel step →
      ∀ (floor : Floor X F α) (cache : Cache F) (b : Builder X F α),
        let worked := step.after ⟨floor, cache, 0⟩
        b.floor.eventsOf ticket.build = worked.2.world.eventsOf ticket.build →
        let answer := (services.site ticket).scopeAnswer ticket.build request ⟨floor, cache, 0⟩
        let ended := (conclude ticket worked.1).run b
        Floor.Hears parallel ticket.build request answer floor ended.2.floor ended.1 := by
  have hall (services : Services X F α) (ticket : Ticket) (settings : LayoutSettings α) (request : BuildRequest F)
      (parallel : Bool) (step : Building (Floor X F α) F (Graph F α))
      (hstep : (services.site ticket).Runs (Floor.eventsOf ticket.build) settings ticket.build request parallel step)
      (floor : Floor X F α) (cache : Cache F) (b : Builder X F α)
      (hb : b.floor.eventsOf ticket.build = (step.after ⟨floor, cache, 0⟩).2.world.eventsOf ticket.build) :
      Floor.Hears parallel ticket.build request
        ((services.site ticket).scopeAnswer ticket.build request ⟨floor, cache, 0⟩) floor
        ((conclude ticket (step.after ⟨floor, cache, 0⟩).1).run b).2.floor
        ((conclude ticket (step.after ⟨floor, cache, 0⟩).1).run b).1 := by
    obtain ⟨events, hheard, hlife⟩ := (services.announces ticket).runs hstep (σ := ⟨floor, cache, 0⟩) rfl
    exact hears_conclude (hb.trans hheard) hlife
  refine ⟨fun b request => ?_, hall⟩
  exact hall b.services (register.run b).1 b.settings request false _ .inTurn _ _
    ((work b.services (register.run b).1 request).run (register.run b).2).2 rfl

/-- Two functions that call themselves are drawn. What is heard of it, when questions may be asked at once. -/
theorem two_loops_heard :
    let calls : List (Call SourceFunction) := [⟨.named "main", .named "main"⟩, ⟨.named "idle", .named "idle"⟩]
    let services : Services Unit SourceFunction Rat :=
      .answering (.ofCalls calls) fun request => .ok (.pinned ⟨0, 0⟩ request)
    let site := services.site ⟨1, ⟨0⟩⟩
    let request : BuildRequest SourceFunction := .scope .whole false
    let step := site.runBy (fun total => (site.surroundings 1 total).inTurn) (site.layout .standard) 1 request
    let floor : Floor Unit SourceFunction Rat := ⟨Desk.empty.register.2, .start none, [], ()⟩
    site.Runs (Floor.eventsOf 1) .standard 1 request true step ∧
      ∃ b, b.floor.eventsOf 1 = (step.after ⟨floor, .empty, 0⟩).2.world.eventsOf 1 ∧
        let ended := (conclude ⟨1, ⟨0⟩⟩ (step.after ⟨floor, .empty, 0⟩).1).run b
        (ended.2.floor.events matches
            [.started 1, .progress 1 1 (some 2), .progress 1 2 (some 2), .completed 1 2 2]) = true ∧
          Floor.Hears true 1 request (site.scopeAnswer 1 request ⟨floor, .empty, 0⟩) floor ended.2.floor ended.1 := by
  intro calls services site request step floor
  have hruns : site.Runs (Floor.eventsOf 1) .standard 1 request true step :=
    .atOnce (fun total => (site.surroundings 1 total).atOnce_inTurn)
      ((services.announces ⟨1, ⟨0⟩⟩).layout .standard)
  have hsame (worked : Except BuildError (Graph SourceFunction Rat) × Search (Floor Unit SourceFunction Rat) _) :
      (⟨worked.2.world, worked.2.cache, services, .standard⟩ : Builder Unit SourceFunction Rat).floor.eventsOf 1 =
        worked.2.world.eventsOf 1 := rfl
  refine ⟨hruns, _, hsame (step.after ⟨floor, .empty, 0⟩), ?_, ?_⟩
  · decide +kernel
  · exact build_heard.2 services ⟨1, ⟨0⟩⟩ .standard request true step hruns floor .empty _ (hsame _)

end Builder
end CallChart
