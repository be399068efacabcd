import CallChart.Proofs.BoundedSearch
import CallChart.Proofs.DrawnAtOnce
import CallChart.Proofs.Endpoints
import CallChart.Proofs.Lifecycle
import CallChart.Proofs.Looks

/-! What searches, layouts and whole builds see, whether they do one thing after the other or several at once. The
failure of a build is accounted for by what it saw. -/
namespace CallChart

variable {W F α β : Type} [Handle F] [Scalar α]

/-! ### Things that are done at once -/

/-- The failure of a build that an errand has come to. -/
def Errand.failure? : Errand F → Option BuildError
  | failed e => some (.ofResolve e)
  | _ => none

/-- The failure of a build that a sketch has come to. -/
def Sketch.failure? : Sketch α → Option BuildError
  | failed e => some (.ofLayout e)
  | _ => none

namespace Crew

variable {site : Site W F α} {settings : LayoutSettings α} {build : Nat} {total : Option Nat} {coverage : Coverage}
  {counted : Bool}

def failures (c : Crew W F) : List (Option BuildError) := c.errands.map fun errand => errand.2.failure?

theorem Step.noted {c c' : Crew W F} (hstep : Step (site.surroundings build total) coverage counted c c') {w : W}
    (h : site.Noted settings w c.world c.failures) : site.Noted settings w c'.world c'.failures := by
  cases hstep with
  | drop before rest _ =>
    simp only [failures, List.map_append, List.map_cons] at h ⊢
    exact h
  | advance before rest hadvance =>
    simp only [failures, List.map_append, List.map_cons] at h ⊢
    cases hadvance with
    | leave hgoing => exact h.goes ((Site.Sees.checked _).untroubled hgoing)
    | stop hstopped => exact h.fails (Site.Sees.checked _) (Look.gives_stop hstopped)
    | ask hreply => exact h.goes ((Site.Sees.asked _ _ _).untroubled (Look.fine_asked hreply))
    | fail hreply => exact h.fails (Site.Sees.asked _ _ _) (Look.gives_asked hreply)
    | count _ => exact h
    | tell => exact h.goes ((Site.Sees.told _ rfl).untroubled trivial)
    | keep _ => exact h

theorem Run.noted {c c' : Crew W F} (hrun : Run (site.surroundings build total) coverage counted c c') {w : W}
    (h : site.Noted settings w c.world c.failures) : site.Noted settings w c'.world c'.failures := by
  induction hrun with
  | refl => exact h
  | tail _ hstep ih => exact hstep.noted ih

end Crew

namespace Studio

variable {site : Site W F α} {settings : LayoutSettings α} {g : Graph F α}

def failures (studio : Studio W α) : List (Option BuildError) := studio.sketches.map fun sketch => sketch.2.failure?

theorem Step.noted {s s' : Studio W α} (hstep : Step ⟨site.cancelled, site.draw⟩ settings g s s') {w : W}
    (h : site.Noted settings w s.world s.failures) : site.Noted settings w s'.world s'.failures := by
  cases hstep with
  | drop before rest _ =>
    simp only [failures, List.map_append, List.map_cons] at h ⊢
    exact h
  | advance before rest hadvance =>
    simp only [failures, List.map_append, List.map_cons] at h ⊢
    cases hadvance with
    | leave hgoing => exact h.goes ((Site.Sees.checked _).untroubled hgoing)
    | stop hstopped => exact h.fails (Site.Sees.checked _) (Look.gives_stop hstopped)
    | centre _ => exact h
    | draw _ hdrawn => exact h.goes ((Site.Sees.drew _ _).untroubled ⟨g, _, _, rfl, hdrawn⟩)
    | fail _ hdrawn => exact h.fails (Site.Sees.drew _ _) (.undrawn hdrawn)

theorem Run.noted {s s' : Studio W α} (hrun : Run ⟨site.cancelled, site.draw⟩ settings g s s') {w : W}
    (h : site.Noted settings w s.world s.failures) : site.Noted settings w s'.world s'.failures := by
  induction hrun with
  | refl => exact h
  | tail _ hstep ih => exact hstep.noted ih

end Studio

namespace Site

open ExceptT

variable {site : Site W F α} {parallel : Bool} {excused : BuildError → Prop} {build : Nat} {total : Option Nat}
  {asking : Asking W F} {settings : LayoutSettings α}

/-! ### Searches -/

section Searches

variable (site) (build : Nat) (total : Option Nat) (coverage : Coverage) (counted : Bool)

theorem untroubled_tickIf (σ : Search W F) :
    site.Untroubled settings σ.world (((site.surroundings build total).tickIf counted).run σ).2.world := by
  cases counted with
  | false => exact .refl _
  | true =>
    have htold : site.Sees σ.world (.told (.progress build (σ.processed + 1) total)) _ := .told σ.world rfl
    exact htold.untroubled trivial

theorem untroubled_consult (round : List F) (σ : Search W F) :
    site.Untroubled settings σ.world
      (((site.surroundings build total).consult coverage counted round).run σ).2.world := by
  induction round generalizing σ with
  | nil => exact .refl _
  | cons f rest ih =>
    let s := site.surroundings build total
    have hdated : site.Untroubled settings σ.world (s.asked coverage f σ).world :=
      (Sees.dated σ.world).untroubled trivial
    cases hk : σ.cache.freshNeighbours? coverage f (s.versions.run σ.world).1 with
    | none =>
      rw [Surroundings.run_consult_miss hk]
      exact hdated.trans (ih _)
    | some known =>
      rw [Surroundings.run_consult_hit hk]
      exact (hdated.trans (site.untroubled_tickIf build total counted _)).trans (ih _)

theorem untroubled_commit (answers : Answers F) (σ : Search W F) :
    site.Untroubled settings σ.world (((site.surroundings build total).commit coverage answers).run σ).2.world := by
  induction answers generalizing σ with
  | nil => exact .refl _
  | cons answer rest ih =>
    let ρ : Search W F := { σ with
      world := (site.versions.run σ.world).2
      cache := σ.cache.replaceNeighbours coverage answer.1 answer.2 (site.versions.run σ.world).1 }
    exact ((Sees.dated σ.world).untroubled trivial).trans (ih ρ)

theorem accounted_searchCheck : site.Accounted settings parallel excused Search.world BuildError.ofResolve
    (site.surroundings build total).checkCancelled :=
  .check rfl (fun _ => rfl) (site.surroundings build total).after_checkCancelled

theorem accounted_query (f : F) : site.Accounted settings parallel excused Search.world BuildError.ofResolve
    ((site.surroundings build total).query coverage counted f) := by
  refine .bind (site.accounted_searchCheck build total) fun _ _ _ _ => .of_after fun σ => ?_
  let ρ : Search W F := { σ with world := ((site.ask coverage f).run σ.world).2 }
  have hsees : site.Sees σ.world (.asked coverage f ((site.ask coverage f).run σ.world).1) ρ.world := .asked ..
  have hcounted : site.Untroubled settings ρ.world _ := site.untroubled_tickIf build total counted ρ
  rw [after_bind, Surroundings.after_observe]
  dsimp only [surroundings] at hcounted ⊢
  cases hreply : ((site.ask coverage f).run σ.world).1 with
  | ok found => exact (hsees.untroubled (Look.fine_asked hreply)).trans hcounted
  | error e => exact hsees.blames (Look.gives_asked hreply)

theorem accounted_inTurn (functions : List F) :
    site.Accounted settings parallel excused Search.world BuildError.ofResolve
      ((site.surroundings build total).inTurn coverage counted functions) := by
  unfold Surroundings.inTurn
  induction (site.surroundings build total).schedule functions with
  | nil => exact .pure _
  | cons f rest ih =>
    exact .bind (site.accounted_query build total coverage counted f) fun _ _ _ _ => .bind ih fun _ _ _ _ => .pure _

end Searches

/-- Functions that are asked about at once. -/
theorem accounted_atOnce (ha : (site.surroundings build total).AtOnce asking) (coverage : Coverage) (counted : Bool)
    (functions : List F) : site.Accounted settings true excused Search.world BuildError.ofResolve
      (asking coverage counted functions) := by
  refine .of_after fun σ => ?_
  obtain ⟨c, hrun, hends, hlast⟩ := ha coverage counted functions σ
  have hbegin : ∀ e, some e ∉ (Crew.begin σ.world σ.processed
      ((site.surroundings build total).schedule functions)).failures := by
    simp [Crew.failures, Crew.begin, Errand.failure?]
  have hbegun : site.Noted settings σ.world _ _ := .begin σ.world hbegin
  have hnoted := hrun.noted hbegun
  rcases hasked : (asking coverage counted functions).after σ with ⟨e | answers, τ⟩
  all_goals
    rw [hasked] at hends hlast
    obtain rfl : τ = ⟨c.world, σ.cache, c.processed⟩ := hlast
  · obtain ⟨⟨f, hf⟩, -⟩ := hends
    exact hnoted.blames (List.mem_map.mpr ⟨_, hf, rfl⟩)
  · have herrands : c.errands = answers.map fun answer => (answer.1, .done answer.2) := hends
    refine hnoted.untroubled ?_
    simp [Crew.failures, herrands, Errand.failure?]

theorem accounted_answerRoundBy (ha : ∀ coverage counted functions,
      site.Accounted settings parallel excused Search.world BuildError.ofResolve (asking coverage counted functions))
    (coverage : Coverage) (counted : Bool) (round : List F) :
    site.Accounted settings parallel excused Search.world BuildError.ofResolve
      ((site.surroundings build total).answerRoundBy asking coverage counted round) := by
  refine .bind (site.accounted_searchCheck build total) fun _ _ _ _ => ?_
  refine .bind (.lift (site.untroubled_consult build total coverage counted round)) fun out _ _ _ => ?_
  refine .bind (ha coverage counted out.2) fun learned _ _ _ => ?_
  exact .bind (.lift (site.untroubled_commit build total coverage learned)) fun _ _ _ _ => .pure _

theorem accounted_pursueBy (ha : ∀ coverage counted functions,
      site.Accounted settings parallel excused Search.world BuildError.ofResolve (asking coverage counted functions))
    (hexcused : excused (.resolve .unbounded)) (q : Inquiry F β) :
    site.Accounted settings parallel excused Search.world BuildError.ofResolve
      ((site.surroundings build total).pursueBy asking q) := by
  induction q with
  | done b => exact .pure b
  | unbounded => exact .of_after fun σ => ⟨[], .nil _, .inl hexcused⟩
  | ask coverage counted round next ih =>
    exact .bind (accounted_answerRoundBy ha coverage counted round) fun answers _ _ _ => ih answers

/-- No more functions are named in the index's answers than it says there are. -/
def Populated (site : Site W F α) : Prop :=
  ∃ names : List F, names.length ≤ site.population ∧ ∀ w coverage f found,
    ((site.ask coverage f).run w).1 = .ok found → ∀ g ∈ found, Listed names g

/-- The ways in which the functions of a round are asked about: if at once, any of them may fail first. -/
structure Asks (site : Site W F α) (build : Nat) (total : Option Nat) (parallel : Bool) (asking : Asking W F) :
    Prop where
  atOnce : (site.surroundings build total).AtOnce asking
  accounted (settings : LayoutSettings α) (excused : BuildError → Prop) (coverage : Coverage) (counted : Bool)
    (functions : List F) :
    site.Accounted settings parallel excused Search.world BuildError.ofResolve (asking coverage counted functions)

theorem asks_inTurn (site : Site W F α) (build : Nat) (total : Option Nat) :
    site.Asks build total false (site.surroundings build total).inTurn :=
  ⟨Surroundings.atOnce_inTurn _, fun _ _ => site.accounted_inTurn build total⟩

theorem asks_atOnce (ha : (site.surroundings build total).AtOnce asking) : site.Asks build total true asking :=
  ⟨ha, fun _ _ => accounted_atOnce ha⟩

theorem accounted_answerBy (ha : site.Asks build total parallel asking) (hs : ∀ fs, (site.schedule fs).Perm fs)
    (question : Question F) :
    site.Accounted settings parallel (fun _ => ¬ site.Populated) Search.world BuildError.ofResolve
      ((site.surroundings build total).answerBy asking question) := by
  refine .of_after fun σ => ?_
  let s := site.surroundings build total
  have hpursued : site.Accounted settings parallel (· = .resolve .unbounded) Search.world BuildError.ofResolve
      (s.pursueBy asking (question.inquiry (s.limit question σ))) :=
    accounted_pursueBy (ha.accounted settings (· = .resolve .unbounded)) rfl _
  have hbounded : site.Populated → ∀ τ, (s.answerBy asking question).after σ ≠ (.error .unbounded, τ) := by
    rintro ⟨names, hlength, hnames⟩ τ
    have hpopulated : s.Populated fun _ => True :=
      { s.keeps_true with names := ⟨names, hlength, fun _ => hnames _ _ _ _⟩, schedule := hs }
    exact ha.atOnce.answerBy_ne_unbounded hpopulated question trivial
  rw [Surroundings.after_answerBy] at hbounded ⊢
  rcases hresult : (s.pursueBy asking (question.inquiry (s.limit question σ))).after σ with ⟨e | found, τ⟩
  · rw [hresult] at hbounded
    obtain ⟨looks, hpasses, hcause⟩ := hpursued.error hresult
    refine ⟨looks, hpasses, hcause.imp_left fun hunbounded hpopulated => ?_⟩
    refine hbounded hpopulated τ ?_
    cases e with
    | unbounded => rfl
    | cancelled => cases hunbounded
    | index e => cases e <;> cases hunbounded
  · exact hpursued.ok hresult

/-! ### Layouts -/

section Layouts

variable (site) (settings) (g : Graph F α)

theorem accounted_drawComponent (c : Component) : site.Accounted settings parallel excused id BuildError.ofLayout
    (LayoutService.drawComponent ⟨site.cancelled, site.draw⟩ settings g c) := by
  refine .of_after fun w => ?_
  have hchecked : site.Sees w _ _ := .checked w
  rw [LayoutService.after_drawComponent]
  dsimp only
  cases hstop : (site.cancelled.run w).1 with
  | true => exact hchecked.blames (Look.gives_stop hstop)
  | false =>
    have hgoing : site.Untroubled settings w _ := hchecked.untroubled hstop
    by_cases hsingle : c.nodes.length = 1
    · rw [if_neg Bool.false_ne_true, if_pos hsingle]
      exact hgoing
    · rw [if_neg Bool.false_ne_true, if_neg hsingle]
      have hdrew : site.Sees _ _ _ := .drew (LayoutRequest.ofComponent g c) (site.cancelled.run w).2
      cases hdrawn : LayoutService.blueprint settings g c
          ((site.draw (LayoutRequest.ofComponent g c)).run (site.cancelled.run w).2).1 with
      | ok b => exact hgoing.trans (hdrew.untroubled ⟨g, c, b, rfl, hdrawn⟩)
      | error e => exact hgoing.before (hdrew.blames (.undrawn hdrawn))

theorem accounted_drawAll (components : List Component) :
    site.Accounted settings parallel excused id BuildError.ofLayout
      (LayoutService.drawAll ⟨site.cancelled, site.draw⟩ settings g components) := by
  induction components with
  | nil => exact .pure _
  | cons c rest ih =>
    exact .bind (site.accounted_drawComponent settings g c) fun _ _ _ _ => .bind ih fun _ _ _ _ => .pure _

theorem accounted_layout : site.Accounted settings parallel excused id BuildError.ofLayout
    (ExceptT.mk (site.layout settings g)) := by
  have hcompute : site.Accounted settings parallel excused id BuildError.ofLayout
      (LayoutService.compute ⟨site.cancelled, site.draw⟩ settings g) :=
    .bind (site.accounted_drawAll settings g _) fun _ _ _ _ => .pure _
  change site.Accounted settings _ _ _ _ (LayoutService.arrange ⟨site.cancelled, site.draw⟩ settings g)
  unfold LayoutService.arrange
  split
  · exact .pure g
  · exact .bind hcompute fun _ _ _ _ => .pure _

end Layouts

/-- Components that are drawn at once. -/
theorem accounted_drawnAtOnce {layout : Graph F α → StateM W (Except LayoutError (Graph F α))}
    (hlayout : LayoutService.AtOnce ⟨site.cancelled, site.draw⟩ settings layout) (g : Graph F α) :
    site.Accounted settings true excused id BuildError.ofLayout (ExceptT.mk (layout g)) := by
  refine .of_after fun w => ?_
  obtain ⟨hempty, hdrawn⟩ := hlayout g w
  rw [after_mk]
  cases hg : g.isEmpty with
  | true =>
    rw [hempty hg]
    exact .refl w
  | false =>
    obtain ⟨studio, outcome, hrun, hends, hresult⟩ := hdrawn hg
    have hbegin : ∀ e, some e ∉ (Studio.begin (α := α) w g.components).failures := by
      simp [Studio.failures, Studio.begin, Sketch.failure?]
    have hbegun : site.Noted settings w w _ := .begin w hbegin
    have hnoted := hrun.noted hbegun
    rw [hresult]
    cases outcome with
    | error e =>
      obtain ⟨⟨c, hc⟩, -⟩ := hends
      exact hnoted.blames (List.mem_map.mpr ⟨_, hc, rfl⟩)
    | ok blueprints =>
      have hsketches : studio.failures = blueprints.map fun _ => none := by
        have hdone := congrArg (List.map Sketch.failure?) hends
        rwa [List.map_map, List.map_map] at hdone
      refine hnoted.untroubled ?_
      simp [hsketches]

/-! ### Builds -/

theorem Accounted.guarded {ε : Type} {cause : ε → BuildError} {step : ExceptT ε (StateM (Search W F)) β}
    (h : site.Accounted settings parallel excused Search.world cause step) :
    site.Accounted settings parallel excused Search.world id (Site.guarded cause step.run) := by
  refine .of_after fun σ => ?_
  have hrun : step.run.run σ = step.after σ := rfl
  rw [after_guarded, hrun]
  rcases hstep : step.after σ with ⟨e | b, τ⟩
  · exact h.error hstep
  · exact h.ok hstep

theorem Accounted.looking {ε : Type} {cause : ε → BuildError} {step : ExceptT ε (StateM W) β}
    (h : site.Accounted settings parallel excused id cause step) :
    site.Accounted settings parallel excused Search.world id (Site.guarded (F := F) cause (Search.look step.run)) := by
  refine .of_after fun σ => ?_
  have hrun : (Search.look step.run).run σ =
      ((step.after σ.world).1, { σ with world := (step.after σ.world).2 }) := rfl
  rw [after_guarded, hrun]
  rcases hstep : step.after σ.world with ⟨e | b, w⟩
  · exact h.error hstep
  · exact h.ok hstep

theorem accounted_check (site : Site W F α) :
    site.Accounted settings parallel excused Search.world id site.checkCancelled :=
  .check rfl (fun _ => rfl) site.after_checkCancelled

theorem accounted_tell (site : Site W F α) {event : BuildEvent} (h : event.isLast = false) :
    site.Accounted settings parallel excused Search.world id (observe (F := F) (site.emit event)) :=
  .lift fun σ => (Sees.told σ.world h).untroubled trivial

theorem accounted_prune (site : Site W F α) : site.Accounted settings parallel excused Search.world id site.prune := by
  refine .bind (.of_after fun σ => ?_) fun project _ _ _ => .lift fun σ => ?_
  · have hlisted : site.Sees σ.world _ _ := .listed .whole σ.world
    have hrun : (Search.look (F := F) (site.functions .whole)).run σ =
        (((site.functions .whole).run σ.world).1, { σ with world := ((site.functions .whole).run σ.world).2 }) := rfl
    rw [after_guarded, hrun]
    dsimp only
    cases hanswer : ((site.functions .whole).run σ.world).1 with
    | ok project => exact hlisted.untroubled fun e he => by cases hanswer.symm.trans he
    | error e => exact hlisted.blames (hanswer ▸ .unlisted)
  · exact (Sees.dated σ.world).untroubled trivial

theorem accounted_opening (site : Site W F α) (build : Nat) :
    site.Accounted settings parallel excused Search.world id (site.opening build) :=
  .bind site.accounted_check fun _ _ _ _ => .bind (site.accounted_tell rfl) fun _ _ _ _ => site.accounted_prune

theorem accounted_question (site : Site W F α) (build : Nat) (request : BuildRequest F) :
    site.Accounted settings parallel excused Search.world id (site.question build request) := by
  cases request with
  | focus seeds direction => exact .pure _
  | scope scope limited =>
    refine .of_after fun σ => ?_
    have hlisted : site.Sees σ.world _ _ := .listed scope σ.world
    rw [Announces.after_question_scope]
    dsimp only
    cases hanswer : ((site.functions scope).run σ.world).1 with
    | ok functions => exact hlisted.untroubled fun e he => by cases hanswer.symm.trans he
    | error e =>
      rw [hanswer] at hlisted
      cases hgone : e.isScopeError with
      | true =>
        simp only [hgone, if_true]
        have htold : site.Sees _ (.told (.warning build e)) _ := .told ((site.functions scope).run σ.world).2 rfl
        refine (hlisted.untroubled ?_).trans (htold.untroubled trivial)
        exact fun e' he' => Except.error.inj he' ▸ hgone
      | false =>
        simp only [hgone, Bool.false_eq_true, if_false]
        exact hlisted.blames .unlisted

theorem accounted_findBy {asking : Option Nat → Asking W F}
    (ha : ∀ total, site.Asks build total parallel (asking total)) (hs : ∀ fs, (site.schedule fs).Perm fs)
    (request : BuildRequest F) : site.Accounted settings parallel (fun _ => ¬ site.Populated) Search.world id
      (site.findBy asking build request) :=
  .bind (site.accounted_question build request) fun asked _ _ _ =>
    (accounted_answerBy (ha asked.2) hs asked.1).guarded

theorem accounted_finish {layout : Graph F α → StateM W (Except LayoutError (Graph F α))}
    (hlayout : ∀ g, site.Accounted settings parallel excused id BuildError.ofLayout (ExceptT.mk (layout g)))
    {start : List F} {found : Resolution F} (h : found.Grounded start) :
    site.Accounted settings parallel excused Search.world id (site.finish layout found) := by
  obtain ⟨g, hg⟩ := Graph.exists_assemble (α := α) h.ends
  refine .bind (.of_after fun σ => ?_) fun g _ _ _ => .bind site.accounted_check fun _ _ _ _ => ?_
  · rw [hg]
    exact .refl _
  · refine .bind (hlayout g).looking fun _ _ _ _ => .bind site.accounted_check fun _ _ _ _ => ?_
    exact .pure _

theorem accounted_runBy {asking : Option Nat → Asking W F}
    {layout : Graph F α → StateM W (Except LayoutError (Graph F α))}
    (ha : ∀ total, site.Asks build total parallel (asking total)) (hs : ∀ fs, (site.schedule fs).Perm fs)
    (hlayout : ∀ g, site.Accounted settings parallel (fun _ => ¬ site.Populated) id BuildError.ofLayout
      (ExceptT.mk (layout g)))
    (request : BuildRequest F) : site.Accounted settings parallel (fun _ => ¬ site.Populated) Search.world id
      (site.runBy asking layout build request) := by
  refine .bind (site.accounted_opening build) fun _ _ _ _ => ?_
  refine .bind (accounted_findBy ha hs request) fun found σ τ hfound => ?_
  obtain ⟨asked, ρ, -, hanswer⟩ := after_bind_ok.mp hfound
  exact accounted_finish hlayout ((ha asked.2).atOnce.grounded hs (guarded_ok_iff.mp hanswer))

/-- How a build may work: one step after the other, or asking about the functions of a round at once and drawing
the components at once. -/
inductive Works (site : Site W F α) (settings : LayoutSettings α) (build : Nat) (request : BuildRequest F) :
    Bool → Building W F (Graph F α) → Prop where
  | inTurn : Works site settings build request false (site.run settings build request)
  | atOnce {asking : Option Nat → Asking W F} {layout : Graph F α → StateM W (Except LayoutError (Graph F α))} :
      (∀ total, (site.surroundings build total).AtOnce (asking total)) →
      LayoutService.AtOnce ⟨site.cancelled, site.draw⟩ settings layout →
      Works site settings build request true (site.runBy asking layout build request)

variable {request : BuildRequest F} {step : Building W F (Graph F α)}

/-- The failure of a build is accounted for by what it saw. It may fail for want of rounds only if the index names
more functions than it says. -/
theorem Works.accounted (h : site.Works settings build request parallel step)
    (hs : ∀ fs, (site.schedule fs).Perm fs) :
    site.Accounted settings parallel (fun _ => ¬ site.Populated) Search.world id step := by
  cases h with
  | inTurn =>
    rw [← runBy_inTurn]
    exact accounted_runBy (fun total => site.asks_inTurn build total) hs (site.accounted_layout settings) request
  | atOnce ha hlayout =>
    exact accounted_runBy (fun total => asks_atOnce (ha total)) hs (accounted_drawnAtOnce hlayout) request

/-- The last thing that a build does before it succeeds is to check that it need not stop. -/
theorem Works.checked (h : site.Works settings build request parallel step) {σ τ : Search W F} {g : Graph F α}
    (hstep : step.after σ = (.ok g, τ)) :
    ∃ w, (site.cancelled.run w).1 = false ∧ τ.world = (site.cancelled.run w).2 := by
  have hfinish : ∃ layout found ρ, (site.finish layout found).after ρ = (.ok g, τ) := by
    cases h with
    | inTurn =>
      rw [← runBy_inTurn] at hstep
      obtain ⟨_, _, -, hfound⟩ := after_bind_ok.mp hstep
      obtain ⟨found, ρ, -, hfinish⟩ := after_bind_ok.mp hfound
      exact ⟨_, found, ρ, hfinish⟩
    | atOnce _ _ =>
      obtain ⟨_, _, -, hfound⟩ := after_bind_ok.mp hstep
      obtain ⟨found, ρ, -, hfinish⟩ := after_bind_ok.mp hfound
      exact ⟨_, found, ρ, hfinish⟩
  obtain ⟨layout, found, ρ, hfinish⟩ := hfinish
  obtain ⟨_, _, -, hfinish⟩ := after_bind_ok.mp hfinish
  obtain ⟨_, _, -, hfinish⟩ := after_bind_ok.mp hfinish
  obtain ⟨drawn, ρ', -, hfinish⟩ := after_bind_ok.mp hfinish
  obtain ⟨_, ρ'', hcheck, hpure⟩ := after_bind_ok.mp hfinish
  cases hpure
  rw [after_checkCancelled] at hcheck
  cases hstop : (site.cancelled.run ρ'.world).1 with
  | true =>
    rw [hstop] at hcheck
    cases hcheck
  | false =>
    rw [hstop] at hcheck
    cases hcheck
    exact ⟨ρ'.world, hstop, rfl⟩

end Site

end CallChart
