import CallChart.Proofs.BuildLooks
import CallChart.Proofs.Traffic

/-! A build that is cancelled before it has checked for the last time comes to no result, at whatever moment of its
work it is cancelled. -/
namespace CallChart

variable {X F α : Type}

namespace Floor

/-- What may change on the floor from one moment to the next while a build works. -/
inductive Next : Floor X F α → Floor X F α → Prop where
  | happens (floor : Floor X F α) (happening : Happening) : Next floor (floor.after happening)
  | outside (floor : Floor X F α) (x : X) : Next floor { floor with outside := x }
  | told (floor : Floor X F α) {event : BuildEvent} : event.isLast = false →
      Next floor { floor with events := floor.events ++ [event] }

/-- From one moment to a later one. -/
def Leads : Floor X F α → Floor X F α → Prop := Relation.ReflTransGen Next

/-- Between two moments no result was stored, and no build was told to be completed. -/
structure Resultless (floor floor' : Floor X F α) : Prop where
  latest : floor'.desk.published = floor.desk.published
  untold : ∃ told, floor'.events = floor.events ++ told ∧ ∀ build nodes edges, .completed build nodes edges ∉ told

variable {floor floor' floor'' : Floor X F α} {ticket : Ticket}

theorem Resultless.refl (floor : Floor X F α) : floor.Resultless floor :=
  ⟨rfl, [], (List.append_nil _).symm, fun _ _ _ => List.not_mem_nil⟩

theorem Resultless.trans (h : floor.Resultless floor') (h' : floor'.Resultless floor'') :
    floor.Resultless floor'' := by
  obtain ⟨told, hevents, hnone⟩ := h.untold
  obtain ⟨told', hevents', hnone'⟩ := h'.untold
  refine ⟨h'.latest.trans h.latest, told ++ told', ?_, fun build nodes edges hmem => ?_⟩
  · rw [hevents', hevents, List.append_assoc]
  · rcases List.mem_append.mp hmem with hmem | hmem
    · exact hnone _ _ _ hmem
    · exact hnone' _ _ _ hmem

theorem resultless_told (floor : Floor X F α) {event : BuildEvent}
    (h : ∀ build nodes edges, event ≠ .completed build nodes edges) :
    floor.Resultless { floor with events := floor.events ++ [event] } :=
  ⟨rfl, [event], rfl, fun _ _ _ hmem => h _ _ _ (List.mem_singleton.mp hmem).symm⟩

/-- A flag that is raised stays raised. -/
theorem Next.cancelled (h : floor.Next floor') (hraised : floor.desk.isCancelled ticket = true) :
    floor'.desk.isCancelled ticket = true := by
  have hcurrent := (floor.desk.isCancelled_cancelCurrent ticket).mpr (.inl hraised)
  cases h with
  | happens happening =>
    cases happening with
    | cancel => exact hcurrent
    | register => exact hcurrent
    | edit file => exact hraised
  | outside x => exact hraised
  | told _ => exact hraised

theorem Next.resultless (h : floor.Next floor') : floor.Resultless floor' := by
  cases h with
  | happens happening =>
    have hstopped : floor.desk.cancelCurrent.published = floor.desk.published := by rw [floor.desk.cancelCurrent_eq]
    refine ⟨?_, [], ?_, fun _ _ _ => List.not_mem_nil⟩
    · cases happening with
      | cancel => exact hstopped
      | register => rfl
      | edit file => rfl
    · rw [List.append_nil]
      cases happening <;> rfl
  | outside x => exact ⟨rfl, [], (List.append_nil _).symm, fun _ _ _ => List.not_mem_nil⟩
  | told hlast =>
    refine floor.resultless_told fun build nodes edges heq => ?_
    rw [heq] at hlast
    cases hlast

theorem Leads.cancelled (h : floor.Leads floor') (hraised : floor.desk.isCancelled ticket = true) :
    floor'.desk.isCancelled ticket = true := by
  induction h with
  | refl => exact hraised
  | tail _ hnext ih => exact hnext.cancelled ih

theorem Leads.resultless (h : floor.Leads floor') : floor.Resultless floor' := by
  induction h with
  | refl => exact .refl floor
  | tail _ hnext ih => exact ih.trans hnext.resultless

theorem leads_serve {β : Type} (service : StateM X (β × List Happening)) (floor : Floor X F α) :
    floor.Leads ((Floor.serve service).run floor).2 :=
  Floor.serve_keeps (I := floor.Leads) (K := fun _ => True)
    (fun later happening _ hlater => hlater.tail (.happens later happening))
    (.single (.outside floor _)) fun _ _ => trivial

end Floor

variable [Handle F] [Scalar α]

namespace Services

variable {services : Services X F α} {ticket : Ticket} {floor floor' : Floor X F α}

omit [Scalar α] in
/-- Whatever a build looks at, time goes on. -/
theorem leads_sees {look : Look F α} (h : (services.site ticket).Sees floor look floor') : floor.Leads floor' := by
  cases h with
  | checked => exact Floor.leads_serve services.idle floor
  | dated => exact Floor.leads_serve services.idle floor
  | listed scope => exact Floor.leads_serve (services.functions scope) floor
  | asked coverage f => exact Floor.leads_serve (services.ask coverage f) floor
  | drew request => exact Floor.leads_serve (services.draw request) floor
  | told _ hlast => exact .single (.told floor hlast)

omit [Scalar α] in
theorem leads_passes {looks : List (Look F α)} (h : (services.site ticket).Passes floor looks floor') :
    floor.Leads floor' := by
  induction h with
  | nil => exact .refl
  | cons hsees _ ih => exact (leads_sees hsees).trans ih

/-- No more functions are named in the index's answers than it says there are. -/
def Populated (services : Services X F α) : Prop :=
  ∃ names : List F, names.length ≤ services.population ∧ ∀ x coverage f found,
    ((services.ask coverage f).run x).1.1 = .ok found → ∀ g ∈ found, Listed names g

/-- Services that answer; but whenever the index was asked about a function, the build has been cancelled. -/
def interrupting (index : CallIndex F) (draw : LayoutRequest → Except LayoutError (RawLayout α)) : Services X F α :=
  { answering index draw with ask := fun coverage f => pure (index.neighbours coverage f, [.cancel]) }

omit [Scalar α] in
theorem populated_interrupting (index : CallIndex F) (draw : LayoutRequest → Except LayoutError (RawLayout α)) :
    (interrupting (X := X) index draw).Populated := by
  obtain ⟨names, hlength, hnames⟩ := index.listed
  exact ⟨names, hlength, fun _ => hnames⟩

variable {settings : LayoutSettings α} {request : BuildRequest F} {parallel : Bool}
  {step : Building (Floor X F α) F (Graph F α)} {cache : Cache F} {moment : Floor X F α}

theorem leads_work (h : (services.site ticket).Works settings ticket.build request parallel step)
    (floor : Floor X F α) (cache : Cache F) : floor.Leads (step.after ⟨floor, cache, 0⟩).2.world := by
  have haccounted := h.accounted fun _ => .refl _
  rcases hstep : step.after ⟨floor, cache, 0⟩ with ⟨e | g, τ⟩
  · obtain ⟨looks, hpasses, -⟩ := haccounted.error hstep
    exact leads_passes hpasses
  · obtain ⟨looks, hpasses, -⟩ := haccounted.ok hstep
    exact leads_passes hpasses

/-- The last check finds a flag that was raised at any moment before it. -/
theorem failed_of_cancelled (h : (services.site ticket).Works settings ticket.build request parallel step)
    (hlater : moment.Leads (step.after ⟨floor, cache, 0⟩).2.world)
    (hcancelled : moment.desk.isCancelled ticket = true) :
    ∃ e, (step.after ⟨floor, cache, 0⟩).1 = .error e ∧ (services.Populated →
      (services.site ticket).Accounts settings parallel floor (step.after ⟨floor, cache, 0⟩).2.world e) := by
  have hraised := hlater.cancelled hcancelled
  rcases hstep : step.after ⟨floor, cache, 0⟩ with ⟨e | g, τ⟩
  · refine ⟨e, rfl, fun hpopulated => ?_⟩
    obtain ⟨looks, hpasses, hcause⟩ := (h.accounted fun _ => .refl _).error hstep
    obtain ⟨names, hlength, hnames⟩ := hpopulated
    have hsite : (services.site ticket).Populated := ⟨names, hlength, fun floor => hnames floor.outside⟩
    exact ⟨looks, hpasses, hcause.resolve_left fun hnot => hnot hsite⟩
  · obtain ⟨w, hgoing, hlast⟩ := h.checked hstep
    rw [hstep, hlast] at hraised
    exact absurd (hgoing.symm.trans hraised) Bool.false_ne_true

end Services

namespace Builder

omit [Handle F] [Scalar α] in
theorem closingEvent_ne_completed (build : Nat) (e : BuildError) (other nodes edges : Nat) :
    closingEvent (F := F) (α := α) build (.error e) ≠ .completed other nodes edges := by
  intro h
  cases e <;> cases h

omit [Scalar α] in
/-- A build that has failed is ended without a result. -/
theorem conclude_error (ticket : Ticket) (e : BuildError) (b : Builder X F α) :
    ((conclude ticket (.error e)).run b).1 = .error e ∧
      b.floor.Resultless ((conclude ticket (.error e)).run b).2.floor := by
  rw [run_conclude]
  have hfinish : (b.floor.desk.finish ticket.flag).published = b.floor.desk.published := by
    unfold Desk.finish
    split <;> rfl
  refine ⟨rfl, hfinish, _, rfl, fun build nodes edges hmem => ?_⟩
  exact closingEvent_ne_completed _ e _ _ _ (List.mem_singleton.mp hmem).symm

/-- Whatever is asked for, whatever the services answer and the cache knows: if the flag of a build is raised at any
moment that leads to the end of its work, as all moments of its work do, then the build fails, no build is told to
be completed, and the latest result stays what it was. If the index names no more functions than it says, the looks
of the build account for its failure: all were fine before the last one, at which the flag was found raised, or the
index or the layout service had no answer to go on with. In the second statement the functions of a round may be asked
about and the components be drawn at once; then some look is the cause. -/
theorem cancelled_without_result {X F α : Type} [Handle F] [Scalar α] :
    (∀ (b : Builder X F α) request (moment : Floor X F α),
      let ticket := (register.run b).1
      let begun := (register.run b).2
      let worked := ((work b.services ticket request).run begun).2
      let ended := (build request).run b
      moment.Leads worked.floor → moment.desk.isCancelled ticket = true →
      ∃ e, ended.1 = .error e ∧ b.floor.Resultless ended.2.floor ∧ begun.floor.Leads worked.floor ∧
        (b.services.Populated → (b.services.site ticket).Accounts b.settings false begun.floor worked.floor e)) ∧
    ∀ (services : Services X F α) (ticket : Ticket) settings request parallel step,
      (services.site ticket).Works settings ticket.build request parallel step →
      ∀ (floor : Floor X F α) (cache : Cache F) (moment : Floor X F α) (b : Builder X F α),
        let worked := step.after ⟨floor, cache, 0⟩
        let ended := (conclude ticket worked.1).run b
        moment.Leads worked.2.world → moment.desk.isCancelled ticket = true →
        ∃ e, ended.1 = .error e ∧ floor.Resultless worked.2.world ∧ b.floor.Resultless ended.2.floor ∧
          floor.Leads worked.2.world ∧
            (services.Populated → (services.site ticket).Accounts settings parallel floor worked.2.world e) := by
  have hall (services : Services X F α) (ticket : Ticket) (settings : LayoutSettings α) (request : BuildRequest F)
      (parallel : Bool) (step : Building (Floor X F α) F (Graph F α))
      (hworks : (services.site ticket).Works settings ticket.build request parallel step) (floor : Floor X F α)
      (cache : Cache F) (moment : Floor X F α) (b : Builder X F α)
      (hlater : moment.Leads (step.after ⟨floor, cache, 0⟩).2.world)
      (hcancelled : moment.desk.isCancelled ticket = true) :
      ∃ e, ((conclude ticket (step.after ⟨floor, cache, 0⟩).1).run b).1 = .error e ∧
        floor.Resultless (step.after ⟨floor, cache, 0⟩).2.world ∧
        b.floor.Resultless ((conclude ticket (step.after ⟨floor, cache, 0⟩).1).run b).2.floor ∧
        floor.Leads (step.after ⟨floor, cache, 0⟩).2.world ∧ (services.Populated →
          (services.site ticket).Accounts settings parallel floor (step.after ⟨floor, cache, 0⟩).2.world e) := by
    obtain ⟨e, hfailed, haccounts⟩ := Services.failed_of_cancelled hworks hlater hcancelled
    have hleads := Services.leads_work hworks floor cache
    rw [hfailed]
    obtain ⟨hended, hresultless⟩ := conclude_error ticket e b
    exact ⟨e, hended, hleads.resultless, hresultless, hleads, haccounts⟩
  refine ⟨?_, hall⟩
  intro b request moment ticket begun worked ended hlater hcancelled
  obtain ⟨e, hended, hwork, hconclude, hleads, haccounts⟩ :=
    hall b.services ticket b.settings request false _ .inTurn begun.floor begun.cache moment worked hlater hcancelled
  have hregister : b.floor.Resultless begun.floor :=
    (Floor.Next.happens b.floor .register).resultless
  exact ⟨e, hended, hregister.trans (hwork.trans hconclude), hleads, haccounts⟩

/-- A function that calls itself is asked about, and the build is cancelled while the index answers. It was the last
question, and a single node needs no drawing, so only the checks of the build itself are left to find it. The same
when things may be done at once. -/
theorem last_question_cancelled :
    let main := SourceFunction.named "main"
    let services : Services Unit SourceFunction Rat :=
      .interrupting (.ofCalls [⟨main, main⟩]) fun request => .ok (.pinned ⟨0, 0⟩ request)
    let b : Builder Unit SourceFunction Rat := .start services .standard (.start none) ()
    let ticket := (register.run b).1
    let begun := (register.run b).2
    let site := b.services.site ticket
    let request : BuildRequest SourceFunction := .focus [main] .upstream
    let worked := ((work b.services ticket request).run begun).2
    let ended := (build request).run b
    let step := site.runBy (fun total => (site.surroundings ticket.build total).inTurn) (site.layout .standard)
      ticket.build request
    let worked' := step.after ⟨begun.floor, begun.cache, 0⟩
    let ended' := (conclude ticket worked'.1).run begun
    (ended.2.floor.events matches [.started 1, .progress 1 1 none, .cancelled 1]) = true ∧
      (∃ e, ended.1 = .error e ∧ b.floor.Resultless ended.2.floor ∧
        site.Accounts b.settings false begun.floor worked.floor e) ∧
      ∃ e, ended'.1 = .error e ∧ begun.floor.Resultless worked'.2.world ∧
        site.Accounts .standard true begun.floor worked'.2.world e := by
  intro main services b ticket begun site request worked ended step worked' ended'
  have hevents : (ended.2.floor.events matches [.started 1, .progress 1 1 none, .cancelled 1]) = true := by
    decide +kernel
  have hraised : worked.floor.desk.isCancelled ticket = true := by decide +kernel
  have hraised' : worked'.2.world.desk.isCancelled ticket = true := by decide +kernel
  have hpopulated : b.services.Populated := Services.populated_interrupting _ _
  -- what is left to do is the same for all builders, and slow for this one
  clear_value b
  have hworks : site.Works .standard ticket.build request true step :=
    .atOnce (fun total => (site.surroundings ticket.build total).atOnce_inTurn)
      (LayoutService.atOnce_arrange _ .standard)
  obtain ⟨e, hended, hresultless, -, haccounts⟩ := cancelled_without_result.1 b request worked.floor .refl hraised
  obtain ⟨e', hended', hresultless', -, -, haccounts'⟩ := cancelled_without_result.2 b.services ticket .standard request
    true step hworks begun.floor begun.cache worked'.2.world begun .refl hraised'
  exact ⟨hevents, ⟨e, hended, hresultless, haccounts hpopulated⟩, e', hended', hresultless', haccounts' hpopulated⟩

end Builder
end CallChart
