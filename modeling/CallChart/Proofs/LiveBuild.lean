import CallChart.Proofs.Traffic

/-! Of all builds that were begun, only the newest goes on undisturbed: each of the others has finished or
is cancelled. -/
namespace CallChart

variable {G : Type}

namespace Traffic

variable {t u : Traffic G} {ticket other : Ticket} {stage : Stage}

/-- Tickets have numbers and flags of their own, no flag is raised before it is handed out, the running build is
the newest one or has been taken over from, and whatever was begun before it has finished or is cancelled. -/
structure Registered (t : Traffic G) : Prop where
  counted {ticket : Ticket} : t.Begun ticket → ticket.build ≤ t.desk.started
  newest : (∀ ticket, ¬ t.Begun ticket) ∨ ∃ ticket, t.Begun ticket ∧ ticket.build = t.desk.started
  created {ticket : Ticket} : t.Begun ticket → ticket.flag.number < t.desk.flags.created
  sameBuild {ticket other : Ticket} : t.Begun ticket → t.Begun other → ticket.build = other.build →
    ticket = other
  sameFlag {ticket other : Ticket} : t.Begun ticket → t.Begun other → ticket.flag = other.flag →
    ticket = other
  raised {ticket : Ticket} : t.desk.isCancelled ticket = true → ticket.flag.number < t.desk.flags.created
  entering {ticket : Ticket} : t.entering = some ticket → ticket.build = t.desk.started + 1 ∧
    t.desk.running = some ticket.flag ∧ ticket.flag.number < t.desk.flags.created ∧
      ∀ other, t.Begun other → other.flag ≠ ticket.flag
  running {flag : CancelFlag} : t.entering = none → t.desk.running = some flag →
    ∃ ticket, t.Begun ticket ∧ ticket.build = t.desk.started ∧ ticket.flag = flag
  idle {ticket : Ticket} : t.entering = none → t.desk.running = none → t.Begun ticket →
    ticket.build = t.desk.started → t.Finished ticket
  replaced {ticket : Ticket} : t.Begun ticket → (ticket.build = t.desk.started → t.entering ≠ none) →
    t.Finished ticket ∨ t.desk.isCancelled ticket = true

theorem registered_start : (start : Traffic G).Registered where
  counted h := absurd rfl h
  newest := .inl fun _ h => h rfl
  created h := absurd rfl h
  sameBuild h := absurd rfl h
  sameFlag h := absurd rfl h
  raised := nofun
  entering := nofun
  running := nofun
  idle _ _ h := absurd rfl h
  replaced h := absurd rfl h

namespace Registered

/-- No build has the number that the next one gets. -/
theorem not_begun_next (h : t.Registered) (hnext : ticket.build = t.desk.started + 1) : ¬ t.Begun ticket :=
  fun hb => Nat.not_succ_le_self _ (hnext ▸ h.counted hb)

/-- The flag of the running build was handed out. -/
theorem created_of_running (h : t.Registered) (hrunning : t.desk.running = some ticket.flag) :
    ticket.flag.number < t.desk.flags.created := by
  cases he : t.entering with
  | none =>
    obtain ⟨newest, hb, -, hflag⟩ := h.running he hrunning
    exact hflag ▸ h.created hb
  | some entered =>
    obtain ⟨-, hentered, hcreated, -⟩ := h.entering he
    exact Option.some.inj (hentered.symm.trans hrunning) ▸ hcreated

/-- A request to stop raises no flag before it is handed out. -/
theorem created_of_cancelCurrent (h : t.Registered) (hc : t.desk.cancelCurrent.isCancelled ticket = true) :
    ticket.flag.number < t.desk.flags.created :=
  ((t.desk.isCancelled_cancelCurrent ticket).mp hc).elim h.raised h.created_of_running

/-- A build that comes to a later stage leaves the registration as it is. -/
theorem put (h : t.Registered) (hbegun : t.Begun ticket) (hfinished : t.Finished ticket → stage.IsFinished) :
    (t.put ticket stage).Registered where
  counted hb := h.counted ((begun_put_iff hbegun).mp hb)
  newest := h.newest.imp (fun hnone _ hb => hnone _ ((begun_put_iff hbegun).mp hb))
    fun ⟨newest, hb, hlast⟩ => ⟨newest, (begun_put_iff hbegun).mpr hb, hlast⟩
  created hb := h.created ((begun_put_iff hbegun).mp hb)
  sameBuild hb hb' := h.sameBuild ((begun_put_iff hbegun).mp hb) ((begun_put_iff hbegun).mp hb')
  sameFlag hb hb' := h.sameFlag ((begun_put_iff hbegun).mp hb) ((begun_put_iff hbegun).mp hb')
  raised := h.raised
  entering he := by
    obtain ⟨hbuild, hrunning, hcreated, hnew⟩ := h.entering he
    exact ⟨hbuild, hrunning, hcreated, fun _ hb => hnew _ ((begun_put_iff hbegun).mp hb)⟩
  running he hr := by
    obtain ⟨newest, hb, hlast⟩ := h.running he hr
    exact ⟨newest, (begun_put_iff hbegun).mpr hb, hlast⟩
  idle he hr hb hlast := (h.idle he hr ((begun_put_iff hbegun).mp hb) hlast).put hfinished
  replaced hb hold := (h.replaced ((begun_put_iff hbegun).mp hb) hold).imp_left fun hdone => hdone.put hfinished

/-- What is registered does not depend on what is published and what the runs come to. -/
theorem congr (h : t.Registered) (hstage : u.stage = t.stage) (hentering : u.entering = t.entering)
    (hdesk : u.desk = { t.desk with published := u.desk.published }) : u.Registered := by
  obtain ⟨desk, entering, pending, stage, result⟩ := u
  dsimp only at hstage hentering hdesk
  subst hstage hentering
  rw [hdesk]
  exact ⟨h.counted, h.newest, h.created, h.sameBuild, h.sameFlag, h.raised, h.entering, h.running, h.idle, h.replaced⟩

/-- Whoever was begun has finished or is cancelled when the next build is registered. -/
theorem finished_or_isCancelled_register (h : t.Registered) (he : t.entering = none) (hb : t.Begun ticket) :
    t.Finished ticket ∨ t.desk.register.2.isCancelled ticket = true := by
  rw [Desk.isCancelled_register, Desk.isCancelled_cancelCurrent, ← or_assoc]
  -- the newest build until now was the running one, whose flag is raised, or had finished
  by_cases hlast : ticket.build = t.desk.started
  · cases hrunning : t.desk.running with
    | none => exact .inl (.inl (h.idle he hrunning hb hlast))
    | some flag =>
      obtain ⟨newest, hnewest, hbuild, rfl⟩ := h.running he hrunning
      obtain rfl := h.sameBuild hb hnewest (hlast.trans hbuild.symm)
      exact .inr rfl
  · exact .inl (h.replaced hb fun heq => absurd heq hlast)

/-- The flag of the next build was not handed out before. -/
theorem flag_register_ne (h : t.Registered) (hb : t.Begun ticket) : ticket.flag ≠ t.desk.register.1.flag := by
  intro heq
  have hlt := h.created hb
  rw [heq, Desk.flag_register] at hlt
  exact Nat.lt_irrefl _ hlt

theorem not_isCancelled_register (h : t.Registered) : t.desk.register.2.isCancelled t.desk.register.1 = false := by
  rw [Desk.isCancelled_register, Bool.eq_false_iff]
  intro hc
  have hlt := h.created_of_cancelCurrent hc
  rw [Desk.flag_register] at hlt
  exact Nat.lt_irrefl _ hlt

theorem takeOver (h : t.Registered) (he : t.entering = none) :
    Registered { t with
      desk := { t.desk.register.2 with started := t.desk.started }
      entering := some t.desk.register.1 } := by
  have hcreated : t.desk.register.2.flags.created = t.desk.flags.created + 1 := t.desk.created_register
  refine ⟨h.counted, h.newest, ?_, h.sameBuild, h.sameFlag, ?_, ?_, nofun, nofun, ?_⟩
  · intro ticket hb
    exact hcreated ▸ Nat.lt_succ_of_lt (h.created hb)
  · intro ticket hc
    have hcurrent := (t.desk.isCancelled_register ticket).symm.trans hc
    exact hcreated ▸ Nat.lt_succ_of_lt (h.created_of_cancelCurrent hcurrent)
  · rintro ticket ⟨⟩
    refine ⟨rfl, rfl, ?_, fun other hb => h.flag_register_ne hb⟩
    rw [Desk.flag_register]
    exact hcreated ▸ Nat.lt_succ_self _
  · exact fun hb _ => h.finished_or_isCancelled_register he hb

theorem count (h : t.Registered) (he : t.entering = some ticket) : Registered (Traffic.put
    { t with desk := { t.desk with started := ticket.build }, entering := none } ticket .running) := by
  obtain ⟨hbuild, hrunning, hcreated, hother⟩ := h.entering he
  let counted : Traffic G := { t with desk := { t.desk with started := ticket.build }, entering := none }
  let next : Traffic G := counted.put ticket .running
  have hbegun (other : Ticket) : next.Begun other ↔ other = ticket ∨ t.Begun other := by
    by_cases heq : other = ticket
    · exact iff_of_true (heq ▸ begun_of_stage (stage_put_self _ ticket .running)) (.inl heq)
    · rw [or_iff_right heq, Begun, Begun, stage_put_of_ne _ _ heq]
  have hticket : next.Begun ticket := (hbegun ticket).mpr (.inl rfl)
  have hlt {other : Ticket} (hb : t.Begun other) : other.build < ticket.build :=
    hbuild ▸ Nat.lt_succ_of_le (h.counted hb)
  have hentered {other : Ticket} : next.entering ≠ some other := (Option.some_ne_none other).symm
  refine ⟨?_, .inr ⟨ticket, hticket, rfl⟩, ?_, ?_, ?_, h.raised, fun hin => absurd hin hentered, ?_, ?_, ?_⟩
  · intro other hb
    rcases (hbegun other).mp hb with rfl | hb
    · exact Nat.le_refl _
    · exact Nat.le_of_lt (hlt hb)
  · intro other hb
    rcases (hbegun other).mp hb with rfl | hb
    · exact hcreated
    · exact h.created hb
  · intro a b ha hb heq
    rcases (hbegun a).mp ha with hnew | hold <;> rcases (hbegun b).mp hb with hnew' | hold'
    · exact hnew.trans hnew'.symm
    · exact absurd (hnew ▸ heq.symm) (Nat.ne_of_lt (hlt hold'))
    · exact absurd (hnew' ▸ heq) (Nat.ne_of_lt (hlt hold))
    · exact h.sameBuild hold hold' heq
  · intro a b ha hb heq
    rcases (hbegun a).mp ha with hnew | hold <;> rcases (hbegun b).mp hb with hnew' | hold'
    · exact hnew.trans hnew'.symm
    · exact absurd (hnew ▸ heq.symm) (hother b hold')
    · exact absurd (hnew' ▸ heq) (hother a hold)
    · exact h.sameFlag hold hold' heq
  · intro running _ hr
    have hsame : ticket.flag = running := Option.some.inj (hrunning.symm.trans hr)
    exact ⟨ticket, hticket, rfl, hsame⟩
  · intro _ _ hr
    exact absurd (hrunning.symm.trans hr) (Option.some_ne_none _)
  · intro other hb hold
    rcases (hbegun other).mp hb with rfl | hb
    · exact absurd rfl (hold rfl)
    · have hnotlast : other.build = t.desk.started → t.entering ≠ none := fun _ => he ▸ Option.some_ne_none _
      refine (h.replaced hb hnotlast).imp_left ?_
      rintro ⟨stage, hstage, hdone⟩
      have hne : other ≠ ticket := fun heq => Nat.ne_of_lt (hlt hb) (congrArg Ticket.build heq)
      exact ⟨stage, (stage_put_of_ne _ _ hne).trans hstage, hdone⟩

theorem cancel (h : t.Registered) (he : t.entering = none) :
    Registered { t with desk := t.desk.cancelCurrent } := by
  have hrunning : t.desk.cancelCurrent.running = t.desk.running := by rw [Desk.cancelCurrent_eq]
  have hstarted : t.desk.cancelCurrent.started = t.desk.started := by rw [Desk.cancelCurrent_eq]
  refine ⟨?_, ?_, ?_, h.sameBuild, h.sameFlag, ?_, ?_, ?_, ?_, ?_⟩
  · exact fun hb => hstarted ▸ h.counted hb
  · dsimp only
    rw [hstarted]
    exact h.newest
  · exact fun hb => t.desk.created_cancelCurrent ▸ h.created hb
  · exact fun hc => t.desk.created_cancelCurrent ▸ h.created_of_cancelCurrent hc
  · intro ticket hentering
    rw [he] at hentering
    cases hentering
  · intro flag _ hr
    dsimp only
    rw [hstarted]
    exact h.running he (hrunning.symm.trans hr)
  · intro ticket _ hr hb hlast
    exact h.idle he (hrunning.symm.trans hr) hb (hlast.trans hstarted)
  · intro ticket hb hold
    refine (h.replaced hb fun hlast => hold (hlast.trans hstarted.symm)).imp_right fun hc => ?_
    exact t.desk.isCancelled_cancelCurrent ticket |>.mpr (.inl hc)

/-- A build that is not the newest is not the running one, so to finish it changes nothing. -/
theorem finish_eq_of_lt (h : t.Registered) (hb : t.Begun ticket) (hlt : ticket.build < t.desk.started) :
    t.desk.finish ticket.flag = t.desk := by
  refine Desk.finish_of_ne fun hrunning => ?_
  cases he : t.entering with
  | none =>
    obtain ⟨newest, hnewest, hbuild, hflag⟩ := h.running he hrunning
    obtain rfl := h.sameFlag hnewest hb hflag
    exact absurd hbuild (Nat.ne_of_lt hlt)
  | some entered =>
    obtain ⟨-, hflag, -, hnew⟩ := h.entering he
    exact hnew ticket hb (Option.some.inj (hrunning.symm.trans hflag))

theorem finish (h : t.Registered) (he : t.entering = none) (hstage : t.stage ticket = some .ended) :
    (Traffic.put { t with desk := t.desk.finish ticket.flag } ticket .finished).Registered := by
  have hbegun : t.Begun ticket := begun_of_stage hstage
  have hput : (t.put ticket .finished).Registered := h.put hbegun fun _ => ⟨nofun, nofun⟩
  by_cases hlast : t.desk.running = some ticket.flag
  · obtain ⟨newest, hnewest, hbuild, hflag⟩ := h.running he hlast
    obtain rfl := h.sameFlag hnewest hbegun hflag
    have hdesk : t.desk.finish newest.flag = { t.desk with running := none } := if_pos hlast
    rw [hdesk]
    refine ⟨hput.counted, hput.newest, hput.created, hput.sameBuild, hput.sameFlag, hput.raised, ?_, nofun, ?_,
      hput.replaced⟩
    · intro entered hentering
      exact absurd (he.symm.trans hentering) (Option.some_ne_none _).symm
    · intro other _ _ hb hother
      obtain rfl := h.sameBuild ((begun_put_iff hbegun).mp hb) hnewest (hother.trans hbuild.symm)
      exact ⟨.finished, stage_put_self _ _ _, nofun, nofun⟩
  · rw [Desk.finish_of_ne hlast]
    exact hput

theorem step (h : t.Registered) (hstep : Step t u) : u.Registered := by
  cases hstep with
  | takeOver he => exact h.takeOver he
  | count he => exact h.count he
  | cancel he => exact h.cancel he
  | stop result hstage =>
    refine (h.congr (u := t.settle _ result) rfl rfl rfl).put (begun_of_stage hstage) fun hdone => ?_
    exact absurd hdone (not_finished_of_stage hstage fun hrunning => hrunning.1 rfl)
  | finish he hstage => exact h.finish he hstage
  | refuse _ hstage _ hanswer =>
    rw [Desk.publish_of_refused hanswer]
    exact h.put (begun_of_stage hstage) fun _ => ⟨nofun, nofun⟩
  | @clear ticket g _ hstage =>
    refine (h.congr (u := { t with pending := (t.desk.publish ticket.build g).2.published }) rfl rfl rfl).put
      (begun_of_stage hstage) fun _ => ⟨nofun, nofun⟩
  | store hstage =>
    refine (h.congr (u := { t with desk := { t.desk with published := t.pending } }) rfl rfl rfl).put
      (begun_of_stage hstage) fun _ => ⟨nofun, nofun⟩

end Registered

theorem Reachable.registered (h : t.Reachable) : t.Registered := by
  induction h with
  | refl => exact registered_start
  | tail _ hstep ih => exact ih.step hstep

namespace Registered

/-- The newest build is the last one counted. -/
theorem newest_iff (h : t.Registered) : t.Newest ticket ↔ t.Begun ticket ∧ ticket.build = t.desk.started := by
  constructor
  · rintro ⟨hb, hlast⟩
    refine ⟨hb, Nat.le_antisymm (h.counted hb) ?_⟩
    rcases h.newest with hnone | ⟨newest, hnewest, hbuild⟩
    · exact absurd hb (hnone ticket)
    · exact hbuild ▸ hlast newest hnewest
  · rintro ⟨hb, hbuild⟩
    exact ⟨hb, fun other hother => hbuild ▸ h.counted hother⟩

theorem lt_of_not_newest (h : t.Registered) (hb : t.Begun ticket) (hold : ¬ t.Newest ticket) :
    ticket.build < t.desk.started :=
  Nat.lt_of_le_of_ne (h.counted hb) fun heq => hold (h.newest_iff.mpr ⟨hb, heq⟩)

/-- While no registration is half done, the running build is the newest one, or nothing if no build was
begun or the newest one has finished. -/
theorem running_cases (h : t.Registered) (he : t.entering = none) :
    (∃ ticket, t.Newest ticket ∧ t.desk.running = some ticket.flag) ∨
      t.desk.running = none ∧ ((∀ ticket, ¬ t.Begun ticket) ∨ ∃ ticket, t.Newest ticket ∧ t.Finished ticket) := by
  cases hrunning : t.desk.running with
  | some flag =>
    obtain ⟨newest, hb, hbuild, rfl⟩ := h.running he hrunning
    exact .inl ⟨newest, h.newest_iff.mpr ⟨hb, hbuild⟩, rfl⟩
  | none =>
    refine .inr ⟨rfl, h.newest.imp_right ?_⟩
    rintro ⟨newest, hb, hbuild⟩
    exact ⟨newest, h.newest_iff.mpr ⟨hb, hbuild⟩, h.idle he hrunning hb hbuild⟩

/-- A request to stop raises no flag but that of the newest build. -/
theorem cancelled_or_newest (h : t.Registered) (hb : t.Begun ticket)
    (hcancelled : t.desk.cancelCurrent.isCancelled ticket = true) :
    t.desk.isCancelled ticket = true ∨ t.Newest ticket := by
  refine (t.desk.isCancelled_cancelCurrent ticket |>.mp hcancelled).imp_right fun hrunning => ?_
  cases he : t.entering with
  | none =>
    obtain ⟨newest, hnewest, hbuild, hflag⟩ := h.running he hrunning
    obtain rfl := h.sameFlag hnewest hb hflag
    exact h.newest_iff.mpr ⟨hb, hbuild⟩
  | some entered =>
    obtain ⟨-, hflag, -, hnew⟩ := h.entering he
    exact absurd (Option.some.inj (hrunning.symm.trans hflag)) (hnew ticket hb)

/-- The newest build is the running one until it has finished. -/
theorem running_of_newest (h : t.Registered) (he : t.entering = none) (hnewest : t.Newest ticket)
    (hunfinished : ¬ t.Finished ticket) : t.desk.running = some ticket.flag := by
  obtain ⟨hb, hbuild⟩ := h.newest_iff.mp hnewest
  cases hrunning : t.desk.running with
  | none => exact absurd (h.idle he hrunning hb hbuild) hunfinished
  | some flag =>
    obtain ⟨other, hother, hlast, rfl⟩ := h.running he hrunning
    rw [h.sameBuild hb hother (hbuild.trans hlast.symm)]

theorem newest_registered (h : t.Registered) : t.registered.Newest t.desk.register.1 := by
  refine ⟨begun_of_stage (stage_put_self _ _ .running), fun other hb => ?_⟩
  by_cases heq : other = t.desk.register.1
  · exact Nat.le_of_eq (congrArg Ticket.build heq)
  · rw [Begun, registered, stage_put_of_ne _ _ heq] at hb
    exact Nat.le_succ_of_le (h.counted hb)

end Registered

/-- At every moment, whatever the order of registrations, ends and requests to stop was: each build but the
newest has finished or is cancelled, and so has the newest while another one takes over; the running build
is the one that takes over, else the newest one, or nothing if none was begun or the newest one has finished;
to finish an older build changes nothing; and a request to stop reaches only the newest build. The newest build
is the one that a request to stop reaches and that leaves nothing running when it finishes. To register a build at
once is one of these orders: every build begun until then has finished or is cancelled, and the new one is the
newest, the running one and not cancelled. -/
theorem only_newest_undisturbed (h : t.Reachable) :
    (∀ ticket, t.Begun ticket → ¬ t.Newest ticket ∨ t.entering ≠ none →
      t.Finished ticket ∨ t.desk.isCancelled ticket = true) ∧
    (∀ ticket, t.entering = some ticket → t.desk.running = some ticket.flag) ∧
    (t.entering = none →
      (∃ ticket, t.Newest ticket ∧ t.desk.running = some ticket.flag) ∨
        t.desk.running = none ∧ ((∀ ticket, ¬ t.Begun ticket) ∨ ∃ ticket, t.Newest ticket ∧ t.Finished ticket)) ∧
    (∀ ticket, t.Begun ticket → ¬ t.Newest ticket → t.desk.finish ticket.flag = t.desk) ∧
    (∀ ticket, t.Begun ticket → t.desk.cancelCurrent.isCancelled ticket = true →
      t.desk.isCancelled ticket = true ∨ t.Newest ticket) ∧
    (t.entering = none → ∀ ticket, t.Newest ticket → ¬ t.Finished ticket →
      t.desk.cancelCurrent.isCancelled ticket = true ∧ (t.desk.finish ticket.flag).running = none) ∧
    (t.entering = none →
      Run t t.registered ∧
      (∀ ticket, t.Begun ticket → t.Finished ticket ∨ t.desk.register.2.isCancelled ticket = true) ∧
      ¬ t.Begun t.desk.register.1 ∧ t.registered.Newest t.desk.register.1 ∧
      t.desk.register.2.running = some t.desk.register.1.flag ∧
      t.desk.register.2.isCancelled t.desk.register.1 = false) := by
  have hr := h.registered
  refine ⟨?_, fun ticket he => (hr.entering he).2.1, hr.running_cases, ?_,
    fun ticket hb hc => hr.cancelled_or_newest hb hc, ?_, fun he => ?_⟩
  · intro ticket hb hold
    refine hr.replaced hb fun hbuild => ?_
    rcases hold with hold | hentering
    · exact absurd (hr.newest_iff.mpr ⟨hb, hbuild⟩) hold
    · exact hentering
  · intro ticket hb hold
    exact hr.finish_eq_of_lt hb (hr.lt_of_not_newest hb hold)
  · intro he ticket hnewest hunfinished
    have hrunning := hr.running_of_newest he hnewest hunfinished
    refine ⟨(t.desk.isCancelled_cancelCurrent ticket).mpr (.inr hrunning), ?_⟩
    rw [Desk.finish, if_pos hrunning]
  · exact ⟨run_register he, fun ticket hb => hr.finished_or_isCancelled_register he hb, hr.not_begun_next rfl,
      hr.newest_registered, rfl, hr.not_isCancelled_register⟩

/-- A second build is registered while the first one runs, and goes on when the first one has ended. -/
theorem second_goes_on :
    ∃ t : Traffic Nat, t.Reachable ∧ ∃ first second : Ticket, t.Begun first ∧ t.Newest second ∧
      t.stage first = some .ended ∧ t.desk.isCancelled first = true ∧ t.desk.isCancelled second = false ∧
        t.desk.finish first.flag = t.desk ∧ t.desk.running = some second.flag := by
  let began : Traffic Nat := Traffic.registered start
  let first : Ticket := ⟨1, ⟨0⟩⟩
  let second : Ticket := ⟨2, ⟨1⟩⟩
  let t : Traffic Nat := (began.registered.settle first (.error .cancelled)).put first .ended
  have ht : t.Reachable :=
    ((run_register rfl).trans (run_register rfl)).tail (.stop _ (by decide))
  have hfirst : t.Begun first := begun_of_stage (stage_put_self _ first .ended)
  have hsecond : t.Begun second := begun_of_stage (stage_put_of_ne _ .ended (by decide))
  have hnewest : t.Newest second := ht.registered.newest_iff.mpr ⟨hsecond, rfl⟩
  have hold : ¬ t.Newest first := fun h => absurd (h.2 second hsecond) (by decide)
  obtain ⟨hreplaced, -, -, hfinish, -, -, -⟩ := only_newest_undisturbed ht
  have hcancelled := (hreplaced first hfirst (.inl hold)).resolve_left
    (not_finished_of_stage (stage_put_self _ first .ended) fun h => h.2 rfl)
  exact ⟨t, ht, first, second, hfirst, hnewest, stage_put_self _ _ _, hcancelled, by decide,
    hfinish first hfirst hold, rfl⟩

end Traffic
end CallChart
