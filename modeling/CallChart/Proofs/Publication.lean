import CallChart.Proofs.LiveBuild

/-! The published result is that of a build whose run succeeded, and only the result of a build that was begun
later replaces it. -/
namespace CallChart

variable {G : Type}

namespace Traffic

variable {t u : Traffic G} {ticket other : Ticket} {stage : Stage} {build : Nat} {g : G}

/-- A build was found not superseded. -/
def Admitted (t : Traffic G) (ticket : Ticket) : Prop :=
  t.stage ticket = some .cleared ∨ t.stage ticket = some .published

theorem Admitted.stage_ne (h : t.Admitted ticket) (hcleared : stage ≠ .cleared) (hpublished : stage ≠ .published) :
    t.stage ticket ≠ some stage := by
  intro heq
  rcases h with h | h
  · exact hcleared (Option.some.inj (heq.symm.trans h))
  · exact hpublished (Option.some.inj (heq.symm.trans h))

theorem Admitted.of_put_of_ne (h : (t.put ticket stage).Admitted other) (hne : other ≠ ticket) : t.Admitted other := by
  rwa [Admitted, stage_put_of_ne _ _ hne] at h

theorem Admitted.of_put (h : (t.put ticket stage).Admitted other) (hcleared : stage ≠ .cleared)
    (hpublished : stage ≠ .published) : t.Admitted other := by
  refine h.of_put_of_ne ?_
  rintro rfl
  exact h.stage_ne hcleared hpublished (stage_put_self _ _ _)

/-- Only the result of the build that is about to be published is ever stored. -/
theorem Step.published_eq_or (h : Step t u) : u.desk.published = t.desk.published ∨
    ∃ ticket, t.stage ticket = some .cleared ∧
      u = put { t with desk := { t.desk with published := t.pending } } ticket .published := by
  have hcancel : t.desk.cancelCurrent.published = t.desk.published := by rw [Desk.cancelCurrent_eq]
  cases h with
  | takeOver => exact .inl rfl
  | count => exact .inl rfl
  | cancel => exact .inl hcancel
  | stop => exact .inl rfl
  | @finish ticket => exact .inl (by rw [put, Desk.finish_eq])
  | refuse _ _ _ hanswer => exact .inl (by rw [put, Desk.publish_of_refused hanswer])
  | clear => exact .inl rfl
  | store hstage => exact .inr ⟨_, hstage, rfl⟩

/-- What is published is the result of a build that has come to be published, a build that is about to be
published is no older, it is its own result that waits to be stored, and only builds that succeeded get so far. -/
structure Keeping (t : Traffic G) : Prop where
  published {build : Nat} {g : G} : t.desk.published = some (build, g) →
    ∃ ticket, ticket.build = build ∧ t.stage ticket = some .published ∧ t.result ticket = some (.ok g)
  ahead {ticket : Ticket} {build : Nat} {g : G} : t.stage ticket = some .cleared →
    t.desk.published = some (build, g) → build ≤ ticket.build
  alone {ticket other : Ticket} : t.stage ticket = some .cleared → t.stage other = some .cleared → ticket = other
  waiting {ticket : Ticket} : t.stage ticket = some .cleared →
    ∃ g, t.pending = some (ticket.build, g) ∧ t.result ticket = some (.ok g)
  succeeded {ticket : Ticket} : t.Admitted ticket → ∃ g, t.result ticket = some (.ok g)

theorem keeping_start : (start : Traffic G).Keeping where
  published := nofun
  ahead := nofun
  alone := nofun
  waiting := nofun
  succeeded h := absurd h (not_or_intro nofun nofun)

namespace Keeping

/-- Of the desk only the published result matters. -/
theorem congr (h : t.Keeping) (hpublished : u.desk.published = t.desk.published) (hpending : u.pending = t.pending)
    (hstage : u.stage = t.stage) (hresult : u.result = t.result) : u.Keeping := by
  obtain ⟨desk, entering, pending, stage, result⟩ := u
  dsimp only at hpublished hpending hstage hresult
  subst hpending hstage hresult
  refine ⟨?_, ?_, h.alone, h.waiting, h.succeeded⟩
  · exact fun hp => h.published (hpublished.symm.trans hp)
  · exact fun hcleared hp => h.ahead hcleared (hpublished.symm.trans hp)

theorem settle (h : t.Keeping) (hstage : t.stage ticket = some .running) (result : Except BuildError G) :
    (t.settle ticket result).Keeping := by
  have hkept {other : Ticket} (hother : t.Admitted other) : (t.settle ticket result).result other = t.result other := by
    refine if_neg ?_
    rintro rfl
    exact hother.stage_ne Stage.noConfusion Stage.noConfusion hstage
  refine ⟨?_, h.ahead, h.alone, ?_, ?_⟩
  · intro build g hp
    obtain ⟨other, hbuild, hother, hok⟩ := h.published hp
    exact ⟨other, hbuild, hother, (hkept (.inr hother)).trans hok⟩
  · intro other hcleared
    obtain ⟨g, hpending, hok⟩ := h.waiting hcleared
    exact ⟨g, hpending, (hkept (.inl hcleared)).trans hok⟩
  · intro other hother
    obtain ⟨g, hok⟩ := h.succeeded hother
    exact ⟨g, (hkept hother).trans hok⟩

/-- A build that was not published and comes to a stage before that. -/
theorem put (h : t.Keeping) (hstage : ¬ t.Admitted ticket) (hcleared : stage ≠ .cleared)
    (hpublished : stage ≠ .published) : (t.put ticket stage).Keeping := by
  have hother {other : Ticket} (ha : (t.put ticket stage).Admitted other) :
      (t.put ticket stage).stage other = t.stage other :=
    stage_put_of_ne _ _ fun heq => hstage (heq ▸ ha.of_put hcleared hpublished)
  refine ⟨?_, ?_, ?_, fun hc => h.waiting ((hother (.inl hc)).symm.trans hc),
    fun ha => h.succeeded (ha.of_put hcleared hpublished)⟩
  · intro build g hp
    obtain ⟨other, hbuild, hreached, hok⟩ := h.published hp
    exact ⟨other, hbuild, stage_put_of_stage hreached fun heq => hstage (.inr heq), hok⟩
  · intro other build g hc hp
    exact h.ahead ((hother (.inl hc)).symm.trans hc) hp
  · intro a b ha hb
    exact h.alone ((hother (.inl ha)).symm.trans ha) ((hother (.inl hb)).symm.trans hb)

/-- A build that succeeded may come to any stage. -/
theorem succeeded_put (h : t.Keeping) (hresult : t.result ticket = some (.ok g))
    (ha : (t.put ticket stage).Admitted other) : ∃ g, t.result other = some (.ok g) := by
  by_cases heq : other = ticket
  · exact ⟨g, heq ▸ hresult⟩
  · exact h.succeeded (ha.of_put_of_ne heq)

theorem clear (h : t.Keeping) (hunlocked : t.Unlocked) (hresult : t.result ticket = some (.ok g))
    (hstage : ¬ t.Admitted ticket) (hanswer : (t.desk.publish ticket.build g).1 = true) :
    Keeping (Traffic.put { t with pending := (t.desk.publish ticket.build g).2.published } ticket .cleared) := by
  obtain ⟨hsuperseded, hpublish⟩ := Desk.publish_of_admitted hanswer
  rw [hpublish]
  let next : Traffic G := { t with pending := some (ticket.build, g) }
  have honly {other : Ticket} (hc : (next.put ticket .cleared).stage other = some .cleared) : other = ticket := by
    refine Decidable.byContradiction fun hne => ?_
    exact hunlocked other ((stage_put_of_ne _ _ hne).symm.trans hc)
  refine ⟨?_, ?_, fun ha hb => (honly ha).trans (honly hb).symm, ?_, h.succeeded_put hresult⟩
  · intro build g hp
    obtain ⟨other, hbuild, hreached, hok⟩ := h.published hp
    exact ⟨other, hbuild, stage_put_of_stage hreached fun heq => hstage (.inr heq), hok⟩
  · intro other build g hc hp
    exact honly hc ▸ (Desk.not_superseded_iff.mp hsuperseded).2 build g hp
  · intro other hc
    obtain rfl := honly hc
    exact ⟨g, rfl, hresult⟩

theorem store (h : t.Keeping) (hstage : t.stage ticket = some .cleared) :
    Keeping (Traffic.put { t with desk := { t.desk with published := t.pending } } ticket .published) := by
  obtain ⟨g, hpending, hresult⟩ := h.waiting hstage
  let next : Traffic G := { t with desk := { t.desk with published := t.pending } }
  -- no other build was about to be published, so none is now
  have hnone (other : Ticket) : (next.put ticket .published).stage other ≠ some .cleared := by
    intro hc
    by_cases heq : other = ticket
    · rw [heq, stage_put_self] at hc
      cases hc
    · exact heq (h.alone ((stage_put_of_ne _ _ heq).symm.trans hc) hstage)
  refine ⟨?_, fun hc => absurd hc (hnone _), fun hc => absurd hc (hnone _), fun hc => absurd hc (hnone _),
    h.succeeded_put hresult⟩
  intro build g' hp
  obtain ⟨rfl, rfl⟩ := Prod.mk.inj (Option.some.inj (hpending.symm.trans hp))
  exact ⟨ticket, rfl, stage_put_self _ _ _, hresult⟩

theorem step (h : t.Keeping) (hr : t.Registered) (hstep : Step t u) : u.Keeping := by
  have hcancel : t.desk.cancelCurrent.published = t.desk.published := by rw [Desk.cancelCurrent_eq]
  have hnot {ticket : Ticket} {stage : Stage} (hstage : t.stage ticket = some stage) (hcleared : stage ≠ .cleared)
      (hpublished : stage ≠ .published) : ¬ t.Admitted ticket :=
    fun ha => ha.stage_ne hcleared hpublished hstage
  cases hstep with
  | takeOver => exact h.congr rfl rfl rfl rfl
  | @count ticket he =>
    have hnew : ¬ t.Admitted ticket := fun ha =>
      hr.not_begun_next (hr.entering he).1 (ha.elim begun_of_stage begun_of_stage)
    let counted : Traffic G := { t with desk := { t.desk with started := ticket.build }, entering := none }
    exact (h.congr (u := counted) rfl rfl rfl rfl).put hnew nofun nofun
  | cancel => exact h.congr hcancel rfl rfl rfl
  | stop result hstage => exact (h.settle hstage result).put (hnot hstage nofun nofun) nofun nofun
  | @finish ticket he hstage =>
    have hkept : (t.desk.finish ticket.flag).published = t.desk.published := by rw [Desk.finish_eq]
    exact (h.congr (u := { t with desk := t.desk.finish ticket.flag }) hkept rfl rfl rfl).put
      (hnot hstage nofun nofun) nofun nofun
  | refuse _ hstage _ hanswer =>
    rw [Desk.publish_of_refused hanswer]
    exact h.put (hnot hstage nofun nofun) nofun nofun
  | clear hunlocked hstage hresult hanswer => exact h.clear hunlocked hresult (hnot hstage nofun nofun) hanswer
  | store hstage => exact h.store hstage

end Keeping

theorem Reachable.keeping (h : t.Reachable) : t.Keeping := by
  induction h with
  | refl => exact keeping_start
  | tail hrun hstep ih => exact ih.step (Reachable.registered hrun) hstep

/-! ### Along a run -/

theorem Step.started_le (h : Step t u) (hr : t.Registered) : t.desk.started ≤ u.desk.started := by
  cases h with
  | takeOver => exact Nat.le_refl _
  | count he => exact (hr.entering he).1 ▸ Nat.le_succ _
  | cancel => exact Nat.le_of_eq (by rw [Desk.cancelCurrent_eq])
  | stop => exact Nat.le_refl _
  | @finish ticket => exact Nat.le_of_eq (by rw [put, Desk.finish_eq])
  | refuse _ _ _ hanswer => exact Nat.le_of_eq (by rw [put, Desk.publish_of_refused hanswer])
  | clear => exact Nat.le_refl _
  | store => exact Nat.le_refl _

theorem Run.started_le (h : Run t u) (ht : t.Reachable) : t.desk.started ≤ u.desk.started := by
  induction h with
  | refl => exact Nat.le_refl _
  | tail hrun hstep ih => exact Nat.le_trans ih (hstep.started_le (Reachable.registered (ht.trans hrun)))

/-- A build that was refused or published stays so. -/
theorem Step.stage_of_settled (h : Step t u) (hr : t.Registered) (hs : t.stage ticket = some stage)
    (hsettled : stage = .refused ∨ stage = .published) : u.stage ticket = some stage := by
  -- no step takes a build on that was refused or published
  have hne {other : Ticket} {reached : Stage} (hother : t.stage other = some reached)
      (hrefused : reached ≠ .refused) (hpublished : reached ≠ .published) : t.stage other ≠ some stage := by
    rw [hother]
    rintro ⟨⟩
    exact hsettled.elim hrefused hpublished
  cases h with
  | takeOver => exact hs
  | count he => exact stage_put_of_stage hs fun heq => hr.not_begun_next (hr.entering he).1 (begun_of_stage heq)
  | cancel => exact hs
  | stop _ hother => exact stage_put_of_stage hs (hne hother nofun nofun)
  | finish _ hother => exact stage_put_of_stage hs (hne hother nofun nofun)
  | refuse _ hother => exact stage_put_of_stage hs (hne hother nofun nofun)
  | clear _ hother => exact stage_put_of_stage hs (hne hother nofun nofun)
  | store hother => exact stage_put_of_stage hs (hne hother nofun nofun)

theorem Run.stage_of_settled (h : Run t u) (ht : t.Reachable) (hs : t.stage ticket = some stage)
    (hsettled : stage = .refused ∨ stage = .published) : u.stage ticket = some stage := by
  induction h with
  | refl => exact hs
  | tail hrun hstep ih => exact hstep.stage_of_settled (Reachable.registered (ht.trans hrun)) ih hsettled

/-- Once a later build was counted, a build is not admitted any more. -/
theorem Step.admitted_of_lt (h : Step t u) (hlt : ticket.build < t.desk.started) (ha : u.Admitted ticket) :
    t.Admitted ticket := by
  cases h with
  | takeOver => exact ha
  | count => exact ha.of_put nofun nofun
  | cancel => exact ha
  | stop => exact ha.of_put nofun nofun
  | finish => exact ha.of_put nofun nofun
  | refuse => exact ha.of_put nofun nofun
  | clear _ _ _ hanswer =>
    refine ha.of_put_of_ne ?_
    rintro rfl
    exact absurd (Desk.not_superseded_iff.mp (Desk.publish_of_admitted hanswer).1).1 (Nat.ne_of_gt hlt)
  | @store other hstage =>
    by_cases heq : ticket = other
    · exact .inl (heq ▸ hstage)
    · exact ha.of_put_of_ne heq

theorem Run.admitted_of_lt (h : Run t u) (ht : t.Reachable) (hlt : ticket.build < t.desk.started)
    (ha : u.Admitted ticket) : t.Admitted ticket := by
  induction h with
  | refl => exact ha
  | tail hrun hstep ih => exact ih (hstep.admitted_of_lt (Nat.lt_of_lt_of_le hlt (Run.started_le hrun ht)) ha)

theorem Keeping.build_le (h : t.Keeping) (hstep : Step t u) (hp : t.desk.published = some (build, g)) :
    ∃ next g', u.desk.published = some (next, g') ∧ build ≤ next := by
  rcases hstep.published_eq_or with hsame | ⟨ticket, hstage, rfl⟩
  · exact ⟨build, g, hsame.trans hp, Nat.le_refl _⟩
  · obtain ⟨g', hpending, -⟩ := h.waiting hstage
    exact ⟨ticket.build, g', hpending, h.ahead hstage hp⟩

theorem Run.build_le (h : Run t u) (ht : t.Reachable) (hp : t.desk.published = some (build, g)) :
    ∃ next g', u.desk.published = some (next, g') ∧ build ≤ next := by
  induction h with
  | refl => exact ⟨build, g, hp, Nat.le_refl _⟩
  | tail hrun hstep ih =>
    obtain ⟨last, g', hlast, hle⟩ := ih
    obtain ⟨next, g'', hnext, hle'⟩ := (Reachable.keeping (ht.trans hrun)).build_le hstep hlast
    exact ⟨next, g'', hnext, Nat.le_trans hle hle'⟩

/-- The published result changes only with a build that comes to be published. -/
theorem Run.published_eq_or (h : Run t u) (ht : t.Reachable) : u.desk.published = t.desk.published ∨
    ∃ ticket, t.stage ticket ≠ some .published ∧ u.stage ticket = some .published := by
  induction h with
  | refl => exact .inl rfl
  | tail hrun hstep ih =>
    have hr := Reachable.registered (ht.trans hrun)
    rcases hstep.published_eq_or with hsame | ⟨ticket, hstage, rfl⟩
    · refine ih.imp hsame.trans ?_
      rintro ⟨ticket, hbefore, hafter⟩
      exact ⟨ticket, hbefore, hstep.stage_of_settled hr hafter (.inr rfl)⟩
    · refine .inr ⟨ticket, fun hbefore => ?_, stage_put_self _ _ _⟩
      have hstill := Run.stage_of_settled hrun ht hbefore (.inr rfl)
      exact nomatch hstage.symm.trans hstill

/-- Nothing supersedes the newest build, so its result is stored. -/
theorem publish_of_newest (hr : t.Registered) (hk : t.Keeping) (hnewest : t.Newest ticket) (g : G) :
    t.desk.publish ticket.build g = (true, { t.desk with published := some (ticket.build, g) }) := by
  obtain ⟨-, hbuild⟩ := hr.newest_iff.mp hnewest
  have hlast : t.desk.isSuperseded ticket.build = false := by
    refine Desk.not_superseded_iff.mpr ⟨hbuild.symm, fun build g' hp => ?_⟩
    obtain ⟨other, rfl, hother, -⟩ := hk.published hp
    exact hbuild ▸ hr.counted (begun_of_stage hother)
  rcases t.desk.publish_cases ticket.build g with ⟨hsuperseded, -⟩ | ⟨-, hpublish⟩
  · exact absurd (hlast.symm.trans hsuperseded) Bool.false_ne_true
  · exact hpublish

/-- Whatever the order of registrations, ends and publications: the number of the published build never
decreases; from the moment when a later build is registered, to publish a build is refused and changes
nothing, and the build does not get past the check any more; what is published is the result of a build whose
run succeeded; it changes only with a build that comes to be published; and a build that failed, was cancelled
or was found superseded never comes to be. To publish the result of the newest build stores it, and to publish
at once, whether the result is stored or refused, is one of these orders. -/
theorem publication_order (ht : t.Reachable) (h : Run t u) :
    (∀ build g, t.desk.published = some (build, g) →
      ∃ next g', u.desk.published = some (next, g') ∧ build ≤ next) ∧
    (∀ older newer, t.Begun newer → older.build < newer.build →
      (∀ g, u.desk.publish older.build g = (false, u.desk)) ∧ (u.Admitted older → t.Admitted older)) ∧
    (∀ build g, u.desk.published = some (build, g) →
      ∃ ticket, ticket.build = build ∧ u.stage ticket = some .published ∧ u.result ticket = some (.ok g)) ∧
    (u.desk.published = t.desk.published ∨
      ∃ ticket, t.stage ticket ≠ some .published ∧ u.stage ticket = some .published) ∧
    (∀ ticket, t.stage ticket = some .refused ∨ (∃ e, u.result ticket = some (.error e)) →
      u.stage ticket ≠ some .published) ∧
    (∀ ticket g, u.Newest ticket →
      u.desk.publish ticket.build g = (true, { u.desk with published := some (ticket.build, g) })) ∧
    ∀ ticket g, u.Unlocked → u.stage ticket = some .finished → u.result ticket = some (.ok g) →
      ∃ v, Run u v ∧ v.desk = (u.desk.publish ticket.build g).2 ∧
        v.stage ticket = some (if (u.desk.publish ticket.build g).1 then .published else .refused) := by
  have hu : u.Keeping := Reachable.keeping (ht.trans h)
  refine ⟨fun build g => Run.build_le h ht, ?_, fun build g => hu.published, Run.published_eq_or h ht, ?_,
    fun ticket g hnewest => publish_of_newest (Reachable.registered (ht.trans h)) hu hnewest g, ?_⟩
  · intro older newer hbegun hlt
    have hstarted : older.build < t.desk.started := Nat.lt_of_lt_of_le hlt (ht.registered.counted hbegun)
    have hsuperseded := Desk.isSuperseded_of_lt (Nat.lt_of_lt_of_le hstarted (Run.started_le h ht))
    exact ⟨fun g => Desk.publish_of_superseded hsuperseded g, Run.admitted_of_lt h ht hstarted⟩
  · rintro ticket (hrefused | ⟨e, he⟩) hpublished
    · exact nomatch hpublished.symm.trans (Run.stage_of_settled h ht hrefused (.inl rfl))
    · obtain ⟨g, hg⟩ := hu.succeeded (.inr hpublished)
      exact nomatch he.symm.trans hg
  · intro ticket g hunlocked hstage hresult
    obtain ⟨v, hrun, -, -, hdesk, hreached⟩ := exists_publish hunlocked hstage hresult
    exact ⟨v, hrun, hdesk, hreached⟩

/-- Two builds run at once and both succeed. The first one is refused, also if it comes again after the second
one was published. -/
theorem first_refused_second_published :
    ∃ t u : Traffic Nat, t.Reachable ∧ Run t u ∧ ∃ first second : Ticket, t.Begun second ∧
      first.build < second.build ∧ u.result first = some (.ok 10) ∧ u.stage first = some .refused ∧
        u.desk.publish first.build 10 = (false, u.desk) ∧ u.desk.published = some (second.build, 20) := by
  let t : Traffic Nat := (Traffic.registered start).registered
  let first : Ticket := ⟨1, ⟨0⟩⟩
  let second : Ticket := ⟨2, ⟨1⟩⟩
  have ht : t.Reachable := (run_register rfl).trans (run_register rfl)
  let firstEnded := (t.settle first (.ok 10)).put first .ended
  let firstFinished := put { firstEnded with desk := firstEnded.desk.finish first.flag } first .finished
  let firstRefused := put { firstFinished with desk := (firstFinished.desk.publish first.build 10).2 } first .refused
  let secondEnded := (firstRefused.settle second (.ok 20)).put second .ended
  let secondFinished := put { secondEnded with desk := secondEnded.desk.finish second.flag } second .finished
  let secondCleared :=
    put { secondFinished with pending := (secondFinished.desk.publish second.build 20).2.published } second .cleared
  let u := put { secondCleared with desk := { secondCleared.desk with published := secondCleared.pending } } second
    .published
  have hrest : t.AtRest := (AtRest.registered (t := Traffic.registered start) (AtRest.registered ⟨rfl, nofun⟩))
  have hfirstEnded : firstEnded.Unlocked := hrest.unlocked.put rfl nofun
  have hfirstFinished : firstFinished.Unlocked := hfirstEnded.put rfl nofun
  have hfirstRefused : firstRefused.Unlocked := hfirstFinished.put rfl nofun
  have hsecondEnded : secondEnded.Unlocked := hfirstRefused.put rfl nofun
  have hsecondFinished : secondFinished.Unlocked := hsecondEnded.put rfl nofun
  have hended : Step t firstEnded := .stop (.ok 10) rfl
  have hfinished : Step firstEnded firstFinished := .finish rfl rfl
  have hrefuse : Step firstFinished firstRefused := .refuse hfirstFinished rfl rfl rfl
  have hended' : Step firstRefused secondEnded := .stop (.ok 20) rfl
  have hfinished' : Step secondEnded secondFinished := .finish rfl rfl
  have hcleared : Step secondFinished secondCleared := .clear hsecondFinished rfl rfl rfl
  have hstored : Step secondCleared u := .store rfl
  have hfirst : Run t firstRefused := ((Relation.ReflTransGen.single hended).tail hfinished).tail hrefuse
  have hrun : Run t u := (((hfirst.tail hended').tail hfinished').tail hcleared).tail hstored
  have hbegun : t.Begun second := begun_of_stage rfl
  obtain ⟨-, hlate, -, -, -, -, -⟩ := publication_order ht hrun
  exact ⟨t, u, ht, hrun, first, second, hbegun, by decide, rfl, rfl, (hlate first second hbegun (by decide)).1 10, rfl⟩

end Traffic
end CallChart
