import CallChart.Proofs.BuilderSession
import Mathlib.Logic.Relation

/-! Any number of builds that share one desk, in every order in which their steps can follow each other.
A registration and a publication are two steps each, because other builds may come in between: the
counter of builds is not under the lock that a publication holds. -/
namespace CallChart

variable {G : Type}

namespace Desk

/-- A request to stop reaches the running build and no other. -/
theorem isCancelled_cancelCurrent (d : Desk G) (ticket : Ticket) :
    d.cancelCurrent.isCancelled ticket = true ↔
      d.isCancelled ticket = true ∨ d.running = some ticket.flag := by
  unfold cancelCurrent isCancelled
  cases d.running with
  | none => simp
  | some flag =>
    rw [CancelFlags.isRaised_raise, Bool.or_eq_true, beq_iff_eq, Option.some.injEq]
    constructor
    · rintro (h | h)
      · exact .inr h.symm
      · exact .inl h
    · rintro (h | h)
      · exact .inr h
      · exact .inl h.symm

/-- To register a build makes no difference to which builds are cancelled but that the running one is. -/
theorem isCancelled_register (d : Desk G) (ticket : Ticket) :
    d.register.2.isCancelled ticket = d.cancelCurrent.isCancelled ticket :=
  CancelFlags.isRaised_create _ ticket.flag

/-- A request to stop changes nothing but which flags are raised. -/
theorem cancelCurrent_eq (d : Desk G) : d.cancelCurrent = { d with flags := d.cancelCurrent.flags } := by
  rcases d with ⟨flags, _ | flag, started, published⟩ <;> rfl

theorem created_cancelCurrent (d : Desk G) : d.cancelCurrent.flags.created = d.flags.created := by
  rcases d with ⟨flags, _ | flag, started, published⟩ <;> rfl

theorem flag_register (d : Desk G) : d.register.1.flag = ⟨d.flags.created⟩ :=
  congrArg CancelFlag.mk d.created_cancelCurrent

theorem created_register (d : Desk G) : d.register.2.flags.created = d.flags.created + 1 :=
  congrArg (· + 1) d.created_cancelCurrent

theorem finish_of_ne {d : Desk G} {flag : CancelFlag} (h : d.running ≠ some flag) : d.finish flag = d :=
  if_neg h

/-- To finish a build changes nothing but which build is the running one. -/
theorem finish_eq (d : Desk G) (flag : CancelFlag) :
    d.finish flag = { d with running := (d.finish flag).running } := by
  unfold finish
  split <;> rfl

/-- A build is superseded once a later one was counted. -/
theorem isSuperseded_of_lt {d : Desk G} {build : Nat} (h : build < d.started) : d.isSuperseded build = true := by
  have hne : (d.started != build) = true := bne_iff_ne.mpr (Nat.ne_of_gt h)
  rw [isSuperseded, hne, Bool.true_or]

/-- A build is not superseded while it is the last one counted and no later one is published. -/
theorem not_superseded_iff {d : Desk G} {build : Nat} : d.isSuperseded build = false ↔
    d.started = build ∧ ∀ other g, d.published = some (other, g) → other ≤ build := by
  rw [isSuperseded, Bool.or_eq_false_iff, bne_eq_false_iff_eq]
  refine and_congr_right fun _ => ?_
  cases hpublished : d.published with
  | none => exact iff_of_true rfl fun _ _ hnone => absurd hnone.symm (Option.some_ne_none _)
  | some stored =>
    constructor
    · rintro hle other g ⟨⟩
      exact Nat.not_lt.mp (of_decide_eq_false hle)
    · exact fun hle => decide_eq_false (Nat.not_lt.mpr (hle stored.1 stored.2 rfl))

/-- A result is stored or refused, and refused exactly if the build was superseded. -/
theorem publish_cases (d : Desk G) (build : Nat) (g : G) :
    d.isSuperseded build = true ∧ d.publish build g = (false, d) ∨
      d.isSuperseded build = false ∧ d.publish build g = (true, { d with published := some (build, g) }) := by
  cases h : d.isSuperseded build with
  | true => exact .inl ⟨rfl, if_pos h⟩
  | false => exact .inr ⟨rfl, if_neg (Bool.eq_false_iff.mp h)⟩

theorem publish_of_superseded {d : Desk G} {build : Nat} (h : d.isSuperseded build = true) (g : G) :
    d.publish build g = (false, d) := if_pos h

theorem publish_of_refused {d : Desk G} {build : Nat} {g : G} (h : (d.publish build g).1 = false) :
    d.publish build g = (false, d) := by
  rcases d.publish_cases build g with ⟨-, hpublish⟩ | ⟨-, hpublish⟩
  · exact hpublish
  · rw [hpublish] at h
    cases h

theorem publish_of_admitted {d : Desk G} {build : Nat} {g : G} (h : (d.publish build g).1 = true) :
    d.isSuperseded build = false ∧ d.publish build g = (true, { d with published := some (build, g) }) := by
  rcases d.publish_cases build g with ⟨-, hpublish⟩ | hstored
  · rw [hpublish] at h
    cases h
  · exact hstored

end Desk

/-- How far a build has come. -/
inductive Stage where
  | running
  /-- Its run has come to a result. -/
  | ended
  /-- It is no longer the running build. -/
  | finished
  /-- It was found not superseded, and the latest result is locked for it. -/
  | cleared
  | published
  /-- It was found superseded. -/
  | refused
  deriving DecidableEq

/-- A build does not run any more, as far as the desk knows. -/
def Stage.IsFinished (stage : Stage) : Prop := stage ≠ running ∧ stage ≠ ended

/-- A desk and the builds that come to it. -/
structure Traffic (G : Type) where
  desk : Desk G
  /-- A build that has taken over and is not counted yet. Until it is, the running build is locked. -/
  entering : Option Ticket
  /-- What the latest result will be once the publication that is half done goes on. -/
  pending : Option (Nat × G)
  /-- How far each build has come that was begun. -/
  stage : Ticket → Option Stage
  /-- What the run of a build has come to. -/
  result : Ticket → Option (Except BuildError G)

namespace Traffic

def start : Traffic G := ⟨.empty, none, none, fun _ => none, fun _ => none⟩

/-- A build was registered and counted. -/
def Begun (t : Traffic G) (ticket : Ticket) : Prop := t.stage ticket ≠ none

def Finished (t : Traffic G) (ticket : Ticket) : Prop := ∃ stage, t.stage ticket = some stage ∧ stage.IsFinished

/-- A build was begun, and none after it. -/
def Newest (t : Traffic G) (ticket : Ticket) : Prop :=
  t.Begun ticket ∧ ∀ other, t.Begun other → other.build ≤ ticket.build

/-- No build holds the latest result locked. -/
def Unlocked (t : Traffic G) : Prop := ∀ ticket, t.stage ticket ≠ some .cleared

/-- No registration and no publication is half done. -/
structure AtRest (t : Traffic G) : Prop where
  entered : t.entering = none
  unlocked : t.Unlocked

/-- A build comes to a stage. -/
def put (t : Traffic G) (ticket : Ticket) (stage : Stage) : Traffic G :=
  { t with stage := fun other => if other = ticket then some stage else t.stage other }

/-- The run of a build comes to a result. -/
def settle (t : Traffic G) (ticket : Ticket) (result : Except BuildError G) : Traffic G :=
  { t with result := fun other => if other = ticket then some result else t.result other }

/-- What can happen next. A registration counts its build last, and a publication that was not refused
stores its result last. A run may come to any result. -/
inductive Step : Traffic G → Traffic G → Prop where
  | takeOver {t : Traffic G} : t.entering = none →
      Step t { t with
        desk := { t.desk.register.2 with started := t.desk.started }
        entering := some t.desk.register.1 }
  | count {t : Traffic G} {ticket : Ticket} : t.entering = some ticket →
      Step t (put { t with desk := { t.desk with started := ticket.build }, entering := none } ticket .running)
  | cancel {t : Traffic G} : t.entering = none → Step t { t with desk := t.desk.cancelCurrent }
  | stop {t : Traffic G} {ticket : Ticket} (result : Except BuildError G) :
      t.stage ticket = some .running → Step t ((t.settle ticket result).put ticket .ended)
  | finish {t : Traffic G} {ticket : Ticket} : t.entering = none → t.stage ticket = some .ended →
      Step t (put { t with desk := t.desk.finish ticket.flag } ticket .finished)
  | refuse {t : Traffic G} {ticket : Ticket} {g : G} : t.Unlocked → t.stage ticket = some .finished →
      t.result ticket = some (.ok g) → (t.desk.publish ticket.build g).1 = false →
      Step t (put { t with desk := (t.desk.publish ticket.build g).2 } ticket .refused)
  | clear {t : Traffic G} {ticket : Ticket} {g : G} : t.Unlocked → t.stage ticket = some .finished →
      t.result ticket = some (.ok g) → (t.desk.publish ticket.build g).1 = true →
      Step t (put { t with pending := (t.desk.publish ticket.build g).2.published } ticket .cleared)
  | store {t : Traffic G} {ticket : Ticket} : t.stage ticket = some .cleared →
      Step t (put { t with desk := { t.desk with published := t.pending } } ticket .published)

/-- Any number of steps. -/
abbrev Run : Traffic G → Traffic G → Prop := Relation.ReflTransGen Step

def Reachable (t : Traffic G) : Prop := Run start t

variable {t u : Traffic G} {ticket other : Ticket} {stage : Stage} {g : G}

/-! ### Stages -/

@[simp] theorem stage_put_self (t : Traffic G) (ticket : Ticket) (stage : Stage) :
    (t.put ticket stage).stage ticket = some stage := if_pos rfl

theorem stage_put_of_ne (t : Traffic G) (stage : Stage) (h : other ≠ ticket) :
    (t.put ticket stage).stage other = t.stage other := if_neg h

/-- A build that is at another stage than the one that moves on stays where it is. -/
theorem stage_put_of_stage {next : Stage} (hs : t.stage other = some stage) (hne : t.stage ticket ≠ some stage) :
    (t.put ticket next).stage other = some stage := by
  refine (stage_put_of_ne _ _ ?_).trans hs
  rintro rfl
  exact hne hs

theorem begun_put_iff (hbegun : t.Begun ticket) : (t.put ticket stage).Begun other ↔ t.Begun other := by
  unfold Begun
  by_cases h : other = ticket
  · subst h
    rw [stage_put_self]
    exact iff_of_true (Option.some_ne_none _) hbegun
  · rw [stage_put_of_ne t stage h]

theorem begun_of_stage (h : t.stage ticket = some stage) : t.Begun ticket := by
  rw [Begun, h]
  exact Option.some_ne_none _

/-- A build that comes to a later stage stays finished. -/
theorem Finished.put (hfinished : t.Finished ticket → stage.IsFinished) (h : t.Finished other) :
    (t.put ticket stage).Finished other := by
  by_cases heq : other = ticket
  · subst heq
    exact ⟨stage, stage_put_self t other stage, hfinished h⟩
  · obtain ⟨reached, hreached, hdone⟩ := h
    exact ⟨reached, by rw [stage_put_of_ne t stage heq, hreached], hdone⟩

theorem not_finished_of_stage (h : t.stage ticket = some stage) (hstage : ¬ stage.IsFinished) :
    ¬ t.Finished ticket := by
  rintro ⟨reached, hreached, hdone⟩
  rw [h] at hreached
  exact hstage (Option.some.inj hreached ▸ hdone)

/-- Whatever else changes, a build that comes to another stage does not lock the latest result. -/
theorem Unlocked.put (h : t.Unlocked) (hsame : u.stage = t.stage) (hstage : stage ≠ .cleared) :
    (u.put ticket stage).Unlocked := by
  intro other
  by_cases heq : other = ticket
  · subst heq
    rw [stage_put_self]
    exact fun hcleared => hstage (Option.some.inj hcleared)
  · rw [stage_put_of_ne u stage heq, hsame]
    exact h other

/-! ### Registrations and publications without anything in between -/

/-- A build is registered at once. -/
def registered (t : Traffic G) : Traffic G :=
  put { t with desk := t.desk.register.2 } t.desk.register.1 .running

theorem run_register (he : t.entering = none) : Run t t.registered := by
  let entered : Traffic G := { t with
    desk := { t.desk.register.2 with started := t.desk.started }
    entering := some t.desk.register.1 }
  let counted : Traffic G := { entered with
    desk := { entered.desk with started := t.desk.register.1.build }
    entering := none }
  have hcounted : counted = { t with desk := t.desk.register.2 } :=
    congrArg (fun e => (⟨t.desk.register.2, e, t.pending, t.stage, t.result⟩ : Traffic G)) he.symm
  have hcount : Step entered (counted.put t.desk.register.1 .running) := .count rfl
  rw [hcounted] at hcount
  exact .tail (.single (.takeOver he)) hcount

theorem AtRest.registered (h : t.AtRest) : t.registered.AtRest := ⟨h.entered, h.unlocked.put rfl nofun⟩

/-- A build that succeeded is published at once, or refused. -/
theorem exists_publish (h : t.Unlocked) (hstage : t.stage ticket = some .finished)
    (hresult : t.result ticket = some (.ok g)) :
    ∃ u, Run t u ∧ u.entering = t.entering ∧ u.Unlocked ∧ u.desk = (t.desk.publish ticket.build g).2 ∧
      u.stage ticket = some (if (t.desk.publish ticket.build g).1 then .published else .refused) := by
  cases hanswer : (t.desk.publish ticket.build g).1 with
  | false =>
    let next : Traffic G := { t with desk := (t.desk.publish ticket.build g).2 }
    exact ⟨next.put ticket .refused, .single (.refuse h hstage hresult hanswer), rfl, h.put rfl nofun, rfl,
      stage_put_self _ _ _⟩
  | true =>
    let cleared : Traffic G := put { t with pending := (t.desk.publish ticket.build g).2.published } ticket .cleared
    let u : Traffic G := put { cleared with desk := { t.desk with published := cleared.pending } } ticket .published
    have hrun : Run t u :=
      .tail (.single (.clear h hstage hresult hanswer)) (.store (stage_put_self _ ticket .cleared))
    refine ⟨u, hrun, rfl, fun other => ?_, ?_, stage_put_self _ _ _⟩
    · by_cases heq : other = ticket
      · rw [heq, stage_put_self]
        exact nofun
      · rw [stage_put_of_ne _ _ heq]
        exact (stage_put_of_ne { t with pending := cleared.pending } .cleared heq).symm ▸ h other
    · have hstored := (Desk.publish_of_admitted hanswer).2
      change { t.desk with published := (t.desk.publish ticket.build g).2.published } = _
      rw [hstored]

section Builder

variable {X F α : Type} {t : Traffic (Graph F α)}

/-- A build whose run comes to a result is concluded at once. -/
theorem AtRest.exists_conclude (h : t.AtRest) (hstage : t.stage ticket = some .running)
    (result : Except BuildError (Graph F α)) :
    ∃ u, Run t u ∧ u.AtRest ∧ u.desk = (Builder.settle t.desk ticket result).2 := by
  let stopped := (t.settle ticket result).put ticket .ended
  let finished := put { stopped with desk := t.desk.finish ticket.flag } ticket .finished
  have hstopped : stopped.Unlocked := h.unlocked.put rfl nofun
  have hunlocked : finished.Unlocked := hstopped.put rfl nofun
  have hrun : Run t finished :=
    .tail (.single (.stop result hstage)) (.finish h.entered (stage_put_self _ _ _))
  cases hresult : result with
  | error e => exact ⟨finished, hrun, ⟨h.entered, hunlocked⟩, rfl⟩
  | ok g =>
    have hended : finished.result ticket = some (.ok g) := hresult ▸ if_pos rfl
    obtain ⟨u, hpublish, hentering, hrest, hdesk, -⟩ := exists_publish hunlocked (stage_put_self _ _ _) hended
    exact ⟨u, hrun.trans hpublish, ⟨hentering.trans h.entered, hrest⟩, hdesk⟩

variable [Handle F] [Scalar α]

/-- What a builder does to its desk in a build, with all that happens meanwhile, is one of these orders. -/
theorem AtRest.exists_build (h : t.AtRest) {b : Builder X F α} (hdesk : t.desk = b.floor.desk)
    (request : BuildRequest F) :
    ∃ u, Run t u ∧ u.AtRest ∧ u.desk = ((Builder.build request).run b).2.floor.desk := by
  let ticket := t.desk.register.1
  let I (floor : Floor X F α) : Prop := ∃ u, Run t.registered u ∧ u.AtRest ∧ u.stage ticket = some .running ∧
    u.desk = floor.desk
  have hafter (floor : Floor X F α) (happening : Happening) (hfloor : I floor) : I (floor.after happening) := by
    obtain ⟨u, hrun, hrest, hstage, hsame⟩ := hfloor
    cases happening with
    | cancel =>
      refine ⟨_, hrun.tail (.cancel hrest.entered), ⟨hrest.entered, hrest.unlocked⟩, hstage, ?_⟩
      exact congrArg Desk.cancelCurrent hsame
    | register =>
      refine ⟨_, hrun.trans (run_register hrest.entered), hrest.registered, ?_, ?_⟩
      · by_cases heq : ticket = u.desk.register.1
        · rw [heq]
          exact stage_put_self _ _ _
        · exact (stage_put_of_ne _ _ heq).trans hstage
      · exact congrArg (fun desk => desk.register.2) hsame
    | edit file => exact ⟨u, hrun, hrest, hstage, hsame⟩
  have hkeeps : b.services.Keeps I := b.services.keeps_of_after hafter fun _ _ _ hfloor => hfloor
  have hlasting : Cache.Lasting (F := F) fun _ => True :=
    ⟨fun _ _ _ _ _ => trivial, fun _ _ _ => trivial, fun _ _ _ => trivial⟩
  have hregistered : I (Builder.register.run b).2.floor :=
    ⟨_, .refl, h.registered, stage_put_self _ _ _, congrArg (fun desk => desk.register.2) hdesk⟩
  obtain ⟨⟨u, hrun, hrest, hstage, hsame⟩, -⟩ := (hkeeps.site ticket).run hlasting b.settings ticket.build request
    ⟨(Builder.register.run b).2.floor, b.cache, 0⟩ ⟨hregistered, trivial⟩
  have hticket : (Builder.register.run b).1 = ticket := congrArg (fun desk => desk.register.1) hdesk.symm
  obtain ⟨v, hconclude, hrest', hend⟩ := hrest.exists_conclude hstage
    (((b.services.site ticket).run b.settings ticket.build request).after
      ⟨(Builder.register.run b).2.floor, b.cache, 0⟩).1
  refine ⟨v, ((run_register h.entered).trans hrun).trans hconclude, hrest', ?_⟩
  rw [hend, hsame, Builder.run_build, Builder.run_conclude, hticket]
  rfl

end Builder

end Traffic
end CallChart
