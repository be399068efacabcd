import CallChart.Build.Builder
import CallChart.Proofs.Builds
import CallChart.Proofs.CacheSynced

/-! What holds in a session of a builder, whatever its services answer and whatever happens while they
are asked. -/
namespace CallChart

namespace Desk

variable {G : Type} {d : Desk G}

/-- Flags are raised only after they were created, and results are published only of builds that were
started. -/
structure Orderly (d : Desk G) : Prop where
  raised (flag : CancelFlag) : d.flags.isRaised flag = true → flag.number < d.flags.created
  running (flag : CancelFlag) : d.running = some flag → flag.number < d.flags.created
  published (build : Nat) (g : G) : d.published = some (build, g) → build ≤ d.started

theorem orderly_empty : (empty : Desk G).Orderly := ⟨nofun, nofun, nofun⟩

theorem Orderly.cancelCurrent (h : d.Orderly) : d.cancelCurrent.Orderly := by
  unfold Desk.cancelCurrent
  cases hrunning : d.running with
  | none => exact h
  | some flag =>
    refine ⟨fun other hraised => ?_, ?_, h.published⟩
    · rw [CancelFlags.isRaised_raise, Bool.or_eq_true, beq_iff_eq] at hraised
      rcases hraised with rfl | hraised
      · exact h.running _ hrunning
      · exact h.raised other hraised
    · exact fun other hother => h.running other (hrunning.trans hother)

theorem Orderly.register (h : d.Orderly) : d.register.2.Orderly where
  raised flag hraised := Nat.lt_succ_of_lt (h.cancelCurrent.raised flag hraised)
  running flag hrunning := by
    obtain rfl := Option.some.inj hrunning
    exact Nat.lt_succ_self _
  published build g hpublished := Nat.le_succ_of_le (h.published build g hpublished)

/-- The flag of a build that was just registered is not raised. -/
theorem Orderly.not_cancelled (h : d.Orderly) : d.register.2.isCancelled d.register.1 = false := by
  cases hraised : d.register.2.isCancelled d.register.1 with
  | false => rfl
  | true =>
    have hlt := h.cancelCurrent.raised _ hraised
    exact absurd hlt (Nat.lt_irrefl _)

theorem Orderly.finish (h : d.Orderly) (flag : CancelFlag) : (d.finish flag).Orderly := by
  unfold Desk.finish
  split
  · exact ⟨h.raised, nofun, h.published⟩
  · exact h

theorem Orderly.publish (h : d.Orderly) (build : Nat) (g : G) : (d.publish build g).2.Orderly := by
  unfold Desk.publish
  split
  · exact h
  · next hlatest =>
    refine ⟨h.raised, h.running, fun other g' hpublished => ?_⟩
    cases hpublished
    simp only [isSuperseded, Bool.or_eq_true, bne_iff_ne, not_or, Decidable.not_not] at hlatest
    exact Nat.le_of_eq hlatest.1.symm

/-- A build that was registered last and has not published its result yet can publish it. -/
theorem publish_of_le {build : Nat} (hstarted : d.started = build)
    (hpublished : ∀ other g, d.published = some (other, g) → other ≤ build) (g : G) :
    (d.publish build g).1 = true := by
  have hlatest : d.isSuperseded build = false := by
    unfold isSuperseded
    rw [hstarted, bne_self_eq_false, Bool.false_or]
    split
    · next other g' heq => exact decide_eq_false (Nat.not_lt.mpr (hpublished other g' heq))
    · rfl
  simp [publish, hlatest]

end Desk

variable {X F α β : Type}

namespace Floor

variable {floor : Floor X F α} {service : StateM X (β × List Happening)}

/-- What holds of the floor after each happening holds after a service has answered. -/
theorem serve_keeps {I : Floor X F α → Prop} {K : Happening → Prop}
    (hafter : ∀ floor h, K h → I floor → I (floor.after h))
    (hanswer : I { floor with outside := (service.run floor.outside).2 })
    (hhappenings : ∀ h ∈ (service.run floor.outside).1.2, K h) :
    I ((Floor.serve service).run floor).2 := by
  have hfold (happenings : List Happening) (floor : Floor X F α) (hfloor : I floor)
      (hall : ∀ h ∈ happenings, K h) : I (happenings.foldl Floor.after floor) := by
    induction happenings generalizing floor with
    | nil => exact hfloor
    | cons h rest ih =>
      obtain ⟨hh, hrest⟩ := List.forall_mem_cons.mp hall
      exact ih _ (hafter floor h hh hfloor) hrest
  exact hfold _ _ hanswer hhappenings

theorem orderly_after (h : floor.desk.Orderly) (happening : Happening) :
    (floor.after happening).desk.Orderly := by
  cases happening with
  | cancel => exact h.cancelCurrent
  | register => exact h.register
  | edit file => exact h

end Floor

variable [Handle F]

namespace Services

variable {services : Services X F α} {I : Floor X F α → Prop} {index : CallIndex F}

/-- What holds of the floor whatever a build asks the services and tells the listeners. -/
structure Keeps (services : Services X F α) (I : Floor X F α → Prop) : Prop where
  functions {floor : Floor X F α} (scope : Scope) : I floor →
    I ((Floor.serve (services.functions scope)).run floor).2
  ask {floor : Floor X F α} (coverage : Coverage) (f : F) : I floor →
    I ((Floor.serve (services.ask coverage f)).run floor).2
  draw {floor : Floor X F α} (request : LayoutRequest) : I floor →
    I ((Floor.serve (services.draw request)).run floor).2
  idle {floor : Floor X F α} : I floor → I ((Floor.serve services.idle).run floor).2
  emit {floor : Floor X F α} (event : BuildEvent) : I floor →
    I { floor with events := floor.events ++ [event] }

theorem Keeps.site (hs : services.Keeps I) (ticket : Ticket) : (services.site ticket).Keeps I where
  cancelled := hs.idle
  versions := hs.idle
  functions := hs.functions
  ask := hs.ask
  draw := hs.draw
  emit := hs.emit

/-- What holds after each happening, and has nothing to do with the services' world and with what was told to
listeners, is kept whatever the services answer. -/
theorem keeps_of_after (services : Services X F α)
    (hafter : ∀ (floor : Floor X F α) happening, I floor → I (floor.after happening))
    (hblind : ∀ (floor : Floor X F α) outside events, I floor → I { floor with outside := outside, events := events }) :
    services.Keeps I := by
  have hserve {β : Type} (service : StateM X (β × List Happening)) (floor : Floor X F α) (h : I floor) :
      I ((Floor.serve service).run floor).2 :=
    Floor.serve_keeps (K := fun _ => True) (fun floor happening _ => hafter floor happening)
      (hblind floor _ floor.events h) fun _ _ => trivial
  exact ⟨fun _ => hserve _ _, fun _ _ => hserve _ _, fun _ => hserve _ _, hserve _ _, fun _ => hblind _ _ _⟩

/-- Whatever happens, the desk stays orderly. -/
theorem keeps_orderly (services : Services X F α) : services.Keeps fun floor => floor.desk.Orderly :=
  services.keeps_of_after (fun _ happening h => Floor.orderly_after h happening) fun _ _ _ h => h

/-- The index service tells what an index tells, or nothing. Whatever else happens, no file is edited. -/
structure Tells (services : Services X F α) (J : X → Prop) (index : CallIndex F) : Prop where
  functions {x : X} (scope : Scope) : J x → J ((services.functions scope).run x).2
  ask {x : X} (coverage : Coverage) (f : F) : J x → J ((services.ask coverage f).run x).2
  draw {x : X} (request : LayoutRequest) : J x → J ((services.draw request).run x).2
  idle {x : X} : J x → J (services.idle.run x).2
  lists {x : X} {scope : Scope} {found : Std.TreeSet F} : J x →
    ((services.functions scope).run x).1.1 = .ok found → index.functions scope = .ok found
  misses {x : X} {scope : Scope} {e : IndexError} : J x →
    ((services.functions scope).run x).1.1 = .error e → e.isScopeError = true →
      index.functions scope = .error e
  tells {x : X} {coverage : Coverage} {f : F} {found : Std.TreeSet F} : J x →
    ((services.ask coverage f).run x).1.1 = .ok found → index.neighbours coverage f = .ok found
  unedited {x : X} (file : Path) : J x →
    (∀ scope, .edit file ∉ ((services.functions scope).run x).1.2) ∧
    (∀ coverage f, .edit file ∉ ((services.ask coverage f).run x).1.2) ∧
    (∀ request, .edit file ∉ ((services.draw request).run x).1.2) ∧ .edit file ∉ (services.idle.run x).1.2

/-- The files are at certain versions and something holds of the services' world. -/
def At (vs : FileVersions) (J : X → Prop) (floor : Floor X F α) : Prop :=
  floor.versions = vs ∧ J floor.outside

theorem Tells.site {J : X → Prop} (hs : services.Tells J index) (ticket : Ticket) (vs : FileVersions) :
    (services.site ticket).Faithful (At vs J) index := by
  have hserve {β : Type} {service : StateM X (β × List Happening)} (floor : Floor X F α)
      (hkeep : ∀ x, J x → J (service.run x).2) (hstill : ∀ x file, J x → .edit file ∉ (service.run x).1.2)
      (h : At vs J floor) : At vs J ((Floor.serve service).run floor).2 := by
    refine Floor.serve_keeps (I := At vs J) (K := fun happening => ∀ file, happening ≠ .edit file) ?_
      ⟨h.1, hkeep _ h.2⟩ fun happening hh file heq => hstill _ file h.2 (heq ▸ hh)
    rintro floor (_ | _ | file) hfile hfloor
    · exact hfloor
    · exact hfloor
    · exact absurd rfl (hfile file)
  have hkeeps : services.Keeps (At (F := F) (α := α) vs J) :=
    { functions := fun scope => hserve _ (fun _ => hs.functions scope) fun _ file hx => (hs.unedited file hx).1 scope
      ask := fun coverage f => hserve _ (fun _ => hs.ask coverage f) fun _ file hx =>
        (hs.unedited file hx).2.1 coverage f
      draw := fun request => hserve _ (fun _ => hs.draw request) fun _ file hx =>
        (hs.unedited file hx).2.2.1 request
      idle := hserve _ (fun _ => hs.idle) fun _ file hx => (hs.unedited file hx).2.2.2
      emit := fun _ h => h }
  exact ⟨hkeeps.site ticket, fun h => hs.lists h.2, fun h => hs.misses h.2, fun h => hs.tells h.2, .refl⟩

theorem tells_answering (index : CallIndex F) (draw : LayoutRequest → Except LayoutError (RawLayout α)) :
    (answering (X := X) index draw).Tells (fun _ => True) index where
  functions _ _ := trivial
  ask _ _ _ := trivial
  draw _ _ := trivial
  idle _ := trivial
  lists _ h := h
  misses _ h _ := h
  tells _ h := h
  unedited _ _ := ⟨fun _ => List.not_mem_nil, fun _ _ => List.not_mem_nil, fun _ => List.not_mem_nil, List.not_mem_nil⟩

/-- Nothing disturbs a build whose flag is not raised if the services only answer. -/
theorem calm_answering (index : CallIndex F) [Scalar α] {p : Point α} (hp : p.isFinite = true) {ticket : Ticket}
    {desk : Desk (Graph F α)} (hd : desk.isCancelled ticket = false) (vs : FileVersions) :
    ((answering (X := X) index fun request => .ok (.pinned p request)).site ticket).Calm
      (fun floor => floor.desk = desk ∧ floor.versions = vs) index p where
  cancelled h := h
  versions h := h
  functions _ h := h
  ask _ _ h := h
  draw _ h := h
  emit _ h := h
  quiet h := (congrArg (Desk.isCancelled · ticket) h.1).trans hd
  lists _ _ := rfl
  tells _ _ _ := rfl
  schedule := .refl
  population := Nat.le_refl _
  draws _ _ := rfl
  finite := hp

end Services

namespace Builder

variable [Scalar α] {b : Builder X F α}

/-- A build, from its registration over its work to its end. -/
def result (b : Builder X F α) (ticket : Ticket) (services : Services X F α) (request : BuildRequest F) :
    Except BuildError (Graph F α) × Search (Floor X F α) F :=
  ((services.site ticket).run b.settings ticket.build request).after ⟨b.floor, b.cache, 0⟩

theorem run_work (services : Services X F α) (ticket : Ticket) (request : BuildRequest F)
    (b : Builder X F α) :
    (work services ticket request).run b =
      ((b.result ticket services request).1,
        { b with
          floor := (b.result ticket services request).2.world
          cache := (b.result ticket services request).2.cache }) := rfl

/-- How a build ends, on the desk and for those who wait for it. -/
def settle (desk : Desk (Graph F α)) (ticket : Ticket) :
    Except BuildError (Graph F α) → Except BuildError (Graph F α) × Desk (Graph F α)
  | .ok g =>
    let (published, desk) := (desk.finish ticket.flag).publish ticket.build g
    (if published then .ok g else .error .cancelled, desk)
  | .error e => (.error e, desk.finish ticket.flag)

omit [Scalar α] in
theorem run_conclude (ticket : Ticket) (result : Except BuildError (Graph F α)) (b : Builder X F α) :
    (conclude ticket result).run b =
      let (result, desk) := settle b.floor.desk ticket result
      (result,
        { b with
          floor :=
            { b.floor with
              desk := desk
              events := b.floor.events ++ [closingEvent ticket.build result] } }) := by
  cases result with
  | error e => rfl
  | ok g =>
    have hpublish (floor : Floor X F α) : publish ticket.build g floor =
        (if (floor.desk.publish ticket.build g).1 then .ok g else .error .cancelled,
          { floor with desk := (floor.desk.publish ticket.build g).2 }) := by
      unfold publish
      rcases floor.desk.publish ticket.build g with ⟨_ | _, _⟩ <;> rfl
    change (let out := publish ticket.build g { b.floor with desk := b.floor.desk.finish ticket.flag }
      (out.1, ({ b with
        floor := { out.2 with events := out.2.events ++ [closingEvent ticket.build out.1] } } :
          Builder X F α))) = _
    rw [hpublish]
    rfl

omit [Handle F] [Scalar α] in
/-- Only the result of the work can be the result of a build. -/
theorem settle_ok {desk : Desk (Graph F α)} {ticket : Ticket} {result : Except BuildError (Graph F α)}
    {g : Graph F α} (h : (settle desk ticket result).1 = .ok g) : result = .ok g := by
  cases result with
  | error e => cases h
  | ok g' =>
    simp only [settle] at h
    split at h
    · exact h
    · cases h

theorem run_build (request : BuildRequest F) (b : Builder X F α) :
    (build request).run b =
      let start := (register.run b).2
      let worked := (work b.services (register.run b).1 request).run start
      (conclude (register.run b).1 worked.1).run worked.2 := rfl

theorem build_ok {request : BuildRequest F} {g : Graph F α} (h : ((build request).run b).1 = .ok g) :
    ((register.run b).2.result (register.run b).1 b.services request).1 = .ok g := by
  rw [run_build, run_conclude] at h
  exact settle_ok h

/-- The builders of a session, in which services are exchanged, files edited, builds registered, run and
ended in any order. -/
inductive Reachable : Builder X F α → Prop where
  | start (services : Services X F α) (settings : LayoutSettings α) (versions : FileVersions)
      (outside : X) : Reachable (.start services settings versions outside)
  | setServices {b : Builder X F α} (services : Services X F α) :
      Reachable b → Reachable ((setServices services).run b).2
  | bump {b : Builder X F α} (file : Path) : Reachable b → Reachable ((bump file).run b).2
  | cancelCurrent {b : Builder X F α} : Reachable b → Reachable (cancelCurrent.run b).2
  | register {b : Builder X F α} : Reachable b → Reachable (register.run b).2
  | work {b : Builder X F α} (services : Services X F α) (ticket : Ticket) (request : BuildRequest F) :
      Reachable b → Reachable ((work services ticket request).run b).2
  | conclude {b : Builder X F α} (ticket : Ticket) (result : Except BuildError (Graph F α)) :
      Reachable b → Reachable ((conclude ticket result).run b).2

theorem Reachable.build (h : b.Reachable) (request : BuildRequest F) :
    Reachable ((Builder.build request).run b).2 := by
  rw [run_build]
  exact (h.register.work _ _ request).conclude _ _

/-- The desk is orderly and the cache tells the same calls in both directions. -/
structure Sound (b : Builder X F α) : Prop where
  desk : b.floor.desk.Orderly
  cache : b.cache.Synced

omit [Scalar α] in
theorem Sound.register (h : b.Sound) : (Builder.register.run b).2.Sound := ⟨h.desk.register, h.cache⟩

theorem Sound.work (h : b.Sound) (services : Services X F α) (ticket : Ticket) (request : BuildRequest F) :
    ((Builder.work services ticket request).run b).2.Sound := by
  have hlasting : Cache.Lasting (F := F) Cache.Synced :=
    ⟨fun coverage f answer v hc => hc.learned coverage f answer v, fun scope v hc => hc.pruned scope v,
      fun hits misses hc => hc.counted hits misses⟩
  have hrun := (services.keeps_orderly.site ticket).run hlasting b.settings ticket.build request
  obtain ⟨hdesk, hcache⟩ := hrun ⟨b.floor, b.cache, 0⟩ ⟨h.desk, h.cache⟩
  exact ⟨hdesk, hcache⟩

omit [Scalar α] in
theorem Sound.conclude (h : b.Sound) (ticket : Ticket) (result : Except BuildError (Graph F α)) :
    ((Builder.conclude ticket result).run b).2.Sound := by
  rw [run_conclude]
  refine ⟨?_, h.cache⟩
  cases result with
  | error e => exact h.desk.finish ticket.flag
  | ok g => exact (h.desk.finish ticket.flag).publish ticket.build g

theorem Reachable.sound (h : b.Reachable) : b.Sound := by
  induction h with
  | start => exact ⟨Desk.orderly_empty, Cache.synced_empty⟩
  | setServices _ _ ih => exact ⟨ih.desk, ih.cache⟩
  | bump _ _ ih => exact ⟨ih.desk, ih.cache⟩
  | cancelCurrent _ ih => exact ⟨ih.desk.cancelCurrent, ih.cache⟩
  | register _ ih => exact ih.register
  | work services ticket request _ ih => exact ih.work services ticket request
  | conclude ticket result _ ih => exact ih.conclude ticket result

/-- A build that is the only one to use the desk publishes its result. -/
theorem Sound.build_published (h : b.Sound) {request : BuildRequest F} {g : Graph F α}
    {τ : Search (Floor X F α) F}
    (hresult : (Builder.register.run b).2.result (Builder.register.run b).1 b.services request = (.ok g, τ))
    (hdesk : τ.world.desk = b.floor.desk.register.2) : ((Builder.build request).run b).1 = .ok g := by
  have hpublish : ((τ.world.desk.finish (Builder.register.run b).1.flag).publish
      (Builder.register.run b).1.build g).1 = true := by
    rw [hdesk]
    refine Desk.publish_of_le ?_ (fun other g' hpublished => ?_) g
    · unfold Desk.finish
      split <;> rfl
    · have hbefore : b.floor.desk.published = some (other, g') := by
        rw [← hpublished]
        unfold Desk.finish
        split <;> rfl
      exact Nat.le_succ_of_le (h.desk.published other g' hbefore)
  have hsettled : ((Builder.build request).run b).1 =
      (settle τ.world.desk (Builder.register.run b).1 (.ok g)).1 := by
    rw [run_build, run_conclude, run_work, hresult]
  rw [hsettled, settle]
  simp only [hpublish, if_true]

end Builder
end CallChart
