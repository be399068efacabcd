import CallChart.Proofs.Arrangement
import CallChart.Proofs.Requests

/-! How components are drawn one after the other, with a note of everything that the service is asked and
answers. The components that were drawn before one fails are drawn completely. -/
namespace CallChart

variable {W F α : Type} [Handle F] [Scalar α]

/-- The drawing has a finite position for each of the nodes, whatever else it has. -/
def RawLayout.Covers (raw : RawLayout α) (ids : List NodeId) : Prop :=
  ∀ id ∈ ids, ∃ p, raw.positions[id.label]? = some p ∧ p.isFinite = true

/-- A single node in the middle. -/
def Component.centred (c : Component) : Blueprint α :=
  c.nodes.map fun id => (id, ⟨Scalar.half, Scalar.half⟩)

namespace LayoutService

/-- What a service was asked and what it answered. -/
abbrev Exchange (α : Type) := LayoutRequest × Except LayoutError (RawLayout α)

/-- The same service in a world that also keeps what it was asked and what it answered. -/
def noted (service : LayoutService W α) : LayoutService (W × List (Exchange α)) α where
  cancelled := fun (w, log) => ((service.cancelled.run w).1, ((service.cancelled.run w).2, log))
  draw request := fun (w, log) =>
    let (answer, w') := (service.draw request).run w
    (answer, (w', log ++ [(request, answer)]))

variable {service : LayoutService W α} {settings : LayoutSettings α} {g : Graph F α} {c : Component}
  {cs : List Component} {I : W → Prop} {w w' : W} {log log' : List (Exchange α)}

omit [Scalar α] in
theorem Keeps.noted (hs : service.Keeps I) : service.noted.Keeps fun s => I s.1 where
  cancelled s := hs.cancelled s.1
  draw request s := hs.draw request s.1

/-- The service answers a request always alike. -/
def Answers (service : LayoutService W α) (I : W → Prop)
    (answer : LayoutRequest → Except LayoutError (RawLayout α)) : Prop :=
  ∀ request w, I w → ((service.draw request).run w).1 = answer request

omit [Scalar α] in
/-- What such a service is noted to answer. -/
theorem Keeps.noted_answers {answer : LayoutRequest → Except LayoutError (RawLayout α)} (hs : service.Keeps I)
    (hanswer : service.Answers I answer) :
    service.noted.Keeps fun s => I s.1 ∧ ∀ {request reply}, (request, reply) ∈ s.2 → reply = answer request := by
  refine ⟨fun s hs' => ⟨hs.cancelled s.1 hs'.1, hs'.2⟩, fun request s hs' => ⟨hs.draw request s.1 hs'.1, ?_⟩⟩
  intro request' reply hentry
  rcases List.mem_append.mp hentry with hold | hnew
  · exact hs'.2 hold
  · cases List.mem_singleton.mp hnew
    exact hanswer request s.1 hs'.1

/-! ### Answers -/

theorem positions_cons_ok {raw : RawLayout α} {id : NodeId} {rest : List NodeId} {b : Blueprint α}
    (h : positions raw (id :: rest) = .ok b) :
    ∃ p b', raw.positions[id.label]? = some p ∧ p.isFinite = true ∧ positions raw rest = .ok b' ∧
      b = (id, p) :: b' := by
  rw [positions] at h
  split at h
  · cases h
  · next p hp =>
    split at h
    · next hfinite =>
      cases hrest : positions raw rest with
      | error e =>
        rw [hrest] at h
        cases h
      | ok b' =>
        rw [hrest] at h
        cases h
        exact ⟨p, b', hp, hfinite, rfl, rfl⟩
    · cases h

theorem positions_ok {raw : RawLayout α} {ids : List NodeId} {b : Blueprint α} (h : positions raw ids = .ok b) :
    b.map Prod.fst = ids ∧ raw.Covers ids := by
  induction ids generalizing b with
  | nil =>
    cases h
    exact ⟨rfl, by simp [RawLayout.Covers]⟩
  | cons id rest ih =>
    obtain ⟨p, b', hp, hfinite, hrest, rfl⟩ := positions_cons_ok h
    obtain ⟨hids, hcovers⟩ := ih hrest
    exact ⟨congrArg (id :: ·) hids, List.forall_mem_cons.mpr ⟨⟨p, hp, hfinite⟩, hcovers⟩⟩

theorem exists_positions_of_covers {raw : RawLayout α} {ids : List NodeId} (h : raw.Covers ids) :
    ∃ b, positions raw ids = .ok b := by
  induction ids with
  | nil => exact ⟨[], rfl⟩
  | cons id rest ih =>
    obtain ⟨⟨p, hp, hfinite⟩, hrest⟩ := List.forall_mem_cons.mp h
    obtain ⟨b, hb⟩ := ih hrest
    refine ⟨(id, p) :: b, ?_⟩
    simp only [positions, hp, hfinite, if_true, hb]
    rfl

/-- The points are those of the answer. -/
theorem mem_positions {raw : RawLayout α} {ids : List NodeId} {b : Blueprint α} (h : positions raw ids = .ok b)
    {id : NodeId} {p : Point α} : (id, p) ∈ b ↔ id ∈ ids ∧ raw.positions[id.label]? = some p := by
  have hfound {id : NodeId} {p : Point α} (hp : (id, p) ∈ b) : raw.positions[id.label]? = some p := by
    induction ids generalizing b with
    | nil =>
      cases h
      cases hp
    | cons first rest ih =>
      obtain ⟨q, b', hq, -, hrest, rfl⟩ := positions_cons_ok h
      rcases List.mem_cons.mp hp with heq | hlater
      · cases heq
        exact hq
      · exact ih hrest hlater
  have hids := (positions_ok h).1
  constructor
  · exact fun hp => ⟨hids ▸ List.mem_map_of_mem hp, hfound hp⟩
  · rintro ⟨hid, hp⟩
    obtain ⟨⟨id', q⟩, hq, heq⟩ := List.mem_map.mp (hids ▸ hid)
    obtain rfl : id' = id := heq
    obtain rfl := Option.some.inj ((hfound hq).symm.trans hp)
    exact hq

/-- The positions that an answer gives to the nodes of a component, as they are. -/
def placed (g : Graph F α) (c : Component) (answer : Except LayoutError (RawLayout α)) :
    Except LayoutError (Blueprint α) :=
  answer.bind fun raw => positions raw (LayoutRequest.order g c)

theorem exists_placed_iff {answer : Except LayoutError (RawLayout α)} :
    (∃ b, placed g c answer = .ok b) ↔ ∃ raw, answer = .ok raw ∧ raw.Covers c.nodes := by
  have hcovers (raw : RawLayout α) : raw.Covers (LayoutRequest.order g c) ↔ raw.Covers c.nodes :=
    forall_congr' fun id => imp_congr_left (LayoutRequest.perm_order g c).mem_iff
  cases answer with
  | error e => exact iff_of_false (fun ⟨_, h⟩ => by cases h) fun ⟨_, h, _⟩ => by cases h
  | ok raw =>
    constructor
    · rintro ⟨b, hb⟩
      exact ⟨raw, rfl, (hcovers raw).mp (positions_ok hb).2⟩
    · rintro ⟨_, hraw, h⟩
      cases hraw
      exact exists_positions_of_covers ((hcovers raw).mpr h)

/-- The blueprint that an answer makes of a component: the positions, scaled to the grid. -/
def blueprint (settings : LayoutSettings α) (g : Graph F α) (c : Component)
    (answer : Except LayoutError (RawLayout α)) : Except LayoutError (Blueprint α) :=
  (placed g c answer).bind (onGrid settings)

theorem blueprint_eq_ok_iff {answer : Except LayoutError (RawLayout α)} {b : Blueprint α} :
    blueprint settings g c answer = .ok b ↔
      ∃ raw b', answer = .ok raw ∧ placed g c (.ok raw) = .ok b' ∧
        b'.normalize settings.gridSize settings.precision = some b := by
  unfold blueprint
  constructor
  · intro h
    obtain ⟨b', hplaced, hscaled⟩ := Except.bind_eq_ok.mp h
    obtain ⟨raw, rfl, -⟩ := exists_placed_iff.mp ⟨b', hplaced⟩
    exact ⟨raw, b', rfl, hplaced, onGrid_eq_ok_iff.mp hscaled⟩
  · rintro ⟨raw, b', rfl, hplaced, hscaled⟩
    exact Except.bind_eq_ok.mpr ⟨b', hplaced, onGrid_eq_ok_iff.mpr hscaled⟩

/-! ### One component -/

theorem after_drawComponent (service : LayoutService W α) (settings : LayoutSettings α) (g : Graph F α)
    (c : Component) (w : W) :
    (service.drawComponent settings g c).after w =
      if (service.cancelled.run w).1 then (.error .cancelled, (service.cancelled.run w).2)
      else if c.nodes.length = 1 then (.ok c.centred, (service.cancelled.run w).2)
      else
        let drawn := (service.draw (LayoutRequest.ofComponent g c)).run (service.cancelled.run w).2
        (blueprint settings g c drawn.1, drawn.2) := by
  unfold drawComponent
  rw [ExceptT.after_bind, after_checkCancelled]
  cases (service.cancelled.run w).1 with
  | true => rfl
  | false =>
    simp only [Bool.false_eq_true, if_false]
    split
    · rfl
    · rw [ExceptT.after_bind, ExceptT.after_mk]
      rcases (service.draw (LayoutRequest.ofComponent g c)).run (service.cancelled.run w).2 with ⟨e | raw, w'⟩
      · rfl
      · dsimp only [blueprint, placed, Except.bind]
        rw [ExceptT.after_bind, ExceptT.after_mk]
        cases positions raw (LayoutRequest.order g c) <;> rfl

/-- What the notes of a service tell about one component. -/
theorem drawComponent_cases {result : Except LayoutError (Blueprint α)}
    (h : (service.noted.drawComponent settings g c).after (w, log) = (result, (w', log'))) :
    (log' = log ∧ result = .error .cancelled ∧ (service.cancelled.run w).1 = true) ∨
      (c.nodes.length = 1 ∧ log' = log ∧ result = .ok c.centred) ∨
      (c.nodes.length ≠ 1 ∧ ∃ answer, log' = log ++ [(LayoutRequest.ofComponent g c, answer)] ∧
        result = blueprint settings g c answer) := by
  rw [after_drawComponent] at h
  split at h
  · next hstop =>
    cases h
    exact .inl ⟨rfl, rfl, hstop⟩
  · split at h
    · next hone =>
      cases h
      exact .inr (.inl ⟨hone, rfl, rfl⟩)
    · next hmany =>
      cases h
      exact .inr (.inr ⟨hmany, _, rfl, rfl⟩)

/-- The notes change nothing else. -/
theorem noted_drawComponent (service : LayoutService W α) (settings : LayoutSettings α) (g : Graph F α)
    (c : Component) (w : W) (log : List (Exchange α)) :
    ∃ log', (service.noted.drawComponent settings g c).after (w, log) =
      (((service.drawComponent settings g c).after w).1, (((service.drawComponent settings g c).after w).2, log')) := by
  rw [after_drawComponent, after_drawComponent]
  change ∃ log', (if (service.cancelled.run w).1 then _ else _) = _
  cases (service.cancelled.run w).1 with
  | true => exact ⟨log, rfl⟩
  | false =>
    simp only [Bool.false_eq_true, if_false]
    split
    · exact ⟨log, rfl⟩
    · exact ⟨_, rfl⟩

theorem noted_drawAll (service : LayoutService W α) (settings : LayoutSettings α) (g : Graph F α)
    (cs : List Component) (w : W) (log : List (Exchange α)) :
    ∃ log', (service.noted.drawAll settings g cs).after (w, log) =
      (((service.drawAll settings g cs).after w).1, (((service.drawAll settings g cs).after w).2, log')) := by
  induction cs generalizing w log with
  | nil => exact ⟨log, rfl⟩
  | cons c rest ih =>
    obtain ⟨log₁, hfirst⟩ := noted_drawComponent service settings g c w log
    unfold drawAll
    rw [ExceptT.after_bind, ExceptT.after_bind, hfirst]
    rcases (service.drawComponent settings g c).after w with ⟨_ | b, w₁⟩
    · exact ⟨log₁, rfl⟩
    · obtain ⟨log₂, hrest⟩ := ih w₁ log₁
      dsimp only
      rw [ExceptT.after_bind, ExceptT.after_bind, hrest]
      rcases (service.drawAll settings g rest).after w₁ with ⟨_ | bs, w₂⟩ <;> exact ⟨log₂, rfl⟩

theorem noted_compute (service : LayoutService W α) (settings : LayoutSettings α) (g : Graph F α) (w : W)
    (log : List (Exchange α)) :
    ∃ log', (service.noted.compute settings g).after (w, log) =
      (((service.compute settings g).after w).1, (((service.compute settings g).after w).2, log')) := by
  obtain ⟨log', hall⟩ := noted_drawAll service settings g g.components w log
  refine ⟨log', ?_⟩
  unfold compute
  rw [ExceptT.after_bind, ExceptT.after_bind, hall]
  rcases (service.drawAll settings g g.components).after w with ⟨_ | bs, w'⟩ <;> rfl

theorem noted_arrange (service : LayoutService W α) (settings : LayoutSettings α) (g : Graph F α) (w : W)
    (log : List (Exchange α)) :
    ∃ log', (service.noted.arrange settings g).after (w, log) =
      (((service.arrange settings g).after w).1, (((service.arrange settings g).after w).2, log')) := by
  unfold arrange
  split
  · exact ⟨log, rfl⟩
  · obtain ⟨log', hcompute⟩ := noted_compute service settings g w log
    refine ⟨log', ?_⟩
    rw [ExceptT.after_bind, ExceptT.after_bind, hcompute]
    rcases (service.compute settings g).after w with ⟨_ | points, w'⟩ <;> rfl

theorem Keeps.compute (hs : service.Keeps I) (settings : LayoutSettings α) (g : Graph F α) :
    (service.compute settings g).Preserves I :=
  .bind (hs.drawAll settings g _) fun _ => ExceptT.preserves_pure _ _

/-! ### What a layout depends on -/

/-- Two components with the same nodes and the same request. -/
structure Alike (g : Graph F α) (c : Component) (g' : Graph F α) (c' : Component) : Prop where
  nodes : c.nodes.Perm c'.nodes
  order : LayoutRequest.order g c = LayoutRequest.order g' c'
  request : LayoutRequest.ofComponent g c = LayoutRequest.ofComponent g' c'

variable {g' : Graph F α} {c' : Component} {cs' : List Component}

/-- Such components are drawn alike. -/
theorem Alike.drawComponent (h : Alike g c g' c') (service : LayoutService W α) (settings : LayoutSettings α) :
    service.drawComponent settings g c = service.drawComponent settings g' c' := by
  unfold LayoutService.drawComponent
  rw [h.nodes.length_eq, h.order, h.request]
  split
  · next hone =>
    obtain ⟨id, hid⟩ := List.length_eq_one_iff.mp hone
    have hsame : c.nodes = [id] := List.perm_singleton.mp (hid ▸ h.nodes)
    rw [hsame, hid]
  · rfl

/-- A layout depends on the requests only, in the order of the components. -/
theorem compute_congr (h : List.Forall₂ (fun c c' => Alike g c g' c') g.components g'.components)
    (service : LayoutService W α) (settings : LayoutSettings α) :
    service.compute settings g = service.compute settings g' := by
  have hall : service.drawAll settings g g.components = service.drawAll settings g' g'.components := by
    generalize g.components = cs, g'.components = cs' at h
    induction h with
    | nil => rfl
    | cons halike _ ih =>
      unfold drawAll
      rw [halike.drawComponent, ih]
  rw [compute, compute, hall]

/-! ### All components -/

/-- Components that are drawn, what is noted of it, and the blueprints that they become. -/
inductive Drawn (settings : LayoutSettings α) (g : Graph F α) :
    List Component → List (Exchange α) → List (Blueprint α) → Prop where
  | nil : Drawn settings g [] [] []
  /-- A single node needs no question. -/
  | single {c : Component} {cs : List Component} {log : List (Exchange α)} {bs : List (Blueprint α)} :
      c.nodes.length = 1 → Drawn settings g cs log bs → Drawn settings g (c :: cs) log (c.centred :: bs)
  | answered {c : Component} {cs : List Component} {log : List (Exchange α)} {bs : List (Blueprint α)}
      {raw : RawLayout α} {b b' : Blueprint α} : c.nodes.length ≠ 1 → placed g c (.ok raw) = .ok b →
      b.normalize settings.gridSize settings.precision = some b' → Drawn settings g cs log bs →
      Drawn settings g (c :: cs) ((LayoutRequest.ofComponent g c, .ok raw) :: log) (b' :: bs)

/-- A component that fails because it is to stop, which happens in some world of a kind, or because of
what the service answers or what its answer comes to. -/
inductive Failed (service : LayoutService W α) (settings : LayoutSettings α) (I : W → Prop) (g : Graph F α)
    (c : Component) : List (Exchange α) → LayoutError → Prop where
  | stopped {w : W} : I w → (service.cancelled.run w).1 = true → Failed service settings I g c [] .cancelled
  | refused {answer : Except LayoutError (RawLayout α)} {e : LayoutError} : c.nodes.length ≠ 1 →
      blueprint settings g c answer = .error e →
      Failed service settings I g c [(LayoutRequest.ofComponent g c, answer)] e

theorem drawComponent_ok {b : Blueprint α}
    (h : (service.noted.drawComponent settings g c).after (w, log) = (.ok b, (w', log'))) :
    ∃ new, log' = log ++ new ∧
      ∀ {cs more bs}, Drawn settings g cs more bs → Drawn settings g (c :: cs) (new ++ more) (b :: bs) := by
  rcases drawComponent_cases h with ⟨-, hfailed, -⟩ | ⟨hone, rfl, hb⟩ | ⟨hmany, answer, rfl, hb⟩
  · cases hfailed
  · cases hb
    exact ⟨[], (List.append_nil _).symm, fun hdrawn => .single hone hdrawn⟩
  · obtain ⟨raw, b', rfl, hplaced, hscaled⟩ := blueprint_eq_ok_iff.mp hb.symm
    exact ⟨_, rfl, fun hdrawn => .answered hmany hplaced hscaled hdrawn⟩

theorem drawComponent_error (hw : I w) {e : LayoutError}
    (h : (service.noted.drawComponent settings g c).after (w, log) = (.error e, (w', log'))) :
    ∃ last, log' = log ++ last ∧ Failed service settings I g c last e := by
  rcases drawComponent_cases h with ⟨rfl, hfailed, hstop⟩ | ⟨-, -, hb⟩ | ⟨hmany, answer, rfl, hb⟩
  · cases hfailed
    exact ⟨[], (List.append_nil _).symm, .stopped hw hstop⟩
  · cases hb
  · exact ⟨_, rfl, .refused hmany hb.symm⟩

theorem drawAll_ok {bs : List (Blueprint α)}
    (h : (service.noted.drawAll settings g cs).after (w, log) = (.ok bs, (w', log'))) :
    ∃ new, log' = log ++ new ∧ Drawn settings g cs new bs := by
  induction cs generalizing w log bs with
  | nil =>
    cases h
    exact ⟨[], (List.append_nil _).symm, .nil⟩
  | cons c rest ih =>
    obtain ⟨b, ⟨w₁, log₁⟩, hfirst, hmore⟩ := ExceptT.after_bind_ok.mp h
    obtain ⟨bs', ⟨w₂, log₂⟩, hrest, hdone⟩ := ExceptT.after_bind_ok.mp hmore
    cases hdone
    obtain ⟨new, rfl, hdrawn⟩ := drawComponent_ok hfirst
    obtain ⟨more, rfl, hall⟩ := ih hrest
    exact ⟨new ++ more, List.append_assoc _ _ _, hdrawn hall⟩

/-- A layout fails at one component, behind those that are drawn. -/
theorem drawAll_error (hs : service.Keeps I) (hw : I w) {e : LayoutError}
    (h : (service.noted.drawAll settings g cs).after (w, log) = (.error e, (w', log'))) :
    ∃ done c rest new last bs, cs = done ++ c :: rest ∧ log' = log ++ (new ++ last) ∧
      Drawn settings g done new bs ∧ Failed service settings I g c last e := by
  induction cs generalizing w log with
  | nil => cases h
  | cons c rest ih =>
    rcases ExceptT.after_bind_error.mp h with hfirst | ⟨b, ⟨w₁, log₁⟩, hfirst, hmore⟩
    · obtain ⟨last, rfl, hfailed⟩ := drawComponent_error hw hfirst
      exact ⟨[], c, rest, [], last, [], rfl, rfl, .nil, hfailed⟩
    · have hw₁ : I w₁ := by
        have hkept := hs.noted.drawComponent settings g c (w, log) hw
        rwa [hfirst] at hkept
      obtain ⟨new, rfl, hdrawn⟩ := drawComponent_ok hfirst
      rcases ExceptT.after_bind_error.mp hmore with hrest | ⟨bs, ⟨w₂, log₂⟩, -, hdone⟩
      · obtain ⟨done, d, later, more, last, bs, rfl, rfl, hall, hfailed⟩ := ih hw₁ hrest
        refine ⟨c :: done, d, later, new ++ more, last, b :: bs, rfl, ?_, hdrawn hall, hfailed⟩
        rw [List.append_assoc, List.append_assoc]
      · cases hdone

namespace Drawn

variable {bs : List (Blueprint α)}

/-- Every component of more than one node was asked about once, in order. -/
theorem requests (h : Drawn settings g cs log bs) :
    log.map Prod.fst = (cs.filter (·.nodes.length ≠ 1)).map (LayoutRequest.ofComponent g) := by
  induction h with
  | nil => rfl
  | single hone _ ih => rw [ih, List.filter_cons_of_neg (by simp [hone])]
  | answered hmany _ _ _ ih =>
    rw [List.filter_cons_of_pos (by simp [hmany]), List.map_cons, List.map_cons, ih]

/-- The blueprint of a component has its nodes, each once. -/
theorem nodes (h : Drawn settings g cs log bs) :
    List.Forall₂ (fun c b => (b.map Prod.fst).Perm c.nodes) cs bs := by
  induction h with
  | nil => exact .nil
  | @single c _ _ _ _ _ ih =>
    refine .cons (.of_eq ?_) ih
    rw [Component.centred, List.map_map]
    exact List.map_id c.nodes
  | @answered c _ _ _ raw b _ _ hplaced hscaled _ ih =>
    refine .cons ?_ ih
    rw [Blueprint.ids_normalize hscaled, (positions_ok hplaced).1]
    exact LayoutRequest.perm_order g c

/-- What a service is noted to answer, placed and scaled, is the blueprint of the component asked about. -/
theorem answered_of_mem (h : Drawn settings g cs log bs) {request : LayoutRequest} {raw : RawLayout α}
    (hin : (request, .ok raw) ∈ log) :
    ∃ c ∈ cs, request = LayoutRequest.ofComponent g c ∧ ∃ b, placed g c (.ok raw) = .ok b ∧
      ∃ b' ∈ bs, b.normalize settings.gridSize settings.precision = some b' := by
  induction h with
  | nil => cases hin
  | single _ _ ih =>
    obtain ⟨c, hc, hrequest, b, hb, b', hmem, hscaled⟩ := ih hin
    exact ⟨c, List.mem_cons_of_mem _ hc, hrequest, b, hb, b', List.mem_cons_of_mem _ hmem, hscaled⟩
  | answered _ hplaced hscaled _ ih =>
    rcases List.mem_cons.mp hin with heq | hrest
    · cases heq
      exact ⟨_, List.mem_cons_self, rfl, _, hplaced, _, List.mem_cons_self, hscaled⟩
    · obtain ⟨c, hc, hrequest, b, hb, b', hmem, hscaled'⟩ := ih hrest
      exact ⟨c, List.mem_cons_of_mem _ hc, hrequest, b, hb, b', List.mem_cons_of_mem _ hmem, hscaled'⟩

end Drawn

end LayoutService
end CallChart
