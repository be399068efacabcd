import CallChart.Proofs.AxisOrientation
import CallChart.Proofs.DrawnAtOnce
import CallChart.Proofs.Layouts

/-! A layout succeeds exactly if the service gives complete answers that can be scaled to the grid, and then it moves
every node once. A layout that fails leaves a graph as it was. The components may be drawn in turn or at once. -/
namespace CallChart

variable {W F α : Type} [Handle F] [Scalar α]

namespace LayoutService

variable {service : LayoutService W α} {settings : LayoutSettings α} {I : W → Prop} {g : Graph F α} {c : Component}
  {cs cs' : List Component} {log log' page : List (Exchange α)} {bs bs' : List (Blueprint α)}

theorem Drawn.append (h : Drawn settings g cs log bs) (h' : Drawn settings g cs' log' bs') :
    Drawn settings g (cs ++ cs') (log ++ log') (bs ++ bs') := by
  induction h with
  | nil => exact h'
  | single hone _ ih => exact .single hone ih
  | answered hmany hplaced hscaled _ ih => exact .answered hmany hplaced hscaled ih

theorem Drawn.of_blueprint {answer : Except LayoutError (RawLayout α)} {b : Blueprint α} (hmany : c.nodes.length ≠ 1)
    (h : blueprint settings g c answer = .ok b) :
    Drawn settings g [c] [(LayoutRequest.ofComponent g c, answer)] [b] := by
  obtain ⟨raw, b', rfl, hplaced, hscaled⟩ := blueprint_eq_ok_iff.mp h
  exact .answered hmany hplaced hscaled .nil

/-- Every component of more than one node has got a complete answer that does not overflow. -/
theorem Drawn.exists_reply (h : Drawn settings g cs log bs) (hc : c ∈ cs) (hmany : c.nodes.length ≠ 1) :
    ∃ reply, (LayoutRequest.ofComponent g c, reply) ∈ log ∧ CompleteFor c reply ∧ ¬ Overflows settings g c reply := by
  induction h with
  | nil => cases hc
  | single hone _ ih =>
    rcases List.mem_cons.mp hc with rfl | hrest
    · exact absurd hone hmany
    · exact ih hrest
  | @answered d _ _ _ raw b b' _ hplaced hscaled _ ih =>
    rcases List.mem_cons.mp hc with rfl | hrest
    · exact ⟨.ok raw, List.mem_cons_self,
        exists_blueprint_iff.mp ⟨b', blueprint_eq_ok_iff.mpr ⟨raw, b, rfl, hplaced, hscaled⟩⟩⟩
    · obtain ⟨reply, hin, hgood⟩ := ih hrest
      exact ⟨reply, List.mem_cons_of_mem _ hin, hgood⟩

end LayoutService

/-! ### What is noted of components that are drawn at once -/

namespace Studio

open LayoutService

variable {service : LayoutService W α} {settings : LayoutSettings α} {I : W → Prop} {g : Graph F α} {c : Component}
  {before rest sketches : List (Component × Sketch α)} {log log' page : List (Exchange α)}

/-- What is noted of one component, as far as it has come. -/
inductive Page (service : LayoutService W α) (settings : LayoutSettings α) (I : W → Prop) (g : Graph F α)
    (c : Component) : Sketch α → List (Exchange α) → Prop where
  | waiting : Page service settings I g c .waiting []
  | leaving : Page service settings I g c .leaving []
  | dropped : Page service settings I g c .dropped []
  | done {page : List (Exchange α)} {b : Blueprint α} : Drawn settings g [c] page [b] →
      Page service settings I g c (.done b) page
  | failed {page : List (Exchange α)} {e : LayoutError} : Failed service settings I g c page e →
      Page service settings I g c (.failed e) page

/-- What is noted of all of them, one component after the other. -/
inductive Pages (service : LayoutService W α) (settings : LayoutSettings α) (I : W → Prop) (g : Graph F α) :
    List (Component × Sketch α) → List (Exchange α) → Prop where
  | nil : Pages service settings I g [] []
  | cons {c : Component} {sketch : Sketch α} {rest : List (Component × Sketch α)} {page log : List (Exchange α)} :
      Page service settings I g c sketch page → Pages service settings I g rest log →
      Pages service settings I g ((c, sketch) :: rest) (page ++ log)

theorem Pages.append (h : Pages service settings I g before log) (h' : Pages service settings I g rest log') :
    Pages service settings I g (before ++ rest) (log ++ log') := by
  induction h with
  | nil => exact h'
  | cons hpage _ ih =>
    rw [List.append_assoc]
    exact .cons hpage ih

theorem Pages.split (h : Pages service settings I g (before ++ rest) log) : ∃ first last,
    Pages service settings I g before first ∧ Pages service settings I g rest last ∧ log = first ++ last := by
  induction before generalizing log with
  | nil => exact ⟨[], log, .nil, h, rfl⟩
  | cons _ _ ih =>
    cases h with
    | cons hpage hlater =>
      obtain ⟨first, last, hfirst, hlast, rfl⟩ := ih hlater
      exact ⟨_, last, .cons hpage hfirst, hlast, (List.append_assoc _ _ _).symm⟩

/-- The page of one component between those before and behind it. -/
theorem Pages.between {sketch : Sketch α} (h : Pages service settings I g (before ++ (c, sketch) :: rest) log) :
    ∃ first page last, Page service settings I g c sketch page ∧ log = first ++ (page ++ last) ∧
      ∀ {sketch' page'}, Page service settings I g c sketch' page' →
        Pages service settings I g (before ++ (c, sketch') :: rest) (first ++ (page' ++ last)) := by
  obtain ⟨first, later, hfirst, hlater, rfl⟩ := h.split
  cases hlater with
  | cons hpage hlast => exact ⟨first, _, _, hpage, rfl, fun hpage' => hfirst.append (.cons hpage' hlast)⟩

/-- The notes are the pages of the components, in some order. -/
structure Recorded (service : LayoutService W α) (settings : LayoutSettings α) (I : W → Prop) (g : Graph F α)
    (studio : Studio (W × List (Exchange α)) α) : Prop where
  kept : I studio.world.1
  pages : ∃ log, studio.world.2.Perm log ∧ Pages service settings I g studio.sketches log

theorem Step.recorded {s s' : Studio (W × List (Exchange α)) α} (hs : service.Keeps I)
    (hstep : Step service.noted settings g s s') (h : Recorded service settings I g s) :
    Recorded service settings I g s' := by
  obtain ⟨hw, log, hperm, hpages⟩ := h
  cases hstep with
  | drop before rest _ =>
    obtain ⟨first, page, last, hpage, rfl, hmore⟩ := hpages.between
    cases hpage
    exact ⟨hw, _, hperm, hmore .dropped⟩
  | @advance before rest c w w' sketch sketch' hadvance =>
    obtain ⟨first, page, last, hpage, rfl, hmore⟩ := hpages.between
    -- an exchange is noted behind all others, and belongs behind the pages of the components before it
    have hnoted (entry : Exchange α) (hempty : page = []) : (w.2 ++ [entry]).Perm (first ++ ([entry] ++ last)) := by
      subst hempty
      calc (w.2 ++ [entry]).Perm ((first ++ last) ++ [entry]) := hperm.append_right _
        _ = first ++ (last ++ [entry]) := List.append_assoc _ _ _
        (first ++ (last ++ [entry])).Perm (first ++ ([entry] ++ last)) := List.perm_append_comm.append_left _
    cases hadvance with
    | leave _ =>
      cases hpage
      exact ⟨hs.cancelled _ hw, _, hperm, hmore .leaving⟩
    | stop hstopped =>
      cases hpage
      exact ⟨hs.cancelled _ hw, _, hperm, hmore (.failed (.stopped hw hstopped))⟩
    | centre hone =>
      cases hpage
      exact ⟨hw, _, hperm, hmore (.done (.single hone .nil))⟩
    | draw hmany hdrawn =>
      cases hpage
      exact ⟨hs.draw _ _ hw, _, hnoted _ rfl, hmore (.done (.of_blueprint hmany hdrawn))⟩
    | fail hmany hdrawn =>
      cases hpage
      exact ⟨hs.draw _ _ hw, _, hnoted _ rfl, hmore (.failed (.refused hmany hdrawn))⟩

theorem Run.recorded {s s' : Studio (W × List (Exchange α)) α} (hs : service.Keeps I)
    (hrun : Run service.noted settings g s s') (h : Recorded service settings I g s) :
    Recorded service settings I g s' := by
  induction hrun with
  | refl => exact h
  | tail _ hstep ih => exact hstep.recorded hs ih

theorem Run.kept {s s' : Studio W α} (hs : service.Keeps I) (hrun : Run service settings g s s') (h : I s.world) :
    I s'.world := by
  induction hrun with
  | refl => exact h
  | tail _ hstep ih =>
    cases hstep with
    | drop => exact ih
    | advance before rest hadvance =>
      cases hadvance with
      | leave | stop => exact hs.cancelled _ ih
      | centre => exact ih
      | draw | fail => exact hs.draw _ _ ih

theorem recorded_begin {w : W} (hw : I w) (components : List Component) :
    Recorded service settings I g (.begin (w, []) components) := by
  refine ⟨hw, [], .nil, ?_⟩
  induction components with
  | nil => exact .nil
  | cons c rest ih => exact .cons .waiting ih

/-- No component is lost on the way. -/
theorem Run.components {s s' : Studio W α} (hrun : Run service settings g s s') :
    s'.sketches.map Prod.fst = s.sketches.map Prod.fst := by
  induction hrun with
  | refl => rfl
  | tail _ hstep ih => cases hstep <;> simpa using ih

/-! ### What the notes come to -/

/-- Sketches that are all done are the drawings of their components. -/
theorem Pages.drawn (h : Pages service settings I g sketches log) {bs : List (Blueprint α)}
    (hends : sketches.map Prod.snd = bs.map .done) : Drawn settings g (sketches.map Prod.fst) log bs := by
  induction h generalizing bs with
  | nil =>
    obtain rfl := List.map_eq_nil_iff.mp hends.symm
    exact .nil
  | cons hpage _ ih =>
    cases bs with
    | nil => cases hends
    | cons b rest =>
      obtain ⟨rfl, hrest⟩ := List.cons.inj hends
      cases hpage with
      | done hdrawn => exact hdrawn.append (ih hrest)

theorem Pages.failed (h : Pages service settings I g sketches log) {e : LayoutError}
    (hfailed : (c, .failed e) ∈ sketches) :
    ∃ page, Failed service settings I g c page e ∧ page ⊆ log := by
  induction h with
  | nil => cases hfailed
  | cons hpage _ ih =>
    rcases List.mem_cons.mp hfailed with heq | hrest
    · cases heq
      cases hpage with
      | failed h => exact ⟨_, h, List.subset_append_left _ _⟩
    · obtain ⟨page, h, hsub⟩ := ih hrest
      exact ⟨page, h, List.Subset.trans hsub (List.subset_append_right _ _)⟩

/-- Every component of more than one node was asked about once at most, and no other. -/
theorem Pages.asked (h : Pages service settings I g sketches log) : (log.map Prod.fst).Sublist
    (((sketches.map Prod.fst).filter (·.nodes.length ≠ 1)).map (LayoutRequest.ofComponent g)) := by
  have hone {c : Component} {sketch : Sketch α} {page : List (Exchange α)}
      (hpage : Page service settings I g c sketch page) :
      (page.map Prod.fst).Sublist (([c].filter (·.nodes.length ≠ 1)).map (LayoutRequest.ofComponent g)) := by
    cases hpage with
    | waiting | leaving | dropped => exact List.nil_sublist _
    | done hdrawn => exact hdrawn.requests ▸ List.Sublist.refl _
    | failed hfailed =>
      cases hfailed with
      | stopped _ _ => exact List.nil_sublist _
      | refused hmany _ =>
        rw [List.filter_cons_of_pos (by simp [hmany])]
        exact List.Sublist.refl _
  induction h with
  | nil => exact List.nil_sublist _
  | @cons c _ rest page _ hpage _ ih =>
    have happend : ((c :: rest.map Prod.fst).filter (·.nodes.length ≠ 1)).map (LayoutRequest.ofComponent g) =
        ([c].filter (·.nodes.length ≠ 1)).map (LayoutRequest.ofComponent g) ++
          ((rest.map Prod.fst).filter (·.nodes.length ≠ 1)).map (LayoutRequest.ofComponent g) := by
      rw [← List.map_append, ← List.filter_append, List.singleton_append]
    rw [List.map_append, List.map_cons, happend]
    exact (hone hpage).append ih

end Studio

/-! ### Layouts of a graph where it is kept -/

namespace LayoutService

/-- How the points of all nodes may be computed: with one component drawn after the other, or with all of them drawn at
once. -/
inductive Computes (service : LayoutService W α) (settings : LayoutSettings α) :
    (Graph F α → ExceptT LayoutError (StateM W) (Placement α)) → Prop where
  | inTurn : Computes service settings (service.compute settings)
  | atOnce {compute : Graph F α → ExceptT LayoutError (StateM W) (Placement α)} :
      (∀ g w, ∃ studio outcome, Studio.Run service settings g (.begin w g.components) studio ∧ studio.Ends outcome ∧
        (compute g).after w = (outcome.map fun bs =>
          .ofList ((Blueprint.stack settings.gridSize bs).fit settings.inset), studio.world)) →
      Computes service settings compute

/-- A step in the world, with a graph beside it that the step does not touch. -/
def beside {ε β : Type} (step : ExceptT ε (StateM W) β) : ExceptT ε (StateM (W × Graph F α)) β :=
  ExceptT.mk fun s => ((step.after s.1).1, ((step.after s.1).2, s.2))

omit [Handle F] [Scalar α] in
theorem after_beside {ε β : Type} (step : ExceptT ε (StateM W) β) (s : W × Graph F α) :
    (beside step).after s = ((step.after s.1).1, ((step.after s.1).2, s.2)) := rfl

/-- Lays out a graph where it is kept. What is found of its components is remembered, and its nodes are
written to when all points are there. -/
def inPlace (compute : Graph F α → ExceptT LayoutError (StateM W) (Placement α)) :
    ExceptT LayoutError (StateM (W × Graph F α)) Unit := do
  let g := (← get).2
  if g.isEmpty then return
  modify fun s => (s.1, s.2.remember)
  let points ← beside (compute g)
  modify fun s => (s.1, s.2.applyLayout points)

variable {service : LayoutService W α} {settings : LayoutSettings α} {I : W → Prop} {g g' : Graph F α} {w w' : W}
  {log : List (Exchange α)} {compute : Graph F α → ExceptT LayoutError (StateM W) (Placement α)}

omit [Handle F] [Scalar α] in
theorem after_inPlace (compute : Graph F α → ExceptT LayoutError (StateM W) (Placement α)) (w : W) (g : Graph F α) :
    (inPlace compute).after (w, g) =
      if g.isEmpty then (.ok (), (w, g))
      else
        match (compute g).after w with
        | (.ok points, w') => (.ok (), (w', g.remember.applyLayout points))
        | (.error e, w') => (.error e, (w', g.remember)) := by
  unfold inPlace
  rw [ExceptT.after_bind]
  change (if g.isEmpty = true then _ else _ : ExceptT LayoutError (StateM (W × Graph F α)) Unit).after (w, g) = _
  split
  · rfl
  · rw [ExceptT.after_bind]
    change (beside (compute g) >>= _ : ExceptT LayoutError (StateM (W × Graph F α)) Unit).after (w, g.remember) = _
    rw [ExceptT.after_bind, after_beside]
    dsimp only
    rcases (compute g).after w with ⟨_ | _, _⟩ <;> rfl

/-- The same layout, which gives back the graph without what was found of its components. -/
def givingBack (compute : Graph F α → ExceptT LayoutError (StateM W) (Placement α)) (g : Graph F α) :
    StateM W (Except LayoutError (Graph F α)) := fun w =>
  let run := (inPlace compute).after (w, g)
  (run.1.map fun _ => { run.2.2 with knownComponents := g.knownComponents }, run.2.1)

theorem arrange_eq_givingBack (service : LayoutService W α) (settings : LayoutSettings α) (g : Graph F α) :
    (service.arrange settings g).run = givingBack (service.compute settings) g := by
  funext w
  rw [givingBack, after_inPlace]
  change (service.arrange settings g).after w = _
  rw [arrange]
  split
  · rfl
  · rw [ExceptT.after_bind]
    rcases (service.compute settings g).after w with ⟨_ | _, _⟩ <;> rfl

theorem Computes.exists_run (h : service.Computes settings compute) (g : Graph F α) (w : W) :
    ∃ studio outcome, Studio.Run service settings g (.begin w g.components) studio ∧ studio.Ends outcome ∧
      (compute g).after w = (outcome.map fun bs =>
        .ofList ((Blueprint.stack settings.gridSize bs).fit settings.inset), studio.world) := by
  cases h with
  | inTurn => exact service.exists_run_compute settings g w
  | atOnce hruns => exact hruns g w

/-- A layout with the points computed in one of these ways is one that draws all components at once. -/
theorem Computes.atOnce_givingBack (h : service.Computes settings compute) :
    service.AtOnce settings (givingBack (F := F) compute) := by
  refine fun g w => ⟨fun hempty => ?_, fun hnodes => ?_⟩
  · change givingBack compute g w = _
    rw [givingBack, after_inPlace, if_pos hempty]
    rfl
  · obtain ⟨studio, outcome, hrun, hends, hresult⟩ := h.exists_run g w
    refine ⟨studio, outcome, hrun, hends, ?_⟩
    change givingBack compute g w = _
    rw [givingBack, after_inPlace, if_neg (Bool.eq_false_iff.mp hnodes), hresult]
    cases outcome <;> rfl

variable {compute : Graph F α → ExceptT LayoutError (StateM (W × List (Exchange α))) (Placement α)}

/-- What the notes tell of points that were computed. -/
theorem Computes.recorded (h : service.noted.Computes settings compute) (hs : service.Keeps I) (hw : I w) :
    ∃ (studio : Studio (W × List (Exchange α)) α) (outcome : Except LayoutError (List (Blueprint α))),
      studio.sketches.map Prod.fst = g.components ∧ studio.Ends outcome ∧
      (∃ log, studio.world.2.Perm log ∧ Studio.Pages service settings I g studio.sketches log) ∧
      (compute g).after (w, []) = (outcome.map fun bs =>
        .ofList ((Blueprint.stack settings.gridSize bs).fit settings.inset), studio.world) := by
  obtain ⟨studio, outcome, hrun, hends, hresult⟩ := h.exists_run g (w, [])
  refine ⟨studio, outcome, ?_, hends, (hrun.recorded hs (Studio.recorded_begin hw g.components)).pages, hresult⟩
  rw [hrun.components, Studio.begin, List.map_map]
  exact List.map_id g.components

omit [Scalar α] in
/-- No service disturbs what holds anyway. -/
theorem keeps_true (service : LayoutService W α) : service.Keeps fun _ => True :=
  ⟨fun _ _ => trivial, fun _ _ _ => trivial⟩

section

variable (hcompute : service.noted.Computes settings compute)

include hcompute

theorem inPlace_ok (hg : g.Sound) (h : (inPlace compute).after ((w, []), g) = (.ok (), ((w', log), g'))) :
    ∃ log' bs, log.Perm log' ∧ Drawn settings g g.components log' bs ∧
      g.LaidOut ((Blueprint.stack settings.gridSize bs).fit settings.inset) g' := by
  rw [after_inPlace] at h
  split at h
  · next hempty =>
    cases h
    exact ⟨[], [], .nil, drawn_of_isEmpty hg hempty⟩
  · obtain ⟨⟨⟨_, _⟩, sketches⟩, outcome, hcomponents, hends, ⟨log', hperm, hpages⟩, hresult⟩ :=
      hcompute.recorded (g := g) (w := w) service.keeps_true trivial
    rw [hresult] at h
    cases outcome with
    | error e => cases h
    | ok bs =>
      cases h
      have hdrawn := hpages.drawn hends
      rw [hcomponents] at hdrawn
      have hlaid := hdrawn.laidOut hg
      exact ⟨log', bs, hperm, hdrawn, hlaid.ids, hlaid.once, hlaid.nodes, hlaid.edges⟩

theorem inPlace_error (hs : service.Keeps I) (hw : I w) {e : LayoutError}
    (h : (inPlace compute).after ((w, []), g) = (.error e, ((w', log), g'))) :
    (g'.nodes = g.nodes ∧ g'.edges = g.edges) ∧
      ∃ c ∈ g.components, ∃ page, Failed service settings I g c page e ∧ page ⊆ log := by
  rw [after_inPlace] at h
  split at h
  · cases h
  · obtain ⟨⟨⟨_, _⟩, sketches⟩, outcome, hcomponents, hends, ⟨log', hperm, hpages⟩, hresult⟩ :=
      hcompute.recorded (g := g) hs hw
    rw [hresult] at h
    cases outcome with
    | ok bs => cases h
    | error e' =>
      cases h
      obtain ⟨⟨c, hc⟩, -⟩ := hends
      obtain ⟨page, hfailed, hsub⟩ := hpages.failed hc
      refine ⟨⟨rfl, rfl⟩, c, hcomponents ▸ List.mem_map_of_mem hc, page, hfailed, fun entry hentry => ?_⟩
      exact hperm.mem_iff.mpr (hsub hentry)

/-- The service is asked for nothing but what the graph needs, and for nothing twice. -/
theorem inPlace_asked (hg : g.Sound) {result : Except LayoutError Unit}
    (h : (inPlace compute).after ((w, []), g) = (result, ((w', log), g'))) :
    ∃ asked, (log.map Prod.fst).Perm asked ∧ asked.Sublist (requests g) := by
  rw [after_inPlace] at h
  split at h
  · cases h
    exact ⟨[], .nil, List.nil_sublist _⟩
  · obtain ⟨⟨⟨_, _⟩, sketches⟩, outcome, hcomponents, -, ⟨log', hperm, hpages⟩, hresult⟩ :=
      hcompute.recorded (g := g) (w := w) service.keeps_true trivial
    have hasked := hpages.asked
    rw [hcomponents, ← requests_eq hg] at hasked
    rw [hresult] at h
    cases outcome <;> cases h <;> exact ⟨_, hperm.map _, hasked⟩

theorem inPlace_answers (hs : service.Keeps I) (hw : I w)
    {answer : LayoutRequest → Except LayoutError (RawLayout α)} (hanswer : service.Answers I answer)
    {result : Except LayoutError Unit} (h : (inPlace compute).after ((w, []), g) = (result, ((w', log), g'))) :
    ∀ {request reply}, (request, reply) ∈ log → reply = answer request := by
  rw [after_inPlace] at h
  split at h
  · cases h
    exact fun {_ _} hin => by cases hin
  · obtain ⟨⟨⟨_, _⟩, sketches⟩, outcome, hrun, -, hresult⟩ := hcompute.exists_run g (w, [])
    have hkept := hrun.kept (hs.noted_answers hanswer) ⟨hw, by simp [Studio.begin]⟩
    rw [hresult] at h
    cases outcome <;> cases h <;> exact fun {_ _} hin => hkept.2 hin

end

/-- A layout, in place or giving back the graph (as `arrange` does), succeeds exactly on complete answers that can be scaled to the grid: it
needs one for each component of two or more nodes, and it asks for nothing else and for nothing twice, whether it draws
the components in turn or at once. One that succeeds gives every node one new point; one that fails for whatever reason
changes no node and no edge. -/
theorem complete_or_untouched {result : Except LayoutError Unit} (hg : g.Reached)
    (hcompute : service.noted.Computes settings compute)
    (h : (inPlace compute).after ((w, []), g) = (result, ((w', log), g'))) :
    (∀ g : Graph F α, (service.noted.arrange settings g).run = givingBack (service.noted.compute settings) g) ∧
    service.noted.AtOnce settings (givingBack compute) ∧
    (∀ {I : W → Prop}, service.Undisturbed I → I w →
      (result = .ok () ↔ ∀ c ∈ g.components, 2 ≤ c.nodes.length → ∃ reply,
        (LayoutRequest.ofComponent g c, reply) ∈ log ∧ CompleteFor c reply ∧ ¬ Overflows settings g c reply)) ∧
    (∀ {I : W → Prop} {answer}, service.Undisturbed I → I w → service.Answers I answer →
      (result = .ok () ↔ ∀ c ∈ g.components, 2 ≤ c.nodes.length →
        CompleteFor c (answer (LayoutRequest.ofComponent g c)) ∧
          ¬ Overflows settings g c (answer (LayoutRequest.ofComponent g c)))) ∧
    (log.map Prod.fst).Nodup ∧
    (∀ c ∈ g.components, c.nodes.length = 1 → LayoutRequest.ofComponent g c ∉ log.map Prod.fst) ∧
    (result = .ok () → (log.map Prod.fst).Perm (requests g) ∧ ∃ points, g.LaidOut points g') ∧
    (∀ e, result = .error e → g'.nodes = g.nodes ∧ g'.edges = g.edges) := by
  have hsound := hg.sound
  obtain ⟨asked, hperm, hsublist⟩ := inPlace_asked hcompute hsound h
  have hnodup : (log.map Prod.fst).Nodup := hperm.nodup_iff.mpr ((nodup_requests hsound).sublist hsublist)
  have hreplies (hok : result = .ok ()) (c : Component) (hc : c ∈ g.components) (hmany : 2 ≤ c.nodes.length) :
      ∃ reply, (LayoutRequest.ofComponent g c, reply) ∈ log ∧ CompleteFor c reply ∧ ¬ Overflows settings g c reply := by
    subst hok
    obtain ⟨log', bs, hsame, hdrawn, -⟩ := inPlace_ok hcompute hsound h
    obtain ⟨reply, hin, hgood⟩ := hdrawn.exists_reply hc ((two_le_iff hsound hc).mp hmany)
    exact ⟨reply, hsame.mem_iff.mpr hin, hgood⟩
  -- a layout that nobody stops fails at an answer that is not complete or overflows
  have hrefused {I : W → Prop} (hs : service.Undisturbed I) (hw : I w) {e : LayoutError} (he : result = .error e) :
      ∃ c ∈ g.components, 2 ≤ c.nodes.length ∧ ∃ reply, (LayoutRequest.ofComponent g c, reply) ∈ log ∧
        ¬ (CompleteFor c reply ∧ ¬ Overflows settings g c reply) := by
    subst he
    obtain ⟨-, c, hc, page, hfailed, hsub⟩ := inPlace_error hcompute hs.toKeeps hw h
    cases hfailed with
    | stopped hw' hstop => exact absurd ((hs.quiet _ hw').symm.trans hstop) Bool.false_ne_true
    | @refused reply _ hmany hfailed =>
      refine ⟨c, hc, (two_le_iff hsound hc).mpr hmany, reply, hsub List.mem_cons_self, fun hgood => ?_⟩
      obtain ⟨b, hb⟩ := exists_blueprint_iff.mpr hgood
      exact nomatch hfailed.symm.trans hb
  refine ⟨arrange_eq_givingBack _ _, hcompute.atOnce_givingBack, fun hs hw => ⟨hreplies, fun hall => ?_⟩,
    fun hs hw hanswer => ⟨fun hok c hc hmany => ?_, fun hall => ?_⟩, hnodup, fun c _ hone hin => ?_, fun hok => ?_,
    fun e he => ?_⟩
  · cases hresult : result with
    | ok _ => rfl
    | error e =>
      obtain ⟨c, hc, hmany, reply, hin, hbad⟩ := hrefused hs hw hresult
      obtain ⟨reply', hin', hgood⟩ := hall c hc hmany
      obtain rfl := congrArg Prod.snd (List.inj_on_of_nodup_map hnodup hin hin' rfl)
      exact absurd hgood hbad
  · obtain ⟨reply, hin, hgood⟩ := hreplies hok c hc hmany
    obtain rfl := inPlace_answers hcompute hs.toKeeps hw hanswer h hin
    exact hgood
  · cases hresult : result with
    | ok _ => rfl
    | error e =>
      obtain ⟨c, hc, hmany, reply, hin, hbad⟩ := hrefused hs hw hresult
      obtain rfl := inPlace_answers hcompute hs.toKeeps hw hanswer h hin
      exact absurd (hall c hc hmany) hbad
  · exact single_not_mem_requests hone (hsublist.subset (hperm.subset hin))
  · subst hok
    obtain ⟨log', bs, hsame, hdrawn, hlaid⟩ := inPlace_ok hcompute hsound h
    refine ⟨(hsame.map _).trans (.of_eq ?_), _, hlaid⟩
    rw [requests_eq hsound]
    exact hdrawn.requests
  · subst he
    exact (inPlace_error hcompute service.keeps_true trivial h).1

/-- A service that draws all nodes at one point, and one that cannot draw. -/
theorem callBeside_arranged :
    ∃ g ∈ Workbench.run callBeside, g.components.map (·.nodes.length) = [2, 1] ∧
      (∃ log g', (inPlace ((steady fun request => .ok (.pinned ⟨0, 0⟩ request)).noted.compute .standard)).after
          (((), []), g) = (.ok (), (((), log), g')) ∧ log.length = 1 ∧ ∃ points, g.LaidOut points g') ∧
      ∃ e log g', (inPlace ((steady fun _ => .error (.unavailable "no dot")).noted.compute .standard)).after
          (((), []), g) = (.error e, (((), log), g')) ∧ g'.nodes = g.nodes := by
  obtain ⟨g, hmem, -, hparts⟩ := exists_callBeside
  have hreached : g.Reached := ⟨callBeside, hmem⟩
  refine ⟨g, hmem, hparts, ?_, ?_⟩
  · generalize hrun : (inPlace ((steady fun request => .ok (.pinned ⟨0, 0⟩ request)).noted.compute .standard)).after
        (((), []), g) = run
    obtain ⟨result, ⟨⟨⟩, log⟩, g'⟩ := run
    obtain ⟨-, -, -, hiff, -, -, hok, -⟩ := complete_or_untouched hreached .inTurn hrun
    have hresult := (hiff (undisturbed_steady _) trivial (answers_steady _)).mpr fun c _ _ =>
      ⟨completeFor_pinned g c rfl, not_overflows LayoutSettings.check_standard⟩
    obtain ⟨hlog, hlaid⟩ := hok hresult
    refine ⟨log, g', by rw [hresult], ?_, hlaid⟩
    have hcount : (g.components.filter (2 ≤ ·.nodes.length)).length =
        ((g.components.map (·.nodes.length)).filter (2 ≤ ·)).length := by
      rw [List.filter_map, List.length_map]
      rfl
    calc log.length = (log.map Prod.fst).length := (List.length_map Prod.fst).symm
      _ = (g.components.filter (2 ≤ ·.nodes.length)).length := by rw [hlog.length_eq, requests, List.length_map]
      _ = 1 := by rw [hcount, hparts]; rfl
  · generalize hrun : (inPlace ((steady fun _ => .error (.unavailable "no dot")).noted.compute .standard)).after
        (((), []), g) = run
    obtain ⟨_ | e, ⟨⟨⟩, log⟩, g'⟩ := run
    all_goals obtain ⟨-, -, -, hiff, -, -, -, huntouched⟩ := complete_or_untouched hreached .inTurn hrun
    · exact ⟨_, log, g', rfl, (huntouched _ rfl).1⟩
    · have hlong : 2 ∈ g.components.map (·.nodes.length) := by
        rw [hparts]
        exact List.mem_cons_self
      obtain ⟨c, hc, htwo⟩ := List.mem_map.mp hlong
      have hgood := (hiff (undisturbed_steady _) trivial (answers_steady _)).mp rfl c hc (Nat.le_of_eq htwo.symm)
      obtain ⟨⟨_, hreply, -⟩, -⟩ := hgood
      cases hreply

/-! ### Complete answers that overflow -/

/-- A call between two functions, on doubles. -/
def call : List (Nat × GraphOperation SourceFunction Float) :=
  let caller := SourceFunction.named "main"
  let callee := SourceFunction.named "run"
  [(0, .addNode caller), (0, .addNode callee), (0, .addEdge caller callee)]

/-- Puts the two functions 10¹⁶ apart. -/
def farApart : RawLayout Float :=
  let place (name : String) (x : Float) (placed : Std.TreeMap String (Point Float)) :=
    placed.insert (Handle.nodeId (SourceFunction.named name)).label ⟨x, 0⟩
  ⟨place "run" 5e15 (place "main" (-5e15) ∅), ⟨1, 1⟩⟩

theorem placed_farApart {g : Graph SourceFunction Float} {c : Component}
    (h : LayoutRequest.order g c = ["main", "run"].map fun name => Handle.nodeId (SourceFunction.named name)) :
    placed g c (.ok farApart) = .ok [(Handle.nodeId (SourceFunction.named "main"), ⟨-5e15, 0⟩),
      (Handle.nodeId (SourceFunction.named "run"), ⟨5e15, 0⟩)] := by
  have hne : compare (Handle.nodeId (SourceFunction.named "run")).label
      (Handle.nodeId (SourceFunction.named "main")).label ≠ .eq := by decide +kernel
  have hmain : farApart.positions[(Handle.nodeId (SourceFunction.named "main")).label]? = some ⟨-5e15, 0⟩ := by
    rw [farApart, Std.TreeMap.getElem?_insert, if_neg hne, Std.TreeMap.getElem?_insert_self]
  have hrun : farApart.positions[(Handle.nodeId (SourceFunction.named "run")).label]? = some ⟨5e15, 0⟩ :=
    Std.TreeMap.getElem?_insert_self
  have hfinite : (⟨-5e15, 0⟩ : Point Float).isFinite = true ∧ (⟨5e15, 0⟩ : Point Float).isFinite = true := by
    decide +kernel
  change positions farApart (LayoutRequest.order g c) = _
  rw [h]
  simp only [List.map_cons, List.map_nil, positions, hmain, hrun, hfinite, if_true]
  rfl

/-- The answer is complete and nobody stops the layout, and yet it fails. -/
theorem complete_answer_refused :
    ∃ g ∈ Workbench.run call, g.components.map (·.nodes.length) = [2] ∧
      (steady fun _ => .ok farApart).Undisturbed (fun _ => True) ∧ (∀ c ∈ g.components, CompleteFor c (.ok farApart)) ∧
      ∀ {compute}, (steady fun _ => .ok farApart).noted.Computes .standard compute →
        ∃ s, (inPlace compute).after (((), []), g) = (.error .overflow, s) := by
  let g := (Workbench.run call).get ⟨0, by decide +kernel⟩
  have hmem : g ∈ Workbench.run call := List.get_mem _ _
  have hsound : g.Sound := Graph.Reached.sound ⟨call, hmem⟩
  have horder (c : Component) (hc : c ∈ g.components) :
      LayoutRequest.order g c = ["main", "run"].map fun name => Handle.nodeId (SourceFunction.named name) := by
    have hnodes : ∀ c ∈ g.components,
        c.nodes = ["main", "run"].map fun name => Handle.nodeId (SourceFunction.named name) := by decide +kernel
    rw [LayoutRequest.order, hnodes c hc, LayoutRequest.sorted, List.mergeSort_of_pairwise (by decide +kernel)]
    rfl
  have hlengths : g.components.map (·.nodes.length) = [2] := by decide +kernel
  have hs := undisturbed_steady (α := Float) fun _ => .ok farApart
  have hrefused {c : Component} (hc : c ∈ g.components) :
      blueprint .standard g c (.ok farApart) = .error .overflow := by
    rw [blueprint, placed_farApart (horder c hc)]
    exact onGrid_eq_error_iff.mpr ⟨(Blueprint.normalize_eq_none_iff (by decide)).mpr (.inl Blueprint.spacing_far), rfl⟩
  refine ⟨g, hmem, hlengths, hs, fun c hc => exists_placed_iff.mp ⟨_, placed_farApart (horder c hc)⟩,
    fun {compute} hcompute => ?_⟩
  generalize hrun : (inPlace compute).after (((), []), g) = run
  obtain ⟨result, ⟨⟨⟩, log⟩, g'⟩ := run
  have hanswers {request : LayoutRequest} {reply : Except LayoutError (RawLayout Float)}
      (hin : (request, reply) ∈ log) : reply = .ok farApart :=
    inPlace_answers hcompute hs.toKeeps trivial (answers_steady _) hrun hin
  refine ⟨_, congrArg (·, _) ?_⟩
  cases result with
  | ok _ =>
    obtain ⟨log', bs, hsame, hdrawn, -⟩ := inPlace_ok hcompute hsound hrun
    obtain ⟨c, hc, htwo⟩ := List.mem_map.mp (hlengths ▸ List.mem_cons_self : 2 ∈ g.components.map (·.nodes.length))
    obtain ⟨reply, hin, hgood⟩ := hdrawn.exists_reply hc (by omega)
    obtain rfl := hanswers (hsame.mem_iff.mpr hin)
    obtain ⟨b, hb⟩ := exists_blueprint_iff.mpr hgood
    rw [hrefused hc] at hb
    cases hb
  | error e =>
    obtain ⟨-, c, hc, page, hfailed, hsub⟩ := inPlace_error hcompute hs.toKeeps trivial hrun
    cases hfailed with
    | stopped _ hstop => cases hstop
    | refused _ hfailed =>
      obtain rfl := hanswers (hsub List.mem_cons_self)
      exact congrArg Except.error (Except.error.inj (hfailed.symm.trans (hrefused hc)))

end LayoutService
end CallChart
