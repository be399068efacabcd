import CallChart.Proofs.AtOnce
import CallChart.Proofs.Drawings

/-! Layouts whose components are drawn at once: every component goes on step by step, and the steps of different
components follow each other in any order. To draw one component after the other is one of the orders. -/
namespace CallChart

variable {W F α : Type} [Handle F] [Scalar α]

/-- How far the drawing of one component has come. -/
inductive Sketch (α : Type) where
  | waiting
  /-- It was not cancelled, and the service is about to be asked if it has to be. -/
  | leaving
  | done (blueprint : Blueprint α)
  | failed (error : LayoutError)
  /-- It was not begun any more after another one had failed. -/
  | dropped

/-- Nothing more comes of a sketch. -/
def Sketch.IsOver : Sketch α → Prop
  | done _ | failed _ | dropped => True
  | _ => False

/-- The world and the sketches of the components of a graph. -/
structure Studio (W α : Type) where
  world : W
  sketches : List (Component × Sketch α)

namespace Studio

variable (service : LayoutService W α) (settings : LayoutSettings α) (g : Graph F α)

/-- What is done next about one component. -/
inductive Advances (c : Component) : W × Sketch α → W × Sketch α → Prop where
  | leave {w : W} : (service.cancelled.run w).1 = false →
      Advances c (w, .waiting) ((service.cancelled.run w).2, .leaving)
  | stop {w : W} : (service.cancelled.run w).1 = true →
      Advances c (w, .waiting) ((service.cancelled.run w).2, .failed .cancelled)
  | centre {w : W} : c.nodes.length = 1 → Advances c (w, .leaving) (w, .done c.centred)
  | draw {w : W} {b : Blueprint α} : c.nodes.length ≠ 1 →
      LayoutService.blueprint settings g c ((service.draw (LayoutRequest.ofComponent g c)).run w).1 = .ok b →
      Advances c (w, .leaving) (((service.draw (LayoutRequest.ofComponent g c)).run w).2, .done b)
  | fail {w : W} {e : LayoutError} : c.nodes.length ≠ 1 →
      LayoutService.blueprint settings g c ((service.draw (LayoutRequest.ofComponent g c)).run w).1 = .error e →
      Advances c (w, .leaving) (((service.draw (LayoutRequest.ofComponent g c)).run w).2, .failed e)

/-- What can happen next: some sketch goes on, or one is dropped before it has begun. -/
inductive Step : Studio W α → Studio W α → Prop where
  | advance (before rest : List (Component × Sketch α)) {c : Component} {w w' : W} {sketch sketch' : Sketch α} :
      Advances service settings g c (w, sketch) (w', sketch') →
      Step ⟨w, before ++ (c, sketch) :: rest⟩ ⟨w', before ++ (c, sketch') :: rest⟩
  | drop (before rest : List (Component × Sketch α)) {c d : Component} {w : W} {error : LayoutError} :
      (d, .failed error) ∈ before ++ rest →
      Step ⟨w, before ++ (c, .waiting) :: rest⟩ ⟨w, before ++ (c, .dropped) :: rest⟩

def Run : Studio W α → Studio W α → Prop := Relation.ReflTransGen (Step service settings g)

def begin (w : W) (components : List Component) : Studio W α := ⟨w, components.map (·, .waiting)⟩

/-- What all sketches have come to when nothing more comes of them: all blueprints, or the failure of one. -/
def Ends (studio : Studio W α) : Except LayoutError (List (Blueprint α)) → Prop
  | .ok blueprints => studio.sketches.map Prod.snd = blueprints.map .done
  | .error error => (∃ c, (c, .failed error) ∈ studio.sketches) ∧ ∀ sketch ∈ studio.sketches, sketch.2.IsOver

end Studio

namespace LayoutService

/-- The graph with the layout that blueprints of its components make. -/
def assembled (settings : LayoutSettings α) (g : Graph F α) (blueprints : List (Blueprint α)) : Graph F α :=
  g.applyLayout (Placement.ofList ((Blueprint.stack settings.gridSize blueprints).fit settings.inset))

/-- A layout that draws the components of a graph at once: whatever the world, it does what some run of all sketches
does that leaves nothing to do. An empty graph is left alone. -/
def AtOnce (service : LayoutService W α) (settings : LayoutSettings α)
    (layout : Graph F α → StateM W (Except LayoutError (Graph F α))) : Prop :=
  ∀ g w, (g.isEmpty = true → (layout g).run w = (.ok g, w)) ∧
    (g.isEmpty = false → ∃ studio outcome,
      Studio.Run service settings g (.begin w g.components) studio ∧ studio.Ends outcome ∧
        (layout g).run w = (outcome.map (assembled settings g), studio.world))

end LayoutService

/-! ### One after the other is one of the orders -/

namespace Studio

open ExceptT

variable {service : LayoutService W α} {settings : LayoutSettings α} {g : Graph F α}

/-- The other sketches take their course behind one that rests. -/
theorem Run.behind {studio studio' : Studio W α} (h : Run service settings g studio studio')
    (sketch : Component × Sketch α) :
    Run service settings g { studio with sketches := sketch :: studio.sketches }
      { studio' with sketches := sketch :: studio'.sketches } := by
  let join (studio : Studio W α) : Studio W α := { studio with sketches := sketch :: studio.sketches }
  have hjoin {s s' : Studio W α} (hstep : Step service settings g s s') :
      Step service settings g (join s) (join s') := by
    cases hstep with
    | advance before rest hadvance => exact .advance (sketch :: before) rest hadvance
    | drop before rest hfailed => exact .drop (sketch :: before) rest (List.mem_cons_of_mem sketch hfailed)
  exact Relation.ReflTransGen.lift join (fun _ _ => hjoin) _ _ h

theorem run_drop {d : Component} {error : LayoutError} (before : List (Component × Sketch α))
    (hfailed : (d, .failed error) ∈ before) (w : W) (components : List Component) :
    Run service settings g ⟨w, before ++ components.map (·, .waiting)⟩ ⟨w, before ++ components.map (·, .dropped)⟩ := by
  induction components generalizing before with
  | nil => exact .refl
  | cons c rest ih =>
    have hrest := ih (before ++ [(c, .dropped)]) (List.mem_append_left _ hfailed)
    rw [List.append_assoc, List.append_assoc] at hrest
    exact .head (.drop before _ (List.mem_append_left _ hfailed)) hrest

/-- One component is drawn from its beginning to its end. -/
theorem run_drawComponent (service : LayoutService W α) (settings : LayoutSettings α) (g : Graph F α) (c : Component)
    (rest : List (Component × Sketch α)) (w : W) :
    Run service settings g ⟨w, (c, .waiting) :: rest⟩
      ⟨((service.drawComponent settings g c).after w).2,
        (c, match ((service.drawComponent settings g c).after w).1 with
          | .ok b => .done b
          | .error e => .failed e) :: rest⟩ := by
  have hone {w w' : W} {s s' : Sketch α} (ha : Advances service settings g c (w, s) (w', s')) :
      Step service settings g ⟨w, (c, s) :: rest⟩ ⟨w', (c, s') :: rest⟩ := .advance [] rest ha
  rw [LayoutService.after_drawComponent]
  cases hcancelled : (service.cancelled.run w).1 with
  | true => exact .single (hone (.stop hcancelled))
  | false =>
    have hleave := hone (.leave hcancelled)
    by_cases hsingle : c.nodes.length = 1
    · rw [if_neg Bool.false_ne_true, if_pos hsingle]
      exact .head hleave (.single (hone (.centre hsingle)))
    · rw [if_neg Bool.false_ne_true, if_neg hsingle]
      dsimp only
      cases hdrawn : LayoutService.blueprint settings g c
          ((service.draw (LayoutRequest.ofComponent g c)).run (service.cancelled.run w).2).1 with
      | ok b => exact .head hleave (.single (hone (.draw hsingle hdrawn)))
      | error e => exact .head hleave (.single (hone (.fail hsingle hdrawn)))

theorem run_drawAll (service : LayoutService W α) (settings : LayoutSettings α) (g : Graph F α)
    (components : List Component) (w : W) : ∃ sketches : List (Component × Sketch α),
    let drawn := (service.drawAll settings g components).after w
    Run service settings g (.begin w components) ⟨drawn.2, sketches⟩ ∧
      (⟨drawn.2, sketches⟩ : Studio W α).Ends drawn.1 := by
  induction components generalizing w with
  | nil => exact ⟨[], .refl, rfl⟩
  | cons c rest ih =>
    have hfirst := run_drawComponent service settings g c (rest.map (·, .waiting)) w
    rw [LayoutService.drawAll, after_bind]
    generalize (service.drawComponent settings g c).after w = drawn at hfirst ⊢
    obtain ⟨e | b, w'⟩ := drawn
    · refine ⟨_, hfirst.trans (run_drop [(c, .failed e)] List.mem_cons_self w' rest), ?_⟩
      refine ⟨⟨c, List.mem_cons_self⟩, List.forall_mem_cons.mpr ⟨trivial, fun sketch hsketch => ?_⟩⟩
      obtain ⟨d, -, rfl⟩ := List.mem_map.mp hsketch
      trivial
    · obtain ⟨sketches, hothers, hends⟩ := ih w'
      dsimp only at hothers hends ⊢
      rw [after_bind]
      generalize (service.drawAll settings g rest).after w' = others at hothers hends ⊢
      have hall := hfirst.trans (hothers.behind (c, .done b))
      obtain ⟨e | bs, w''⟩ := others
      · obtain ⟨⟨d, hd⟩, hover⟩ := hends
        exact ⟨_, hall, ⟨d, List.mem_cons_of_mem _ hd⟩, List.forall_mem_cons.mpr ⟨trivial, hover⟩⟩
      · exact ⟨_, hall, congrArg (Sketch.done b :: ·) hends⟩

end Studio

/-- The points of all nodes are computed as some run of all sketches leaves them. -/
theorem LayoutService.exists_run_compute (service : LayoutService W α) (settings : LayoutSettings α) (g : Graph F α)
    (w : W) : ∃ studio outcome, Studio.Run service settings g (.begin w g.components) studio ∧ studio.Ends outcome ∧
      (service.compute settings g).after w = (outcome.map fun bs =>
        .ofList ((Blueprint.stack settings.gridSize bs).fit settings.inset), studio.world) := by
  obtain ⟨sketches, hrun, hends⟩ := Studio.run_drawAll service settings g g.components w
  refine ⟨_, _, hrun, hends, ?_⟩
  rw [compute, ExceptT.after_bind]
  rcases (service.drawAll settings g g.components).after w with ⟨_ | _, _⟩ <;> rfl

/-- To draw one component after the other is a way to draw them at once. -/
theorem LayoutService.atOnce_arrange (service : LayoutService W α) (settings : LayoutSettings α) :
    service.AtOnce settings fun g : Graph F α => (service.arrange settings g).run := by
  intro g w
  constructor
  · intro hempty
    change (service.arrange settings g).after w = _
    rw [arrange, if_pos hempty]
    rfl
  · intro hempty
    obtain ⟨studio, outcome, hrun, hends, hresult⟩ := service.exists_run_compute settings g w
    refine ⟨studio, outcome, hrun, hends, ?_⟩
    change (service.arrange settings g).after w = _
    rw [arrange, if_neg (Bool.eq_false_iff.mp hempty), ExceptT.after_bind, hresult]
    cases outcome <;> rfl

end CallChart
