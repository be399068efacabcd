import CallChart.Layout.Arrange
import CallChart.Proofs.Spacing
import CallChart.Proofs.Steps

/-! Laying out a graph with a service whose world may change at every question. -/
namespace CallChart

variable {W F α : Type} [Handle F] [Scalar α]

/-- Draws all nodes at one point. -/
def RawLayout.pinned (p : Point α) (request : LayoutRequest) : RawLayout α :=
  ⟨request.nodes.foldl (fun placed label => placed.insert label p) ∅, ⟨Scalar.zero, Scalar.zero⟩⟩

theorem RawLayout.getElem?_pinned (p : Point α) {request : LayoutRequest} {label : String}
    (h : label ∈ request.nodes) : (pinned p request).positions[label]? = some p := by
  have hfold (labels : List String) (placed : Std.TreeMap String (Point α))
      (hl : label ∈ labels ∨ placed[label]? = some p) :
      (labels.foldl (fun placed label => placed.insert label p) placed)[label]? = some p := by
    induction labels generalizing placed with
    | nil => exact hl.resolve_left List.not_mem_nil
    | cons other rest ih =>
      refine ih _ ?_
      rcases hl with hl | hl
      · rcases List.mem_cons.mp hl with rfl | hl
        · exact .inr Std.TreeMap.getElem?_insert_self
        · exact .inl hl
      · right
        rw [Std.TreeMap.getElem?_insert]
        split
        · rfl
        · exact hl
  exact hfold _ _ (.inl h)

namespace LayoutService

variable {service : LayoutService W α} {settings : LayoutSettings α} {I : W → Prop} {g : Graph F α}

/-- What holds of the world whatever the layout looks at. -/
structure Keeps (service : LayoutService W α) (I : W → Prop) : Prop where
  cancelled (w : W) : I w → I (service.cancelled.run w).2
  draw (request : LayoutRequest) (w : W) : I w → I ((service.draw request).run w).2

omit [Handle F] in
theorem onGrid_eq_ok_iff {b b' : Blueprint α} :
    onGrid settings b = .ok b' ↔ b.normalize settings.gridSize settings.precision = some b' := by
  unfold onGrid
  cases b.normalize settings.gridSize settings.precision with
  | none => simp
  | some scaled => simp

omit [Handle F] in
theorem onGrid_eq_error_iff {b : Blueprint α} {e : LayoutError} :
    onGrid settings b = .error e ↔ b.normalize settings.gridSize settings.precision = none ∧ e = .overflow := by
  unfold onGrid
  cases b.normalize settings.gridSize settings.precision with
  | none => simp [eq_comm]
  | some scaled => simp

omit [Scalar α] in
theorem after_checkCancelled (service : LayoutService W α) (w : W) :
    service.checkCancelled.after w =
      (if (service.cancelled.run w).1 then .error .cancelled else .ok (), (service.cancelled.run w).2) := by
  rw [checkCancelled, ExceptT.after_bind, ExceptT.after_lift]
  dsimp only
  split <;> rfl

omit [Scalar α] in
theorem Keeps.checkCancelled (hs : service.Keeps I) : service.checkCancelled.Preserves I := by
  intro w hw
  rw [after_checkCancelled]
  exact hs.cancelled w hw

theorem Keeps.drawComponent (hs : service.Keeps I) (settings : LayoutSettings α) (g : Graph F α)
    (c : Component) : (service.drawComponent settings g c).Preserves I := by
  unfold LayoutService.drawComponent
  refine .bind hs.checkCancelled fun _ => ?_
  split
  · exact ExceptT.preserves_pure _ _
  · exact .bind (hs.draw _) fun raw => .bind (fun _ hw => hw) fun blueprint => fun _ hw => hw

theorem Keeps.drawAll (hs : service.Keeps I) (settings : LayoutSettings α) (g : Graph F α)
    (cs : List Component) : (service.drawAll settings g cs).Preserves I := by
  induction cs with
  | nil => exact ExceptT.preserves_pure _ _
  | cons c rest ih =>
    exact .bind (hs.drawComponent settings g c) fun _ => .bind ih fun _ => ExceptT.preserves_pure _ _

theorem Keeps.arrange (hs : service.Keeps I) (settings : LayoutSettings α) (g : Graph F α) :
    (service.arrange settings g).Preserves I := by
  unfold LayoutService.arrange
  split
  · exact ExceptT.preserves_pure _ _
  · refine .bind (.bind (hs.drawAll settings g _) fun _ => ?_) fun _ => ?_
    · exact ExceptT.preserves_pure _ _
    · exact ExceptT.preserves_pure _ _

/-- A graph that is laid out is the same or has a new layout. -/
theorem arrange_ok {g' : Graph F α} {w w' : W}
    (h : (service.arrange settings g).after w = (.ok g', w')) :
    g' = g ∨ ∃ points, g' = g.applyLayout points := by
  unfold LayoutService.arrange at h
  split at h
  · cases h
    exact .inl rfl
  · obtain ⟨points, _, -, hdone⟩ := ExceptT.after_bind_ok.mp h
    cases hdone
    exact .inr ⟨points, rfl⟩

theorem exists_positions {raw : RawLayout α} {p : Point α} (hp : p.isFinite = true) {ids : List NodeId}
    (h : ∀ id ∈ ids, raw.positions[id.label]? = some p) :
    ∃ blueprint, positions raw ids = .ok blueprint ∧ ∀ entry ∈ blueprint, entry.2 = p := by
  induction ids with
  | nil => exact ⟨[], rfl, List.forall_mem_nil _⟩
  | cons id rest ih =>
    obtain ⟨hid, hrest⟩ := List.forall_mem_cons.mp h
    obtain ⟨blueprint, hblueprint, hpoints⟩ := ih hrest
    refine ⟨(id, p) :: blueprint, ?_, List.forall_mem_cons.mpr ⟨rfl, hpoints⟩⟩
    simp only [positions, hid, hp, if_true, hblueprint]
    rfl

/-- Nothing is cancelled, and the service draws all nodes at one finite point. -/
structure Calm (service : LayoutService W α) (I : W → Prop) (p : Point α) : Prop
    extends service.Keeps I where
  quiet (w : W) : I w → (service.cancelled.run w).1 = false
  draws (request : LayoutRequest) (w : W) : I w →
    ((service.draw request).run w).1 = .ok (.pinned p request)
  finite : p.isFinite = true

variable {p : Point α}

theorem Calm.drawComponent (hs : service.Calm I p) (settings : LayoutSettings α) (g : Graph F α)
    (c : Component) : (service.drawComponent settings g c).Succeeds I fun _ => I := by
  have hcheck : service.checkCancelled.Succeeds I fun _ => I := by
    intro w hw
    refine ⟨(), _, ?_, hs.cancelled w hw⟩
    rw [after_checkCancelled, hs.quiet w hw]
    rfl
  unfold LayoutService.drawComponent
  refine .bind hcheck fun _ => ?_
  split
  · exact .pure fun _ hw => hw
  · intro w hw
    let request := LayoutRequest.ofComponent g c
    have hraw : (ExceptT.mk (service.draw request)).after w =
        (.ok (.pinned p request), ((service.draw request).run w).2) := Prod.ext (hs.draws request w hw) rfl
    have hplaced (id : NodeId) (hid : id ∈ LayoutRequest.order g c) :
        (RawLayout.pinned p request).positions[id.label]? = some p :=
      RawLayout.getElem?_pinned p (List.mem_map_of_mem hid)
    obtain ⟨blueprint, hpositions, hpoints⟩ := exists_positions hs.finite hplaced
    obtain ⟨scaled, hscaled⟩ :=
      Blueprint.exists_normalize_of_pinned settings.gridSize settings.precision hpoints
    refine ⟨scaled, _, ExceptT.after_bind_ok.mpr ⟨_, _, hraw, ?_⟩, hs.draw request w hw⟩
    refine ExceptT.after_bind_ok.mpr ⟨blueprint, _, Prod.ext hpositions rfl, Prod.ext ?_ rfl⟩
    exact onGrid_eq_ok_iff.mpr hscaled

/-- A calm layout succeeds. -/
theorem Calm.arrange (hs : service.Calm I p) (settings : LayoutSettings α) (g : Graph F α) :
    (service.arrange settings g).Succeeds I fun _ => I := by
  have hall (cs : List Component) : (service.drawAll settings g cs).Succeeds I fun _ => I := by
    induction cs with
    | nil => exact .pure fun _ hw => hw
    | cons c rest ih =>
      exact .bind (hs.drawComponent settings g c) fun _ => .bind ih fun _ => .pure fun _ hw => hw
  have hcompute : (service.compute settings g).Succeeds I fun _ => I :=
    .bind (hall _) fun _ => .pure fun _ hw => hw
  unfold LayoutService.arrange
  split
  · exact .pure fun _ hw => hw
  · exact .bind hcompute fun _ => .pure fun _ hw => hw

end LayoutService
end CallChart
