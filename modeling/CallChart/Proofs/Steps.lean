/-! Steps that can fail and that work on a state which stays as it was left. -/
namespace ExceptT

variable {ε σ α β : Type}

/-- The result of a step and the state after it. -/
def after (step : ExceptT ε (StateM σ) α) (s : σ) : Except ε α × σ := step.run.run s

theorem after_bind (step : ExceptT ε (StateM σ) α) (more : α → ExceptT ε (StateM σ) β) (s : σ) :
    (step >>= more).after s =
      match step.after s with
      | (.ok a, t) => (more a).after t
      | (.error e, t) => (.error e, t) := by
  have hbind : (step >>= more).after s =
      (ExceptT.bindCont more (step.after s).1).run (step.after s).2 := rfl
  rw [hbind]
  rcases step.after s with ⟨_ | _, t⟩ <;> rfl

/-- A sequence succeeds if both of its parts do. -/
theorem after_bind_ok {step : ExceptT ε (StateM σ) α} {more : α → ExceptT ε (StateM σ) β} {s u : σ}
    {b : β} :
    (step >>= more).after s = (.ok b, u) ↔
      ∃ a t, step.after s = (.ok a, t) ∧ (more a).after t = (.ok b, u) := by
  rw [after_bind]
  rcases step.after s with ⟨_ | a, t⟩
  · simp
  · constructor
    · exact fun h => ⟨a, t, rfl, h⟩
    · rintro ⟨_, _, heq, h⟩
      cases heq
      exact h

/-- A sequence fails where the first of its parts does that fails. -/
theorem after_bind_error {step : ExceptT ε (StateM σ) α} {more : α → ExceptT ε (StateM σ) β} {s u : σ}
    {e : ε} :
    (step >>= more).after s = (.error e, u) ↔
      step.after s = (.error e, u) ∨
        ∃ a t, step.after s = (.ok a, t) ∧ (more a).after t = (.error e, u) := by
  rw [after_bind]
  rcases step.after s with ⟨_ | a, t⟩
  · simp
  · constructor
    · exact fun h => .inr ⟨a, t, rfl, h⟩
    · rintro (heq | ⟨_, _, heq, h⟩)
      · cases heq
      · cases heq
        exact h

theorem after_lift (view : StateM σ α) (s : σ) :
    (liftM view : ExceptT ε (StateM σ) α).after s = (.ok (view.run s).1, (view.run s).2) := rfl

theorem after_mk (step : StateM σ (Except ε α)) (s : σ) : (ExceptT.mk step).after s = step.run s := rfl

/-- What holds of the state before a step holds of it after the step, even if the step fails. -/
def Preserves (P : σ → Prop) (step : ExceptT ε (StateM σ) α) : Prop := ∀ s, P s → P (step.after s).2

theorem Preserves.bind {P : σ → Prop} {step : ExceptT ε (StateM σ) α}
    {more : α → ExceptT ε (StateM σ) β} (hstep : step.Preserves P) (hmore : ∀ a, (more a).Preserves P) :
    (step >>= more).Preserves P := by
  intro s hs
  have ht := hstep s hs
  rw [after_bind]
  rcases hresult : step.after s with ⟨e | a, t⟩
  · rwa [hresult] at ht
  · exact hmore a t (by rwa [hresult] at ht)

theorem preserves_pure (P : σ → Prop) (a : α) : (pure a : ExceptT ε (StateM σ) α).Preserves P :=
  fun _ hs => hs

theorem preserves_throw (P : σ → Prop) (e : ε) : (throw e : ExceptT ε (StateM σ) α).Preserves P :=
  fun _ hs => hs

/-- From states of a kind a step succeeds, with a result and a state of which something holds. -/
def Succeeds (P : σ → Prop) (step : ExceptT ε (StateM σ) α) (Q : α → σ → Prop) : Prop :=
  ∀ s, P s → ∃ a t, step.after s = (.ok a, t) ∧ Q a t

theorem Succeeds.bind {P : σ → Prop} {Q : α → σ → Prop} {R : β → σ → Prop}
    {step : ExceptT ε (StateM σ) α} {more : α → ExceptT ε (StateM σ) β} (hstep : step.Succeeds P Q)
    (hmore : ∀ a, (more a).Succeeds (Q a) R) : (step >>= more).Succeeds P R := by
  intro s hs
  obtain ⟨a, t, hfirst, ht⟩ := hstep s hs
  obtain ⟨b, u, hrest, hu⟩ := hmore a t ht
  exact ⟨b, u, after_bind_ok.mpr ⟨a, t, hfirst, hrest⟩, hu⟩

theorem Succeeds.pure {P : σ → Prop} {Q : α → σ → Prop} {a : α} (h : ∀ s, P s → Q a s) :
    (Pure.pure a : ExceptT ε (StateM σ) α).Succeeds P Q := fun s hs => ⟨a, s, rfl, h s hs⟩

/-- If from a state of a kind a step succeeds, then with a result and a state of which something holds. -/
def Yields (P : σ → Prop) (step : ExceptT ε (StateM σ) α) (Q : α → σ → Prop) : Prop :=
  ∀ s a t, P s → step.after s = (.ok a, t) → Q a t

theorem Yields.bind {P : σ → Prop} {Q : α → σ → Prop} {R : β → σ → Prop}
    {step : ExceptT ε (StateM σ) α} {more : α → ExceptT ε (StateM σ) β} (hstep : step.Yields P Q)
    (hmore : ∀ a, (more a).Yields (Q a) R) : (step >>= more).Yields P R := by
  intro s b u hs h
  obtain ⟨a, t, hfirst, hrest⟩ := after_bind_ok.mp h
  exact hmore a t b u (hstep s a t hs hfirst) hrest

theorem Yields.pure {P : σ → Prop} {Q : α → σ → Prop} {a : α} (h : ∀ s, P s → Q a s) :
    (Pure.pure a : ExceptT ε (StateM σ) α).Yields P Q := by
  intro s b t hs hpure
  cases hpure
  exact h s hs

theorem Preserves.yields {P : σ → Prop} {step : ExceptT ε (StateM σ) α} (h : step.Preserves P) :
    step.Yields P fun _ => P := by
  intro s a t hs hstep
  have ht := h s hs
  rwa [hstep] at ht

end ExceptT

/-- A sequence that keeps no state succeeds if both of its parts do. -/
theorem Except.bind_eq_ok {ε α β : Type} {x : Except ε α} {f : α → Except ε β} {b : β} :
    (x >>= f) = .ok b ↔ ∃ a, x = .ok a ∧ f a = .ok b := by
  cases x <;> simp [bind, Except.bind]
