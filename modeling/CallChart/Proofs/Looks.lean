import CallChart.Proofs.Builds
import CallChart.Proofs.Drawings

/-! What a build sees of the world, look by look. It succeeds only if nothing that it saw was amiss. If it fails,
the last thing that it saw tells why, or one of the last if it does things at once. -/
namespace CallChart

variable {W F α β : Type} [Handle F] [Scalar α]

/-- The event ends what is told of a build. -/
def BuildEvent.isLast : BuildEvent → Bool
  | completed _ _ _ | cancelled _ | failed _ _ => true
  | _ => false

/-- What a build sees when it turns to the world, or tells it. -/
inductive Look (F α : Type) [Handle F] where
  | checked (stop : Bool)
  | dated
  | listed (scope : Scope) (answer : Except IndexError (Std.TreeSet F))
  | asked (coverage : Coverage) (f : F) (answer : Except IndexError (Std.TreeSet F))
  | drew (request : LayoutRequest) (answer : Except LayoutError (RawLayout α))
  | told (event : BuildEvent)

namespace Look

variable {settings : LayoutSettings α}

/-- A build can go on after such a look. A scope may be gone. -/
def Fine (settings : LayoutSettings α) : Look F α → Prop
  | checked stop => stop = false
  | listed _ answer => ∀ e, answer = .error e → e.isScopeError = true
  | asked _ _ answer => ∃ found, answer = .ok found
  | drew request answer => ∃ (g : Graph F α) (c : Component) (b : Blueprint α),
      request = LayoutRequest.ofComponent g c ∧ LayoutService.blueprint settings g c answer = .ok b
  | dated | told _ => True

/-- The look is the cause of a failure: the build is to stop, the index has no answer, or the layout service has
none that gives every node of the component a finite position and can be scaled to the grid. -/
inductive Gives (settings : LayoutSettings α) : Look F α → BuildError → Prop where
  | stopped : Gives settings (.checked true) .cancelled
  | unlisted {scope : Scope} {e : IndexError} : Gives settings (.listed scope (.error e)) (.ofResolve (.index e))
  | unanswered {coverage : Coverage} {f : F} {e : IndexError} :
      Gives settings (.asked coverage f (.error e)) (.ofResolve (.index e))
  | undrawn {g : Graph F α} {c : Component} {answer : Except LayoutError (RawLayout α)} {e : LayoutError} :
      LayoutService.blueprint settings g c answer = .error e →
        Gives settings (.drew (LayoutRequest.ofComponent g c) answer) (.ofLayout e)

variable {stop : Bool} {coverage : Coverage} {f : F} {answer : Except IndexError (Std.TreeSet F)}

theorem gives_stop (h : stop = true) : (checked stop : Look F α).Gives settings .cancelled := h ▸ .stopped

theorem gives_asked {e : IndexError} (h : answer = .error e) :
    (asked coverage f answer : Look F α).Gives settings (.ofResolve (.index e)) := h ▸ .unanswered

theorem fine_asked {found : Std.TreeSet F} (h : answer = .ok found) :
    (asked coverage f answer : Look F α).Fine settings := ⟨found, h⟩

/-- Some looks account for a failure: all were fine but the last one, which is the cause. If things were done at
once, any of them may be the cause. -/
inductive Blames (settings : LayoutSettings α) : Bool → List (Look F α) → BuildError → Prop where
  | last {parallel : Bool} {before : List (Look F α)} {look : Look F α} {e : BuildError} :
      (∀ other ∈ before, other.Fine settings) → look.Gives settings e →
      Blames settings parallel (before ++ [look]) e
  | one {looks : List (Look F α)} {look : Look F α} {e : BuildError} :
      look ∈ looks → look.Gives settings e → Blames settings true looks e

theorem Blames.behind {parallel : Bool} {before looks : List (Look F α)} {e : BuildError}
    (h : Blames settings parallel looks e) (hbefore : ∀ look ∈ before, look.Fine settings) :
    Blames settings parallel (before ++ looks) e := by
  cases h with
  | last hfine hgives =>
    rw [← List.append_assoc]
    exact .last (List.forall_mem_append.mpr ⟨hbefore, hfine⟩) hgives
  | one hmem hgives => exact .one (List.mem_append_right _ hmem) hgives

end Look

namespace Site

open ExceptT

variable (site : Site W F α)

/-- A look at the world, which changes it. A build never tells its own end. -/
inductive Sees : W → Look F α → W → Prop where
  | checked (w : W) : Sees w (.checked (site.cancelled.run w).1) (site.cancelled.run w).2
  | dated (w : W) : Sees w .dated (site.versions.run w).2
  | listed (scope : Scope) (w : W) :
      Sees w (.listed scope ((site.functions scope).run w).1) ((site.functions scope).run w).2
  | asked (coverage : Coverage) (f : F) (w : W) :
      Sees w (.asked coverage f ((site.ask coverage f).run w).1) ((site.ask coverage f).run w).2
  | drew (request : LayoutRequest) (w : W) :
      Sees w (.drew request ((site.draw request).run w).1) ((site.draw request).run w).2
  | told {event : BuildEvent} (w : W) : event.isLast = false → Sees w (.told event) ((site.emit event).run w).2

/-- From one world to another by some looks, each of which is taken where the one before it has led. -/
inductive Passes : W → List (Look F α) → W → Prop where
  | nil (w : W) : Passes w [] w
  | cons {w w' w'' : W} {look : Look F α} {looks : List (Look F α)} :
      site.Sees w look w' → Passes w' looks w'' → Passes w (look :: looks) w''

/-- From one world to another by looks that were fine. -/
def Untroubled (settings : LayoutSettings α) (w w' : W) : Prop :=
  ∃ looks, site.Passes w looks w' ∧ ∀ look ∈ looks, look.Fine settings

/-- From one world to another by looks that account for a failure. -/
def Accounts (settings : LayoutSettings α) (parallel : Bool) (w w' : W) (e : BuildError) : Prop :=
  ∃ looks, site.Passes w looks w' ∧ Look.Blames settings parallel looks e

/-- If a step succeeds, what it saw was fine; if it fails, what it saw accounts for the failure, some failures
excused. -/
structure Accounted (settings : LayoutSettings α) (parallel : Bool) (excused : BuildError → Prop) {S ε : Type}
    (world : S → W) (cause : ε → BuildError) (step : ExceptT ε (StateM S) β) : Prop where
  ok {s t : S} {b : β} : step.after s = (.ok b, t) → site.Untroubled settings (world s) (world t)
  error {s t : S} {e : ε} : step.after s = (.error e, t) → ∃ looks, site.Passes (world s) looks (world t) ∧
    (excused (cause e) ∨ Look.Blames settings parallel looks (cause e))

variable {site} {settings : LayoutSettings α} {w w' w'' : W} {look : Look F α} {parallel : Bool}
  {excused : BuildError → Prop} {S ε : Type} {world : S → W} {cause : ε → BuildError}

omit [Scalar α] in
theorem Passes.append {looks looks' : List (Look F α)} (h : site.Passes w looks w')
    (h' : site.Passes w' looks' w'') : site.Passes w (looks ++ looks') w'' := by
  induction h with
  | nil => exact h'
  | cons hsees _ ih => exact .cons hsees (ih h')

omit [Scalar α] in
theorem Sees.passes (h : site.Sees w look w') : site.Passes w [look] w' := .cons h (.nil w')

theorem Untroubled.refl (w : W) : site.Untroubled settings w w := ⟨[], .nil w, by simp⟩

theorem Untroubled.trans (h : site.Untroubled settings w w') (h' : site.Untroubled settings w' w'') :
    site.Untroubled settings w w'' := by
  obtain ⟨looks, hpasses, hfine⟩ := h
  obtain ⟨looks', hpasses', hfine'⟩ := h'
  exact ⟨looks ++ looks', hpasses.append hpasses', List.forall_mem_append.mpr ⟨hfine, hfine'⟩⟩

theorem Sees.untroubled (h : site.Sees w look w') (hfine : look.Fine settings) : site.Untroubled settings w w' :=
  ⟨[look], h.passes, List.forall_mem_singleton.mpr hfine⟩

/-- What went well before does not change the cause of a failure. -/
theorem Untroubled.before (h : site.Untroubled settings w w') {e : BuildError}
    (hfailed : ∃ looks, site.Passes w' looks w'' ∧ (excused e ∨ Look.Blames settings parallel looks e)) :
    ∃ looks, site.Passes w looks w'' ∧ (excused e ∨ Look.Blames settings parallel looks e) := by
  obtain ⟨looks, hpasses, hfine⟩ := h
  obtain ⟨looks', hpasses', hcause⟩ := hfailed
  exact ⟨looks ++ looks', hpasses.append hpasses', hcause.imp_right fun hblames => hblames.behind hfine⟩

theorem Sees.blames (h : site.Sees w look w') {e : BuildError} (hgives : look.Gives settings e) :
    ∃ looks, site.Passes w looks w' ∧ (excused e ∨ Look.Blames settings parallel looks e) := by
  have hblames : Look.Blames settings parallel ([] ++ [look]) e := .last (by simp) hgives
  exact ⟨[look], h.passes, .inr hblames⟩

/-! ### How steps are put together -/

namespace Accounted

/-- It is enough to look at how the step ends. -/
theorem of_after {step : ExceptT ε (StateM S) β}
    (h : ∀ s, match step.after s with
      | (.ok _, t) => site.Untroubled settings (world s) (world t)
      | (.error e, t) => ∃ looks, site.Passes (world s) looks (world t) ∧
          (excused (cause e) ∨ Look.Blames settings parallel looks (cause e))) :
    site.Accounted settings parallel excused world cause step := by
  constructor
  · intro s t b hok
    have hs := h s
    rwa [hok] at hs
  · intro s t e herror
    have hs := h s
    rwa [herror] at hs

theorem bind {γ : Type} {step : ExceptT ε (StateM S) β} {more : β → ExceptT ε (StateM S) γ}
    (hstep : site.Accounted settings parallel excused world cause step)
    (hmore : ∀ b s t, step.after s = (.ok b, t) → site.Accounted settings parallel excused world cause (more b)) :
    site.Accounted settings parallel excused world cause (step >>= more) := by
  constructor
  · intro s u c h
    obtain ⟨b, t, hfirst, hrest⟩ := after_bind_ok.mp h
    exact (hstep.ok hfirst).trans ((hmore b s t hfirst).ok hrest)
  · intro s u e h
    rcases after_bind_error.mp h with hfirst | ⟨b, t, hfirst, hrest⟩
    · exact hstep.error hfirst
    · exact (hstep.ok hfirst).before ((hmore b s t hfirst).error hrest)

theorem pure (b : β) : site.Accounted settings parallel excused world cause (Pure.pure b : ExceptT ε (StateM S) β) :=
  .of_after fun _ => .refl _

/-- A step that cannot fail has to see nothing amiss. -/
theorem lift {view : StateM S β} (h : ∀ s, site.Untroubled settings (world s) (world (view.run s).2)) :
    site.Accounted settings parallel excused world cause (liftM view : ExceptT ε (StateM S) β) :=
  .of_after h

/-- A check of the flag, which stops a step that is to be stopped. -/
theorem check {step : ExceptT ε (StateM S) Unit} {e : ε} (hcause : cause e = .cancelled) {next : S → S}
    (hnext : ∀ s, world (next s) = (site.cancelled.run (world s)).2)
    (h : ∀ s, step.after s = (if (site.cancelled.run (world s)).1 then .error e else .ok (), next s)) :
    site.Accounted settings parallel excused world cause step := by
  refine .of_after fun s => ?_
  have hsees : site.Sees (world s) _ _ := .checked (world s)
  rw [h, ← hnext] at *
  cases hstop : (site.cancelled.run (world s)).1 with
  | true => exact hsees.blames (hcause ▸ Look.gives_stop hstop)
  | false => exact hsees.untroubled hstop

end Accounted

/-! ### Things that are done at once -/

/-- From one world to another while things were done at once, with the failures of those that have failed: each is
given by some look, and if there is none, all looks were fine. -/
def Noted (site : Site W F α) (settings : LayoutSettings α) (w w' : W) (failures : List (Option BuildError)) : Prop :=
  ∃ looks, site.Passes w looks w' ∧ (∀ e, some e ∈ failures → ∃ look ∈ looks, look.Gives settings e) ∧
    ((∀ e, some e ∉ failures) → ∀ look ∈ looks, look.Fine settings)

namespace Noted

variable {before rest : List (Option BuildError)} {failures : List (Option BuildError)}

theorem begin (w : W) (h : ∀ e, some e ∉ failures) : site.Noted settings w w failures :=
  ⟨[], .nil w, fun e he => absurd he (h e), fun _ => by simp⟩

theorem goes (h : site.Noted settings w w' failures) (hgoes : site.Untroubled settings w' w'') :
    site.Noted settings w w'' failures := by
  obtain ⟨looks, hpasses, hgiven, hfine⟩ := h
  obtain ⟨more, hpasses', hfine'⟩ := hgoes
  refine ⟨looks ++ more, hpasses.append hpasses', fun e he => ?_, fun hnone => ?_⟩
  · obtain ⟨look, hlook, hgives⟩ := hgiven e he
    exact ⟨look, List.mem_append_left _ hlook, hgives⟩
  · exact List.forall_mem_append.mpr ⟨hfine hnone, hfine'⟩

/-- One of the things fails for a cause that is seen. -/
theorem fails (h : site.Noted settings w w' (before ++ none :: rest)) (hsees : site.Sees w' look w'') {e : BuildError}
    (hgives : look.Gives settings e) : site.Noted settings w w'' (before ++ some e :: rest) := by
  obtain ⟨looks, hpasses, hgiven, -⟩ := h
  refine ⟨looks ++ [look], hpasses.append hsees.passes, fun e' he' => ?_, fun hnone => ?_⟩
  · rw [List.mem_append, List.mem_cons] at he'
    rcases he' with hold | hnew | hold
    · obtain ⟨other, hother, hgives'⟩ := hgiven e' (List.mem_append_left _ hold)
      exact ⟨other, List.mem_append_left _ hother, hgives'⟩
    · cases hnew
      exact ⟨look, List.mem_append_right _ List.mem_cons_self, hgives⟩
    · obtain ⟨other, hother, hgives'⟩ := hgiven e' (List.mem_append_right _ (List.mem_cons_of_mem _ hold))
      exact ⟨other, List.mem_append_left _ hother, hgives'⟩
  · exact absurd (List.mem_append_right _ List.mem_cons_self) (hnone e)

theorem untroubled (h : site.Noted settings w w' failures) (hnone : ∀ e, some e ∉ failures) :
    site.Untroubled settings w w' := by
  obtain ⟨looks, hpasses, -, hfine⟩ := h
  exact ⟨looks, hpasses, hfine hnone⟩

theorem blames (h : site.Noted settings w w' failures) {e : BuildError} (he : some e ∈ failures) :
    ∃ looks, site.Passes w looks w' ∧ (excused e ∨ Look.Blames settings true looks e) := by
  obtain ⟨looks, hpasses, hgiven, -⟩ := h
  obtain ⟨look, hlook, hgives⟩ := hgiven e he
  exact ⟨looks, hpasses, .inr (.one hlook hgives)⟩

end Noted

end Site

end CallChart
