import CallChart.Proofs.Questions

/-! How functions are counted while a search asks about them. Every function gets a number, and its number is
told. If functions are asked about one after the other, the numbers are told in their order. -/
namespace CallChart

variable {W F E α β : Type} [Handle F]

/-- The numbers told of so many functions, when a certain number of others were counted before. Numbers of
functions that are asked about at once are told in any order. -/
def Numbered (parallel : Bool) (before n : Nat) (told : List Nat) : Prop :=
  if parallel then told.Perm (List.range' (before + 1) n) else told = List.range' (before + 1) n

theorem numbered_range' (parallel : Bool) (before n : Nat) :
    Numbered parallel before n (List.range' (before + 1) n) := by
  cases parallel with
  | false => rfl
  | true => exact .refl _

theorem Numbered.length {parallel : Bool} {before n : Nat} {told : List Nat} (h : Numbered parallel before n told) :
    told.length = n := by
  cases parallel with
  | false => exact (congrArg List.length h).trans List.length_range'
  | true => exact (List.Perm.length_eq h).trans List.length_range'

theorem Numbered.append {parallel : Bool} {before n m : Nat} {told told' : List Nat}
    (h : Numbered parallel before n told) (h' : Numbered parallel (before + n) m told') :
    Numbered parallel before (n + m) (told ++ told') := by
  have hrange : List.range' (before + 1) n ++ List.range' (before + n + 1) m = List.range' (before + 1) (n + m) := by
    rw [Nat.add_right_comm]
    exact List.range'_append_1
  cases parallel with
  | false => exact (congr (congrArg HAppend.hAppend h) h').trans hrange
  | true => exact (List.Perm.append h h').trans (.of_eq hrange)

/-- Those who listen hear each number that is told, and nothing else while a search looks at the world. -/
structure Surroundings.Announces (s : Surroundings W F) (heard : W → List E) (note : Nat → E) : Prop where
  cancelled (w : W) : heard (s.cancelled.run w).2 = heard w
  versions (w : W) : heard (s.versions.run w).2 = heard w
  ask (coverage : Coverage) (f : F) (w : W) : heard ((s.ask coverage f).run w).2 = heard w
  progress (n : Nat) (w : W) : heard ((s.progress n).run w).2 = heard w ++ [note n]
  schedule (fs : List F) : (s.schedule fs).Perm fs

section

variable (heard : W → List E) (note : Nat → E) (parallel : Bool)

/-- Between two states of a search so many functions were counted, and their numbers were heard. -/
def Tally (σ τ : Search W F) (n : Nat) : Prop :=
  τ.processed = σ.processed + n ∧
    ∃ told, Numbered parallel σ.processed n told ∧ heard τ.world = heard σ.world ++ told.map note

/-- A step counts so many functions at most, and just so many if it succeeds. -/
def Spends (step : Searching W F β) (bound : Nat) : Prop :=
  ∀ σ, ∃ n, Tally heard note parallel σ (step.after σ).2 n ∧ n ≤ bound ∧
    ∀ b τ, step.after σ = (.ok b, τ) → n = bound

end

variable {heard : W → List E} {note : Nat → E} {parallel : Bool}

theorem Tally.still {σ τ : Search W F} (hp : τ.processed = σ.processed) (hw : heard τ.world = heard σ.world) :
    Tally heard note parallel σ τ 0 :=
  ⟨hp, [], numbered_range' parallel _ 0, hw.trans (List.append_nil _).symm⟩

theorem Tally.trans {σ ρ τ : Search W F} {n m : Nat} (h : Tally heard note parallel σ ρ n)
    (h' : Tally heard note parallel ρ τ m) : Tally heard note parallel σ τ (n + m) := by
  obtain ⟨hp, told, hn, hw⟩ := h
  obtain ⟨hp', told', hn', hw'⟩ := h'
  refine ⟨by rw [hp', hp, Nat.add_assoc], told ++ told', hn.append (hp ▸ hn'), ?_⟩
  rw [hw', hw, List.map_append, List.append_assoc]

namespace Spends

open ExceptT

theorem bind {step : Searching W F α} {more : α → Searching W F β} {n m : Nat}
    (hstep : Spends heard note parallel step n) (hmore : ∀ a, Spends heard note parallel (more a) m) :
    Spends heard note parallel (step >>= more) (n + m) := by
  intro σ
  obtain ⟨k, hk, hle, hok⟩ := hstep σ
  rw [after_bind]
  rcases hfirst : step.after σ with ⟨e | a, ρ⟩
  · rw [hfirst] at hk
    exact ⟨k, hk, by omega, fun b τ h => by cases h⟩
  · rw [hfirst] at hk
    obtain rfl := hok a ρ hfirst
    obtain ⟨l, hl, hle', hok'⟩ := hmore a ρ
    exact ⟨k + l, hk.trans hl, by omega, fun b τ h => by rw [hok' b τ h]⟩

theorem pure (a : α) : Spends heard note parallel (Pure.pure a : Searching W F α) 0 :=
  fun _ => ⟨0, .still rfl rfl, Nat.le_refl 0, fun _ _ _ => rfl⟩

theorem throw (e : ResolveError) (n : Nat) :
    Spends heard note parallel (MonadExcept.throw e : Searching W F α) n :=
  fun _ => ⟨0, .still rfl rfl, Nat.zero_le n, fun b τ h => by cases h⟩

/-- A step that does not fail counts as many functions as it is seen to count. -/
theorem lift {view : StateM (Search W F) α} {n : Nat} (h : ∀ σ, Tally heard note parallel σ (view.run σ).2 n) :
    Spends heard note parallel (liftM view : Searching W F α) n :=
  fun σ => ⟨n, h σ, Nat.le_refl n, fun _ _ _ => rfl⟩

theorem observe {view : StateM W α} (h : ∀ w, heard (view.run w).2 = heard w) :
    Spends heard note parallel (Search.observe view : Searching W F α) 0 :=
  lift fun σ => .still rfl (h σ.world)

end Spends

namespace Surroundings

open ExceptT

variable {s : Surroundings W F}

namespace Announces

variable (hs : s.Announces heard note)
include hs

theorem checkCancelled : Spends heard note parallel s.checkCancelled 0 := by
  rw [Surroundings.checkCancelled]
  refine Spends.bind (n := 0) (m := 0) (.observe hs.cancelled) fun stop => ?_
  cases stop with
  | false => exact .pure ()
  | true => exact .throw .cancelled 0

theorem tickIf (counted : Bool) (σ : Search W F) :
    Tally heard note parallel σ ((s.tickIf counted).run σ).2 (share counted 1) := by
  rw [run_tickIf]
  cases counted with
  | false => exact .still rfl rfl
  | true => exact ⟨rfl, [σ.processed + 1], numbered_range' parallel _ 1, hs.progress _ _⟩

/-- The functions that the cache has answers for are counted as they are met. -/
theorem consult (coverage : Coverage) (counted : Bool) (round : List F) (σ : Search W F) :
    Tally heard note parallel σ ((s.consult coverage counted round).run σ).2
      (share counted ((s.consult coverage counted round).run σ).1.1.length) := by
  induction round generalizing σ with
  | nil =>
    cases counted with
    | false => exact .still rfl rfl
    | true => exact .still rfl rfl
  | cons f rest ih =>
    have hasked : Tally heard note parallel σ (s.asked coverage f σ) 0 := .still rfl (hs.versions σ.world)
    cases hk : σ.cache.freshNeighbours? coverage f (s.versions.run σ.world).1 with
    | none =>
      rw [run_consult_miss hk]
      have hall := hasked.trans (ih (s.asked coverage f σ))
      rwa [Nat.zero_add] at hall
    | some known =>
      rw [run_consult_hit hk]
      have hall := (hasked.trans (hs.tickIf counted (s.asked coverage f σ))).trans (ih _)
      rw [Nat.zero_add, ← share_add, Nat.add_comm 1] at hall
      exact hall

theorem query (coverage : Coverage) (counted : Bool) (f : F) :
    Spends heard note parallel (s.query coverage counted f) (share counted 1) := by
  have hquery : Spends heard note parallel (s.query coverage counted f) (0 + (0 + (share counted 1 + 0))) := by
    refine .bind hs.checkCancelled fun _ => .bind (.observe (hs.ask coverage f)) fun answer => ?_
    cases answer with
    | ok found => exact .bind (.lift (hs.tickIf counted)) fun _ => .pure _
    | error error => exact .throw _ _
  rwa [Nat.zero_add, Nat.zero_add, Nat.add_zero] at hquery

theorem queryAll (coverage : Coverage) (counted : Bool) (functions : List F) :
    Spends heard note parallel (s.queryAll coverage counted functions) (share counted functions.length) := by
  induction functions with
  | nil =>
    cases counted with
    | false => exact .pure _
    | true => exact .pure _
  | cons f rest ih =>
    have hall : Spends heard note parallel (s.queryAll coverage counted (f :: rest))
        (share counted 1 + (share counted rest.length + 0)) :=
      .bind (hs.query coverage counted f) fun _ => .bind ih fun _ => .pure _
    rwa [Nat.add_zero, ← share_add, Nat.add_comm] at hall

theorem commit (coverage : Coverage) (answers : Answers F) (σ : Search W F) :
    Tally heard note parallel σ ((s.commit coverage answers).run σ).2 0 := by
  induction answers generalizing σ with
  | nil => exact .still rfl rfl
  | cons answer rest ih =>
    have hfirst : Tally heard note parallel σ ((s.commit coverage [answer]).run σ).2 0 :=
      .still rfl (hs.versions σ.world)
    exact hfirst.trans (ih _)

end Announces

/-- A way to ask about functions that counts each of them once it is answered, if they are to be counted. -/
def CountsBy (asking : Asking W F) (heard : W → List E) (note : Nat → E) (parallel : Bool) : Prop :=
  ∀ coverage counted functions,
    Spends heard note parallel (asking coverage counted functions) (share counted functions.length)

theorem Announces.inTurn (hs : s.Announces heard note) : CountsBy s.inTurn heard note parallel := by
  intro coverage counted functions
  rw [← (hs.schedule functions).length_eq]
  exact hs.queryAll coverage counted (s.schedule functions)

end Surroundings

/-! ### Asking at once -/

/-- The number that a function has got and that is not told yet. -/
def Errand.number? : Errand F → Option Nat
  | counted number _ => some number
  | _ => none

namespace Crew

/-- The numbers that some errands have got and not told yet. -/
def held (errands : List (F × Errand F)) : List Nat := errands.filterMap fun errand => errand.2.number?

variable {s : Surroundings W F} {coverage : Coverage} {counted : Bool}

/-- The numbers told and those still held are all numbers given since the errands began, each once. -/
structure Balanced (heard : W → List E) (note : Nat → E) (counted : Bool) (base : List E) (before : Nat)
    (c : Crew W F) : Prop where
  processed : c.processed = before + share counted (tallied c.errands)
  told : ∃ told, heard c.world = base ++ told.map note ∧
    (told ++ held c.errands).Perm (List.range' (before + 1) (share counted (tallied c.errands)))

variable {base : List E} {before : Nat}

omit [Handle F] in
theorem held_append (errands rest : List (F × Errand F)) (errand : F × Errand F) :
    held (errands ++ errand :: rest) = held errands ++ (errand.2.number?.toList ++ held rest) := by
  rw [held, List.filterMap_append, List.filterMap_cons]
  cases errand.2.number? <;> rfl

theorem perm_insert (told held held' : List Nat) (number : Nat) :
    (told ++ (held ++ number :: held')).Perm (number :: (told ++ (held ++ held'))) := by
  rw [← List.append_assoc, ← List.append_assoc]
  exact List.perm_middle

namespace Balanced

variable {f : F} {errands rest : List (F × Errand F)} {w : W} {n : Nat}

omit [Handle F] in
/-- An errand that neither gets nor tells a number leaves the balance as it is. -/
theorem move {w' : W} {e e' : Errand F}
    (h : Balanced heard note counted base before ⟨w, n, errands ++ (f, e) :: rest⟩)
    (hw : heard w' = heard w) (hnumber : e'.number? = e.number?)
    (hcounted : counted = true → e'.hasCounted = e.hasCounted) :
    Balanced heard note counted base before ⟨w', n, errands ++ (f, e') :: rest⟩ := by
  have hheld : held (errands ++ (f, e') :: rest) = held (errands ++ (f, e) :: rest) := by
    rw [held_append, held_append, hnumber]
  have hshare : share counted (tallied (errands ++ (f, e') :: rest)) =
      share counted (tallied (errands ++ (f, e) :: rest)) := by
    cases counted with
    | false => rfl
    | true => rw [tallied_append, tallied_append, hcounted rfl]
  obtain ⟨told, hheard, hperm⟩ := h.told
  refine ⟨hshare ▸ h.processed, told, hw.trans hheard, ?_⟩
  rw [hheld, hshare]
  exact hperm

omit [Handle F] in
/-- The function that is counted gets the number after all that were given. -/
theorem count {found : List F} (h : Balanced heard note true base before
      ⟨w, n, errands ++ (f, .answered found) :: rest⟩) :
    Balanced heard note true base before ⟨w, n + 1, errands ++ (f, .counted (n + 1) found) :: rest⟩ := by
  let old := tallied (errands ++ (f, .answered found) :: rest)
  have htallied : tallied (errands ++ (f, .counted (n + 1) found) :: rest) = old + 1 := by
    rw [tallied_append]
    exact congrArg (· + 1) (tallied_append errands rest (f, .answered found)).symm
  have hn : n = before + old := h.processed
  obtain ⟨told, hheard, hperm⟩ := h.told
  refine ⟨?_, told, hheard, ?_⟩
  · rw [htallied]
    exact congrArg (· + 1) hn
  · have hrange : List.range' (before + 1) old ++ [n + 1] = List.range' (before + 1) (old + 1) := by
      rw [List.range'_1_concat, hn, Nat.add_right_comm]
    have hold : (told ++ (held errands ++ held rest)).Perm (List.range' (before + 1) old) := by
      rw [held_append] at hperm
      exact hperm
    rw [held_append, htallied]
    refine (perm_insert told (held errands) (held rest) (n + 1)).trans ((hold.cons (n + 1)).trans ?_)
    exact (List.perm_append_singleton _ _).symm.trans (.of_eq hrange)

/-- A number that is told is not held any more. -/
theorem tell (hs : s.Announces heard note) {number : Nat} {found : List F}
    (h : Balanced heard note counted base before ⟨w, n, errands ++ (f, .counted number found) :: rest⟩) :
    Balanced heard note counted base before
      ⟨((s.progress number).run w).2, n, errands ++ (f, .done found) :: rest⟩ := by
  have htallied : tallied (errands ++ (f, .done found) :: rest) =
      tallied (errands ++ (f, .counted number found) :: rest) := by
    rw [tallied_append, tallied_append]
    rfl
  obtain ⟨told, hheard, hperm⟩ := h.told
  refine ⟨htallied ▸ h.processed, told ++ [number], ?_, ?_⟩
  · rw [hs.progress, hheard, List.map_append, List.append_assoc]
    rfl
  · rw [held_append] at hperm
    rw [htallied, held_append, List.append_assoc]
    refine List.Perm.trans ?_ hperm
    exact List.perm_middle.trans (perm_insert told (held errands) (held rest) number).symm

/-- No step of any errand upsets the balance. -/
theorem step (hs : s.Announces heard note) {c c' : Crew W F}
    (h : Balanced heard note counted base before c) (hstep : Step s coverage counted c c') :
    Balanced heard note counted base before c' := by
  cases hstep with
  | drop errands rest hfailed => exact h.move rfl rfl fun _ => rfl
  | advance errands rest hadvance =>
    cases hadvance with
    | leave hgoing => exact h.move (hs.cancelled _) rfl fun _ => rfl
    | stop hstopped => exact h.move (hs.cancelled _) rfl fun _ => rfl
    | ask hfound => exact h.move (hs.ask _ _ _) rfl fun _ => rfl
    | fail herror => exact h.move (hs.ask _ _ _) rfl fun _ => rfl
    | count hcounted =>
      subst hcounted
      exact h.count
    | tell => exact h.tell hs
    | keep hkept => exact h.move rfl rfl fun hcounted => by cases hkept.symm.trans hcounted

theorem run (hs : s.Announces heard note) {c c' : Crew W F}
    (h : Balanced heard note counted base before c) (hrun : Run s coverage counted c c') :
    Balanced heard note counted base before c' := by
  induction hrun with
  | refl => exact h
  | tail _ hstep ih => exact ih.step hs hstep

end Balanced

omit [Handle F] in
/-- At first nothing was given and nothing told. -/
theorem balanced_begin (heard : W → List E) (note : Nat → E) (counted : Bool) (w : W) (n : Nat) (functions : List F) :
    Balanced heard note counted (heard w) n (.begin w n functions) := by
  have hheld : held (begin w n functions).errands = [] := by
    refine List.filterMap_eq_nil_iff.mpr fun errand herrand => ?_
    obtain ⟨f, -, rfl⟩ := List.mem_map.mp herrand
    rfl
  refine ⟨?_, [], (List.append_nil _).symm, ?_⟩
  · rw [tallied_begin]
    cases counted <;> rfl
  · rw [tallied_begin, hheld]
    cases counted <;> exact .refl _

omit [Handle F] in
theorem held_of_over {errands : List (F × Errand F)} (h : ∀ errand ∈ errands, errand.2.IsOver) : held errands = [] := by
  refine List.filterMap_eq_nil_iff.mpr fun errand herrand => ?_
  have hover := h errand herrand
  cases hstage : errand.2 with
  | counted number found =>
    rw [hstage] at hover
    exact hover.elim
  | _ => rfl

omit [Handle F] in
theorem Ends.isOver {c : Crew W F} {result : Except ResolveError (Answers F)} (h : c.Ends result) :
    ∀ errand ∈ c.errands, errand.2.IsOver := by
  cases result with
  | error error => exact h.2
  | ok answers =>
    have herrands : c.errands = answers.map fun answer => (answer.1, .done answer.2) := h
    intro errand herrand
    rw [herrands] at herrand
    obtain ⟨answer, -, rfl⟩ := List.mem_map.mp herrand
    trivial

end Crew

namespace Surroundings

open ExceptT

variable {s : Surroundings W F} {asking : Asking W F}

/-- Functions that are asked about at once are counted in some order. -/
theorem AtOnce.countsBy (hat : s.AtOnce asking) (hs : s.Announces heard note) : CountsBy asking heard note true := by
  intro coverage counted functions σ
  obtain ⟨c, hrun, hends, hlast⟩ := hat coverage counted functions σ
  have hbalanced := (Crew.balanced_begin heard note counted σ.world σ.processed (s.schedule functions)).run hs hrun
  have hlength : c.errands.length = functions.length := by
    have hall := congrArg List.length hrun.functions
    rw [List.length_map, List.length_map, Crew.begin, List.length_map] at hall
    exact hall.trans (hs.schedule functions).length_eq
  obtain ⟨told, hheard, hperm⟩ := hbalanced.told
  rw [Crew.held_of_over hends.isOver, List.append_nil] at hperm
  have hle : Crew.tallied c.errands ≤ functions.length := hlength ▸ List.countP_le_length
  refine ⟨share counted (Crew.tallied c.errands), ?_, ?_, fun answers τ hok => ?_⟩
  · rw [hlast]
    exact ⟨hbalanced.processed, told, hperm, hheard⟩
  · cases counted with
    | false => exact Nat.le_refl 0
    | true => exact hle
  · rw [hok] at hends
    rw [Crew.Ends.tallied hends, hlength]

/-- A round counts each of its functions, whether the cache has its answer or not. -/
theorem Announces.answerRoundBy (hs : s.Announces heard note) (ha : CountsBy asking heard note parallel)
    (coverage : Coverage) (counted : Bool) (round : List F) :
    Spends heard note parallel (s.answerRoundBy asking coverage counted round) (share counted round.length) := by
  have hall : Spends heard note parallel (s.answerRoundBy asking coverage counted round)
      (0 + share counted round.length) := by
    refine .bind hs.checkCancelled fun _ σ => ?_
    have hfunctions := (consulted s.keeps_true coverage counted round (σ := σ) trivial).functions.length_eq
    have hconsult : Tally heard note parallel σ _ _ := hs.consult coverage counted round σ
    rw [after_bind, after_lift]
    rcases hrun : (s.consult coverage counted round).run σ with ⟨⟨known, pending⟩, ρ⟩
    rw [hrun] at hconsult hfunctions
    rw [List.length_append, List.length_map] at hfunctions
    dsimp only
    have hrest : Spends heard note parallel (do
        let learned ← asking coverage counted pending
        s.commit coverage learned
        return known ++ learned : Searching W F (Answers F)) (share counted pending.length + (0 + 0)) :=
      .bind (ha coverage counted pending) fun learned => .bind (.lift (hs.commit coverage learned)) fun _ => .pure _
    obtain ⟨n, hn, hle, hok⟩ := hrest ρ
    refine ⟨_, hconsult.trans hn, ?_, fun answers τ h => ?_⟩
    · rw [← hfunctions, share_add]
      exact Nat.add_le_add_left hle _
    · rw [hok answers τ h, ← hfunctions, share_add]
      rfl
  rwa [Nat.zero_add] at hall

end Surroundings

/-- Whatever is answered, an inquiry that comes to an end has counted so many functions. -/
def Inquiry.Takes : Inquiry F α → Nat → Prop
  | .done _, n => n = 0
  | .unbounded, _ => True
  | .ask _ counted round next, n =>
    share counted round.length ≤ n ∧ ∀ answers, (next answers).Takes (n - share counted round.length)

/-- The inquiry about a scope counts each of its functions once. -/
theorem Question.takes_ofScope (limited : Bool) (scope : Std.TreeSet F) (rounds : Nat) :
    ((ofScope limited scope).inquiry rounds).Takes scope.size := by
  rw [← Std.TreeSet.length_toList]
  cases limited with
  | true => exact ⟨Nat.le_refl _, fun _ => Nat.sub_self _⟩
  | false => exact ⟨Nat.zero_le _, fun _ => ⟨Nat.le_refl _, fun _ => Nat.sub_self _⟩⟩

namespace Surroundings

open ExceptT

variable {s : Surroundings W F} {asking : Asking W F}

theorem Announces.pursueBy (hs : s.Announces heard note) (ha : CountsBy asking heard note parallel)
    (q : Inquiry F α) (σ : Search W F) :
    ∃ n, Tally heard note parallel σ ((s.pursueBy asking q).after σ).2 n ∧
      ∀ bound, q.Takes bound → n ≤ bound ∧ ∀ a τ, (s.pursueBy asking q).after σ = (.ok a, τ) → n = bound := by
  induction q generalizing σ with
  | done a => exact ⟨0, .still rfl rfl, fun bound hbound => ⟨Nat.zero_le _, fun _ _ _ => hbound.symm⟩⟩
  | unbounded => exact ⟨0, .still rfl rfl, fun bound _ => ⟨Nat.zero_le _, fun _ _ h => by cases h⟩⟩
  | ask coverage counted round next ih =>
    have hstep : s.pursueBy asking (.ask coverage counted round next) =
        s.answerRoundBy asking coverage counted round >>= fun answers => s.pursueBy asking (next answers) := rfl
    obtain ⟨n, hn, hle, hok⟩ := hs.answerRoundBy ha coverage counted round σ
    rw [hstep, after_bind]
    rcases hround : (s.answerRoundBy asking coverage counted round).after σ with ⟨e | answers, ρ⟩
    · rw [hround] at hn
      exact ⟨n, hn, fun bound hbound => ⟨Nat.le_trans hle hbound.1, fun _ _ h => by cases h⟩⟩
    · rw [hround] at hn
      obtain rfl := hok answers ρ hround
      obtain ⟨m, hm, hrest⟩ := ih answers ρ
      refine ⟨_, hn.trans hm, fun bound hbound => ?_⟩
      obtain ⟨hle', hok'⟩ := hrest _ (hbound.2 answers)
      have hbefore := hbound.1
      exact ⟨by omega, fun a τ h => by have := hok' a τ h; omega⟩

/-- The numbers of the functions that a search asks about are heard while it works. -/
theorem Announces.answerBy (hs : s.Announces heard note) (ha : CountsBy asking heard note parallel)
    (question : Question F) (σ : Search W F) :
    ∃ n, Tally heard note parallel σ ((s.answerBy asking question).after σ).2 n ∧
      ∀ bound, (∀ rounds, (question.inquiry rounds).Takes bound) →
        n ≤ bound ∧ ∀ r τ, (s.answerBy asking question).after σ = (.ok r, τ) → n = bound := by
  obtain ⟨n, hn, htakes⟩ := hs.pursueBy ha (question.inquiry (s.limit question σ)) σ
  rw [after_answerBy]
  rcases hpursue : (s.pursueBy asking (question.inquiry (s.limit question σ))).after σ with ⟨e | found, τ⟩
  · rw [hpursue] at hn
    exact ⟨n, hn, fun bound hbound => ⟨(htakes bound (hbound _)).1, fun _ _ h => by cases h⟩⟩
  · rw [hpursue] at hn
    refine ⟨n, hn, fun bound hbound => ?_⟩
    obtain ⟨hle, hok⟩ := htakes bound (hbound _)
    exact ⟨hle, fun _ _ _ => hok found τ hpursue⟩

end Surroundings
end CallChart
