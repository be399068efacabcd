import CallChart.Build.Job
import CallChart.Proofs.Rounds
import Mathlib.Logic.Relation

/-! Searches and builds in which the functions of a round are asked about in some other way than one after the
other. In particular they may be asked about at once: then every question goes on step by step, and the steps of
different questions follow each other in any order. -/
namespace CallChart

variable {W F α : Type} [Handle F]

/-- A way to ask about the functions of a round that the cache has no answer for. -/
abbrev Asking (W F : Type) [Handle F] := Coverage → Bool → List F → Searching W F (Answers F)

namespace Surroundings

variable (s : Surroundings W F)

/-- To ask about one function after the other. -/
def inTurn : Asking W F := fun coverage counted functions => s.queryAll coverage counted (s.schedule functions)

def answerRoundBy (asking : Asking W F) (coverage : Coverage) (counted : Bool) (round : List F) :
    Searching W F (Answers F) := do
  s.checkCancelled
  let (known, pending) ← s.consult coverage counted round
  let learned ← asking coverage counted pending
  s.commit coverage learned
  return known ++ learned

def pursueBy (asking : Asking W F) : Inquiry F α → Searching W F α
  | .done result => return result
  | .unbounded => throw .unbounded
  | .ask coverage counted round next => do
    let answers ← s.answerRoundBy asking coverage counted round
    pursueBy asking (next answers)

def answerBy (asking : Asking W F) (question : Question F) : Searching W F (Resolution F) := do
  let found ← s.pursueBy asking (question.inquiry (s.limit question (← get)))
  return { found with processed := (← get).processed }

theorem pursueBy_inTurn (q : Inquiry F α) : s.pursueBy s.inTurn q = s.pursue q := by
  induction q with
  | done a => rfl
  | unbounded => rfl
  | ask coverage counted round next ih => exact congrArg _ (funext ih)

/-- Asking in turn is what a search does. -/
theorem answerBy_inTurn (question : Question F) : s.answerBy s.inTurn question = s.answer question := by
  unfold answerBy answer
  simp only [pursueBy_inTurn]

theorem after_answerBy (asking : Asking W F) (question : Question F) (σ : Search W F) :
    (s.answerBy asking question).after σ =
      match (s.pursueBy asking (question.inquiry (s.limit question σ))).after σ with
      | (.ok found, τ) => (.ok { found with processed := τ.processed }, τ)
      | (.error e, τ) => (.error e, τ) := by
  have hanswer : (s.answerBy asking question).after σ =
      (s.pursueBy asking (question.inquiry (s.limit question σ)) >>= fun found => do
        return { found with processed := (← get).processed } : Searching W F (Resolution F)).after σ := rfl
  rw [hanswer, ExceptT.after_bind]
  rcases (s.pursueBy asking (question.inquiry (s.limit question σ))).after σ with ⟨_ | _, _⟩ <;> rfl

end Surroundings

/-- How far the question about one function has come. -/
inductive Errand (F : Type) where
  | waiting
  /-- It was not cancelled, and the index is about to be asked. -/
  | leaving
  | answered (found : List F)
  /-- The function has got a number, which is not told yet. -/
  | counted (number : Nat) (found : List F)
  | done (found : List F)
  | failed (error : ResolveError)
  /-- It was not begun any more after another one had failed. -/
  | dropped

/-- Nothing more comes of an errand. -/
def Errand.IsOver : Errand F → Prop
  | done _ | failed _ | dropped => True
  | _ => False

/-- The world, the number of functions asked about, and the errands about a round of functions. -/
structure Crew (W F : Type) where
  world : W
  processed : Nat
  errands : List (F × Errand F)

namespace Crew

variable (s : Surroundings W F) (coverage : Coverage) (counted : Bool)

/-- What one errand does next, to the world and to the number of functions asked about. Counting a function
and telling its number are two steps. -/
inductive Advances (f : F) : W × Nat × Errand F → W × Nat × Errand F → Prop where
  | leave {w : W} {n : Nat} : (s.cancelled.run w).1 = false →
      Advances f (w, n, .waiting) ((s.cancelled.run w).2, n, .leaving)
  | stop {w : W} {n : Nat} : (s.cancelled.run w).1 = true →
      Advances f (w, n, .waiting) ((s.cancelled.run w).2, n, .failed .cancelled)
  | ask {w : W} {n : Nat} {found : Std.TreeSet F} : ((s.ask coverage f).run w).1 = .ok found →
      Advances f (w, n, .leaving) (((s.ask coverage f).run w).2, n, .answered found.toList)
  | fail {w : W} {n : Nat} {error : IndexError} : ((s.ask coverage f).run w).1 = .error error →
      Advances f (w, n, .leaving) (((s.ask coverage f).run w).2, n, .failed (.index error))
  | count {w : W} {n : Nat} {found : List F} : counted = true →
      Advances f (w, n, .answered found) (w, n + 1, .counted (n + 1) found)
  | tell {w : W} {n number : Nat} {found : List F} :
      Advances f (w, n, .counted number found) (((s.progress number).run w).2, n, .done found)
  | keep {w : W} {n : Nat} {found : List F} : counted = false →
      Advances f (w, n, .answered found) (w, n, .done found)

/-- What can happen next: some errand goes on, or one is dropped before it has begun. -/
inductive Step : Crew W F → Crew W F → Prop where
  | advance (before rest : List (F × Errand F)) {f : F} {w w' : W} {n n' : Nat} {errand errand' : Errand F} :
      Advances s coverage counted f (w, n, errand) (w', n', errand') →
      Step ⟨w, n, before ++ (f, errand) :: rest⟩ ⟨w', n', before ++ (f, errand') :: rest⟩
  | drop (before rest : List (F × Errand F)) {f g : F} {w : W} {n : Nat} {error : ResolveError} :
      (g, .failed error) ∈ before ++ rest →
      Step ⟨w, n, before ++ (f, .waiting) :: rest⟩ ⟨w, n, before ++ (f, .dropped) :: rest⟩

def Run : Crew W F → Crew W F → Prop := Relation.ReflTransGen (Step s coverage counted)

/-- All errands begin about the functions of a list. -/
def begin (w : W) (n : Nat) (functions : List F) : Crew W F := ⟨w, n, functions.map (·, .waiting)⟩

/-- What all errands have come to when nothing more comes of them: all answers, or the failure of one. -/
def Ends (c : Crew W F) : Except ResolveError (Answers F) → Prop
  | .ok answers => c.errands = answers.map fun answer => (answer.1, .done answer.2)
  | .error error => (∃ f, (f, .failed error) ∈ c.errands) ∧ ∀ errand ∈ c.errands, errand.2.IsOver

end Crew

/-- A way to ask about the functions of a round at once: whatever the state, it does what some run of all errands
does that leaves nothing to do. -/
def Surroundings.AtOnce (s : Surroundings W F) (asking : Asking W F) : Prop :=
  ∀ coverage counted functions σ, ∃ c,
    Crew.Run s coverage counted (.begin σ.world σ.processed (s.schedule functions)) c ∧
      c.Ends ((asking coverage counted functions).after σ).1 ∧
      ((asking coverage counted functions).after σ).2 = ⟨c.world, σ.cache, c.processed⟩

/-- The ways in which a question is answered: one function after the other, or the functions of a round at once. -/
inductive Surroundings.Resolves (s : Surroundings W F) (question : Question F) :
    Searching W F (Resolution F) → Prop where
  | inTurn : Resolves s question (s.answer question)
  | atOnce {asking : Asking W F} : s.AtOnce asking → Resolves s question (s.answerBy asking question)

/-! ### Every function has its errand -/

namespace Crew

variable {s : Surroundings W F} {coverage : Coverage} {counted : Bool}

theorem Step.functions {c c' : Crew W F} (h : Step s coverage counted c c') :
    c'.errands.map Prod.fst = c.errands.map Prod.fst := by
  cases h with
  | advance before rest _ => rw [List.map_append, List.map_append, List.map_cons, List.map_cons]
  | drop before rest _ => rw [List.map_append, List.map_append, List.map_cons, List.map_cons]

theorem Run.functions {c c' : Crew W F} (h : Run s coverage counted c c') :
    c'.errands.map Prod.fst = c.errands.map Prod.fst := by
  induction h with
  | refl => rfl
  | tail _ hstep ih => exact hstep.functions.trans ih

end Crew

/-- Asking at once brings an answer about each function, if it succeeds. -/
theorem Surroundings.AtOnce.functions {s : Surroundings W F} {asking : Asking W F} (ha : s.AtOnce asking)
    {coverage : Coverage} {counted : Bool} {functions : List F} {answers : Answers F} {σ τ : Search W F}
    (h : (asking coverage counted functions).after σ = (.ok answers, τ)) :
    answers.map Prod.fst = s.schedule functions := by
  obtain ⟨c, hrun, hends, -⟩ := ha coverage counted functions σ
  rw [h] at hends
  have herrands : c.errands = answers.map fun answer => (answer.1, .done answer.2) := hends
  calc
    answers.map Prod.fst = c.errands.map Prod.fst := by
      rw [herrands, List.map_map]
      rfl
    _ = ((s.schedule functions).map fun f => (f, (.waiting : Errand F))).map Prod.fst := hrun.functions
    _ = s.schedule functions := by
      rw [List.map_map]
      exact List.map_id _

/-! ### One after the other is one of the orders -/

namespace Crew

open ExceptT

variable {s : Surroundings W F} {coverage : Coverage} {counted : Bool}

/-- The other errands take their course behind one that rests. -/
theorem Run.behind {c c' : Crew W F} (h : Run s coverage counted c c') (errand : F × Errand F) :
    Run s coverage counted { c with errands := errand :: c.errands } { c' with errands := errand :: c'.errands } := by
  let join (c : Crew W F) : Crew W F := { c with errands := errand :: c.errands }
  have hjoin {c c' : Crew W F} (hstep : Step s coverage counted c c') : Step s coverage counted (join c) (join c') := by
    cases hstep with
    | advance before rest hadvance => exact .advance (errand :: before) rest hadvance
    | drop before rest hfailed => exact .drop (errand :: before) rest (List.mem_cons_of_mem errand hfailed)
  exact Relation.ReflTransGen.lift join (fun _ _ => hjoin) _ _ h

theorem run_drop {g : F} {error : ResolveError} (before : List (F × Errand F)) (hfailed : (g, .failed error) ∈ before)
    (w : W) (n : Nat) (functions : List F) :
    Run s coverage counted ⟨w, n, before ++ functions.map (·, .waiting)⟩
      ⟨w, n, before ++ functions.map (·, .dropped)⟩ := by
  induction functions generalizing before with
  | nil => exact .refl
  | cons f rest ih =>
    have hrest := ih (before ++ [(f, .dropped)]) (List.mem_append_left _ hfailed)
    rw [List.append_assoc, List.append_assoc] at hrest
    exact .head (.drop before _ (List.mem_append_left _ hfailed)) hrest

/-- One question is asked from its beginning to its end. -/
theorem run_query {f : F} (rest : List (F × Errand F)) {σ τ : Search W F}
    {result : Except ResolveError (F × List F)} (h : (s.query coverage counted f).after σ = (result, τ)) :
    ∃ errand, Run s coverage counted ⟨σ.world, σ.processed, (f, .waiting) :: rest⟩
        ⟨τ.world, τ.processed, (f, errand) :: rest⟩ ∧ τ.cache = σ.cache ∧
      match result with
      | .ok answer => answer.1 = f ∧ errand = .done answer.2
      | .error error => errand = .failed error := by
  have hone {w w' : W} {n n' : Nat} {e e' : Errand F} (ha : Advances s coverage counted f (w, n, e) (w', n', e')) :
      Step s coverage counted ⟨w, n, (f, e) :: rest⟩ ⟨w', n', (f, e') :: rest⟩ :=
    .advance [] rest ha
  rw [Surroundings.after_query] at h
  cases hcancelled : (s.cancelled.run σ.world).1 with
  | true =>
    rw [hcancelled] at h
    cases h
    exact ⟨_, .single (hone (.stop hcancelled)), rfl, rfl⟩
  | false =>
    rw [hcancelled] at h
    have hleave := hone (n := σ.processed) (.leave hcancelled)
    cases hreply : ((s.ask coverage f).run (s.checked σ).world).1 with
    | error error =>
      simp only [hreply] at h
      cases h
      exact ⟨_, .head hleave (.single (hone (.fail hreply))), rfl, rfl⟩
    | ok found =>
      simp only [hreply] at h
      cases h
      have hask := hone (n := σ.processed) (.ask hreply)
      cases counted with
      | false => exact ⟨_, .head hleave (.head hask (.single (hone (.keep rfl)))), rfl, rfl, rfl⟩
      | true => exact ⟨_, .head hleave (.head hask (.head (hone (.count rfl)) (.single (hone .tell)))), rfl, rfl, rfl⟩

theorem run_queryAll (functions : List F) (σ : Search W F) : ∃ c,
    Run s coverage counted (.begin σ.world σ.processed functions) c ∧
      c.Ends ((s.queryAll coverage counted functions).after σ).1 ∧
      ((s.queryAll coverage counted functions).after σ).2 = ⟨c.world, σ.cache, c.processed⟩ := by
  induction functions generalizing σ with
  | nil => exact ⟨_, .refl, rfl, rfl⟩
  | cons f rest ih =>
    rcases hquery : (s.query coverage counted f).after σ with ⟨result, ρ⟩
    obtain ⟨errand, hrun, hcache, hresult⟩ := run_query (rest.map (·, .waiting)) hquery
    rw [Surroundings.queryAll, after_bind, hquery]
    cases result with
    | error error =>
      obtain rfl := hresult
      refine ⟨_, hrun.trans (run_drop [(f, .failed error)] List.mem_cons_self _ _ rest), ?_, ?_⟩
      · refine ⟨⟨f, List.mem_cons_self⟩, List.forall_mem_cons.mpr ⟨trivial, fun errand herrand => ?_⟩⟩
        obtain ⟨g, -, rfl⟩ := List.mem_map.mp herrand
        trivial
      · rw [← hcache]
    | ok answer =>
      obtain ⟨hf, rfl⟩ := hresult
      obtain ⟨c, hothers, hends, hlast⟩ := ih ρ
      refine ⟨_, hrun.trans (hothers.behind (f, .done answer.2)), ?_⟩
      dsimp only
      rw [after_bind]
      rcases hrest : (s.queryAll coverage counted rest).after ρ with ⟨error | answers, τ⟩
      · rw [hrest] at hends hlast
        obtain ⟨⟨g, hg⟩, hover⟩ := hends
        refine ⟨⟨⟨g, List.mem_cons_of_mem _ hg⟩, List.forall_mem_cons.mpr ⟨trivial, hover⟩⟩, ?_⟩
        rw [← hcache]
        exact hlast
      · rw [hrest] at hends hlast
        refine ⟨?_, ?_⟩
        · exact hf ▸ congrArg _ hends
        · rw [← hcache]
          exact hlast

end Crew

theorem Surroundings.atOnce_inTurn (s : Surroundings W F) : s.AtOnce s.inTurn :=
  fun _ _ functions σ => Crew.run_queryAll (s.schedule functions) σ

/-! ### Builds -/

namespace Site

variable (site : Site W F α)

/-- The beginning of a build, before the index is asked what is to be drawn. -/
def opening (build : Nat) : Building W F Unit := do
  site.checkCancelled
  observe (site.emit (.started build))
  site.prune

def findBy (asking : Option Nat → Asking W F) (build : Nat) (request : BuildRequest F) :
    Building W F (Resolution F) := do
  let (question, total) ← site.question build request
  guarded BuildError.ofResolve ((site.surroundings build total).answerBy (asking total) question).run

variable [Scalar α]

/-- What was found is drawn with some layout. -/
def finish (layout : Graph F α → StateM W (Except LayoutError (Graph F α))) (found : Resolution F) :
    Building W F (Graph F α) := do
  let g ← guarded BuildError.contract (pure (assemble found))
  site.checkCancelled
  let drawn ← guarded BuildError.ofLayout (Search.look (layout g))
  site.checkCancelled
  return drawn

/-- A build that asks about functions in some way and has some layout. -/
def runBy (asking : Option Nat → Asking W F) (layout : Graph F α → StateM W (Except LayoutError (Graph F α)))
    (build : Nat) (request : BuildRequest F) : Building W F (Graph F α) := do
  site.opening build
  let found ← site.findBy asking build request
  site.finish layout found

/-- The layout of a build, which draws one component after the other. -/
def layout (settings : LayoutSettings α) (g : Graph F α) : StateM W (Except LayoutError (Graph F α)) :=
  (LayoutService.arrange ⟨site.cancelled, site.draw⟩ settings g).run

/-- One after the other is the way of a build. -/
theorem runBy_inTurn (settings : LayoutSettings α) (build : Nat) (request : BuildRequest F) :
    site.runBy (fun total => (site.surroundings build total).inTurn) (site.layout settings) build request =
      site.run settings build request := by
  simp only [runBy, run, opening, finish, findBy, find, arrange, layout, Surroundings.answerBy_inTurn, bind_assoc]

/-- How a build may work: as it does one step after the other, or asking about the functions of a round at once. In
the second case the components may be drawn at once too: then the layout is any of which listeners hear nothing. -/
inductive Runs (heard : W → List BuildEvent) (settings : LayoutSettings α) (build : Nat) (request : BuildRequest F) :
    Bool → Building W F (Graph F α) → Prop where
  | inTurn : Runs heard settings build request false (site.run settings build request)
  | atOnce {asking : Option Nat → Asking W F} {layout : Graph F α → StateM W (Except LayoutError (Graph F α))} :
      (∀ total, (site.surroundings build total).AtOnce (asking total)) →
      (∀ g w, heard ((layout g).run w).2 = heard w) →
      Runs heard settings build request true (site.runBy asking layout build request)

end Site
end CallChart
