import CallChart.Proofs.ConfinedSearch
import CallChart.Proofs.Listings
import CallChart.Proofs.Reindexed

/-! The nodes of a graph are functions of the index that its build has used, however often the index was
exchanged and files were edited before. -/
namespace CallChart

variable {W X F α : Type} [Handle F] {project : Std.TreeSet F}

/-- Whatever an index names is one of the functions of the whole project. -/
structure CallIndex.Closed (index : CallIndex F) (project : Std.TreeSet F) : Prop where
  whole : index.functions .whole = .ok project
  scopes {scope : Scope} {found : Std.TreeSet F} {f : F} : index.functions scope = .ok found →
    f ∈ found → f ∈ project
  named {coverage : Coverage} {f g : F} : index.Names coverage f g → g ∈ project

namespace Site

open ExceptT

variable {site : Site W F α} {I : W → Prop} {P : Cache F → Prop} {build : Nat} {request : BuildRequest F}

/-- A site at which the index names functions of a project only. -/
structure Confined (site : Site W F α) (I : W → Prop) (project : Std.TreeSet F) : Prop
    extends site.Keeps I where
  lists {w : W} {scope : Scope} {found : Std.TreeSet F} : I w →
    ((site.functions scope).run w).1 = .ok found → ∀ f ∈ found, f ∈ project
  tells {w : W} {coverage : Coverage} {f : F} {found : Std.TreeSet F} : I w →
    ((site.ask coverage f).run w).1 = .ok found → ∀ g ∈ found, g ∈ project
  schedule (fs : List F) : (site.schedule fs).Perm fs

theorem Confined.surroundings (hs : site.Confined I project) (build : Nat) (total : Option Nat) :
    (site.surroundings build total).Confined I project where
  toKeeps := hs.toKeeps.surroundings build total
  tells := hs.tells
  schedule := hs.schedule

theorem Confined.prune (hs : site.Confined I project) :
    site.prune.Yields (Holding I fun _ => True) fun _ => Holding I (Cache.Inside project) := by
  rintro σ _ τ ⟨hw, -⟩ h
  obtain ⟨found, ρ, hfound, hpruned⟩ := after_bind_ok.mp h
  rw [guarded_ok_iff] at hfound
  cases hpruned
  have hρ : I ρ.world := congrArg (fun out => out.2.world) hfound ▸ hs.functions .whole hw
  exact ⟨hs.versions hρ, Cache.inside_prune _ _ (hs.lists hw (congrArg Prod.fst hfound))⟩

theorem Confined.scopeFunctions (hs : site.Confined I project) (build : Nat) (scope : Scope) :
    (site.scopeFunctions build scope).Yields (Holding I P) fun found σ =>
      Holding I P σ ∧ ∀ f ∈ found, f ∈ project := by
  have hanswer : (observe (site.functions scope)).Yields (Holding I P) fun answer σ =>
      Holding I P σ ∧ ∀ found, answer = .ok found → ∀ f ∈ found, f ∈ project := by
    rintro σ _ _ ⟨hw, hc⟩ ⟨⟩
    exact ⟨⟨hs.functions scope hw, hc⟩, fun found hfound => hs.lists hw hfound⟩
  refine .bind hanswer fun answer => ?_
  cases answer with
  | ok found => exact .pure fun _ h => ⟨h.1, h.2 found rfl⟩
  | error e =>
    dsimp only
    split
    · have hwarned : (observe (site.emit (.warning build e))).Preserves (Holding I P) :=
        fun σ hσ => ⟨hs.emit _ hσ.1, hσ.2⟩
      refine .bind (P := fun σ => Holding I P σ ∧ _) (fun σ _ τ hσ => hwarned.yields σ _ τ hσ.1) fun _ => ?_
      exact .pure fun _ hσ => ⟨hσ, fun f hf => absurd hf Std.TreeSet.not_mem_emptyc⟩
    · intro _ _ _ _ hthrow
      cases hthrow

theorem Confined.question (hs : site.Confined I project) (hr : request.Within project) (build : Nat) :
    (site.question build request).Yields (Holding I P) fun asked σ =>
      Holding I P σ ∧ asked.1.Inside project := by
  cases request with
  | focus seeds direction => exact .pure fun _ hσ => ⟨hσ, hr⟩
  | scope part limited =>
    refine .bind (hs.scopeFunctions build part) fun found => .pure fun _ hσ => ⟨hσ.1, fun f hf => ?_⟩
    refine hσ.2 f (Std.TreeSet.mem_of_mem_toList ?_)
    cases limited <;> exact hf

theorem Confined.find (hs : site.Confined I project) (hr : request.Within project) (build : Nat) :
    (site.find build request).Yields (Holding I (Cache.Inside project)) fun r _ => r.Inside project := by
  refine .bind (hs.question hr build) fun asked => ?_
  rintro σ r τ ⟨⟨hw, hc⟩, hasked⟩ h
  exact (hs.surroundings build asked.2).answer hasked (guarded_ok_iff.mp h) hw hc

/-- A build that succeeds shows functions of the project only, whatever was in the cache before. -/
theorem Confined.run [Scalar α] (hs : site.Confined I project) (hr : request.Within project)
    (settings : LayoutSettings α) (build : Nat) :
    (site.run settings build request).Yields (Holding I fun _ => True) fun g _ =>
      g.Distinct ∧ ∃ r : Resolution F, r.Inside project ∧ g.Shows r := by
  have hstarted : (observe (site.emit (.started build))).Preserves (Holding (F := F) I fun _ => True) :=
    fun σ hσ => ⟨hs.emit _ hσ.1, trivial⟩
  refine .bind hs.toKeeps.checkCancelled.yields fun _ => .bind hstarted.yields fun _ => ?_
  refine .bind hs.prune fun _ => .bind (hs.find hr build) fun r => ?_
  intro σ drawn τ hinside h
  obtain ⟨g, _, hassemble, h⟩ := after_bind_ok.mp h
  obtain ⟨_, _, -, h⟩ := after_bind_ok.mp h
  obtain ⟨_, _, harrange, h⟩ := after_bind_ok.mp h
  obtain ⟨_, _, -, hdrawn⟩ := after_bind_ok.mp h
  cases hdrawn
  have hg : assemble r = .ok g := congrArg Prod.fst (guarded_ok_iff.mp hassemble)
  have hdistinct : g.Distinct := Graph.distinct_of_assemble hg
  have hshows : g.Shows r := Graph.shows_of_assemble hg
  let service : LayoutService W α := ⟨site.cancelled, site.draw⟩
  rw [arrange, guarded_ok_iff] at harrange
  have hlaid : ((service.arrange settings g).after _).1 = .ok drawn := congrArg Prod.fst harrange
  rcases LayoutService.arrange_ok (Prod.ext hlaid rfl) with rfl | ⟨points, rfl⟩
  · exact ⟨hdistinct, r, hinside, hshows⟩
  · exact ⟨hdistinct.applyLayout points, r, hinside, hshows.applyLayout points⟩

end Site

namespace Services

variable {services : Services X F α} {J : X → Prop} {index : CallIndex F}

/-- The index service tells what an index tells, or nothing. Anything may happen meanwhile. -/
structure Reports (services : Services X F α) (J : X → Prop) (index : CallIndex F) : Prop where
  functions {x : X} (scope : Scope) : J x → J ((services.functions scope).run x).2
  ask {x : X} (coverage : Coverage) (f : F) : J x → J ((services.ask coverage f).run x).2
  draw {x : X} (request : LayoutRequest) : J x → J ((services.draw request).run x).2
  idle {x : X} : J x → J (services.idle.run x).2
  lists {x : X} {scope : Scope} {found : Std.TreeSet F} : J x →
    ((services.functions scope).run x).1.1 = .ok found → index.functions scope = .ok found
  tells {x : X} {coverage : Coverage} {f : F} {found : Std.TreeSet F} : J x →
    ((services.ask coverage f).run x).1.1 = .ok found → index.neighbours coverage f = .ok found

theorem Tells.reports (hs : services.Tells J index) : services.Reports J index :=
  ⟨hs.functions, hs.ask, hs.draw, hs.idle, hs.lists, hs.tells⟩

theorem Reports.site (hs : services.Reports J index) (hc : index.Closed project) (ticket : Ticket) :
    (services.site ticket).Confined (fun floor => J floor.outside) project := by
  have hafter (floor : Floor X F α) (happening : Happening) (hfloor : J floor.outside) :
      J (floor.after happening).outside := by
    cases happening <;> exact hfloor
  have hserve {β : Type} (service : StateM X (β × List Happening)) (floor : Floor X F α)
      (hkeep : J (service.run floor.outside).2) : J ((Floor.serve service).run floor).2.outside :=
    Floor.serve_keeps (I := fun floor => J floor.outside) (K := fun _ => True)
      (fun floor happening _ => hafter floor happening) hkeep fun _ _ => trivial
  have hkeeps : services.Keeps fun floor : Floor X F α => J floor.outside :=
    { functions := fun scope hfloor => hserve _ _ (hs.functions scope hfloor)
      ask := fun coverage f hfloor => hserve _ _ (hs.ask coverage f hfloor)
      draw := fun request hfloor => hserve _ _ (hs.draw request hfloor)
      idle := fun hfloor => hserve _ _ (hs.idle hfloor)
      emit := fun _ hfloor => hfloor }
  refine ⟨hkeeps.site ticket, fun hfloor hfound f hf => ?_, fun hfloor hfound g hg => ?_, .refl⟩
  · exact hc.scopes (hs.lists hfloor hfound) hf
  · exact hc.named ⟨_, hs.tells hfloor hfound, hg⟩

end Services

namespace Catalog

theorem closed_index (c : Catalog) (isDirectory : Path → Bool) : (c.index isDirectory).Closed c.whole where
  whole := rfl
  scopes h hf := mem_inScope h hf
  named := by
    rintro coverage f g ⟨found, hfound, hg⟩
    obtain ⟨k, hk, heq⟩ := listed_of_mem_neighbours hfound hg
    obtain ⟨listing, hlisting, rfl⟩ := List.mem_map.mp hk
    exact mem_ofList_iff.mpr ⟨_, List.mem_map_of_mem (List.mem_filter.mpr ⟨hlisting, rfl⟩), heq⟩

end Catalog

namespace Builder

variable [Scalar α]

/-- A build that succeeds shows functions of its index only, each once, whatever builder it was run by. -/
theorem build_inside {b : Builder X F α} {J : X → Prop} {index : CallIndex F} {request : BuildRequest F}
    (hs : b.services.Reports J index) (hJ : J b.floor.outside) (hc : index.Closed project)
    (hr : request.Within project) {g : Graph F α} (h : ((build request).run b).1 = .ok g) :
    (∀ n ∈ g.nodes, n.function ∈ project) ∧
      g.nodes.toList.Pairwise fun m n => compare m.function n.function ≠ .eq := by
  obtain ⟨hdistinct, r, hinside, hshows⟩ := (hs.site hc (register.run b).1).run hr b.settings (register.run b).1.build
    _ g _ ⟨hJ, trivial⟩ (Prod.ext (build_ok h) rfl)
  have hnode (n : Node F α) (hn : n ∈ g.nodes.toList) :
      n.function ∈ r.functions ∧ n.id = Handle.nodeId n.function := hshows.functions n (Array.mem_toList_iff.mp hn)
  refine ⟨fun n hn => hinside _ (hshows.functions n hn).1, hdistinct.imp_of_mem fun {m n} hm hn hne heq => hne ?_⟩
  rw [(hnode m hm).2, (hnode n hn).2]
  exact Handle.nodeId_congr heq

/-- In a session in which builds work one after the other, whatever its cache has learned from indexes before:
a build that succeeds shows functions of its index only, if the index names none but those of its project and
the request begins with some of them. So no two nodes have one qualified name if the index is a catalog. -/
theorem graph_of_index_in_use :
    (∀ {X F α : Type} [Handle F] [Scalar α] {b : Builder X F α} {J : X → Prop} {index : CallIndex F}
      {project : Std.TreeSet F} {request : BuildRequest F} {g : Graph F α},
      b.services.Reports J index → J b.floor.outside → index.Closed project → request.Within project →
      ((build request).run b).1 = .ok g → ∀ n ∈ g.nodes, n.function ∈ project) ∧
    ∀ {X α : Type} [Scalar α] {b : Builder X SourceFunction α} {J : X → Prop} {m : Manifest} {root : Path}
      {isDirectory : Path → Bool} {request : BuildRequest SourceFunction} {g : Graph SourceFunction α},
      let catalog := Catalog.ofManifest m root
      b.services.Reports J (catalog.index isDirectory) → J b.floor.outside → request.Within catalog.whole →
      ((build request).run b).1 = .ok g →
      (∀ n ∈ g.nodes, n.function ∈ catalog.whole) ∧
        g.nodes.toList.Pairwise fun n n' => n.function.qualifiedName ≠ n'.function.qualifiedName := by
  refine ⟨fun hs hJ hc hr h => (build_inside hs hJ hc hr h).1, ?_⟩
  intro X α _ b J m root isDirectory request g catalog hs hJ hr h
  obtain ⟨hinside, hdistinct⟩ := build_inside hs hJ (catalog.closed_index isDirectory) hr h
  refine ⟨hinside, hdistinct.imp_of_mem fun hn hn' hne heq => hne ?_⟩
  exact Catalog.eq_of_qualifiedName (hinside _ (Array.mem_toList_iff.mp hn)) (hinside _ (Array.mem_toList_iff.mp hn')) heq

/-- A catalog of one function, which calls itself. -/
def loopAt (line : UInt32) : Catalog :=
  .ofManifest ⟨[⟨"main", "crate::main", ⟨"src/main.rs"⟩, some line, "crate", false, ["crate::main"]⟩]⟩ ⟨"/project"⟩

/-- Services that answer from this catalog. -/
def loopServices (line : UInt32) : Services Unit SourceFunction Rat :=
  .answering ((loopAt line).index fun _ => true) fun request => .ok (.pinned ⟨0, 0⟩ request)

def loopRequest (line : UInt32) : BuildRequest SourceFunction := .focus (loopAt line).functions .both

/-- A builder that has drawn the function at line 3, when it is about to draw it at line 9. -/
def loopMoved : Builder Unit SourceFunction Rat :=
  let drawn := ((build (loopRequest 3)).run (.start (loopServices 3) .standard (.start none) ())).2
  ((setServices (loopServices 9)).run drawn).2

/-- A function that calls itself has moved to another line. The cache still knows it at the old one, and the
next build shows it at the new one. -/
theorem moved_function_shown_once :
    loopMoved.cache.dependencies.keys.map (fun call => call.callee.line) = [some 3] ∧
      ∃ g, ((build (loopRequest 9)).run loopMoved).1 = .ok g ∧ (∀ n ∈ g.nodes, n.function ∈ (loopAt 9).whole) ∧
        g.nodes.toList.Pairwise fun n n' => n.function.qualifiedName ≠ n'.function.qualifiedName := by
  refine ⟨by decide +kernel, ?_⟩
  have hr : (loopRequest 9).Within (loopAt 9).whole := by
    have hall : (loopAt 9).functions.all (loopAt 9).whole.contains = true := by decide +kernel
    exact fun f hf => Std.TreeSet.mem_iff_contains.mpr (List.all_eq_true.mp hall f hf)
  have hok : ((build (loopRequest 9)).run loopMoved).1.toOption.isSome = true := by decide +kernel
  cases hresult : ((build (loopRequest 9)).run loopMoved).1 with
  | error e =>
    rw [hresult] at hok
    cases hok
  | ok g =>
    have hs : loopMoved.services.Reports (fun _ => True) ((loopAt 9).index fun _ => true) :=
      (Services.tells_answering _ _).reports
    have hinside := graph_of_index_in_use.1 hs trivial ((loopAt 9).closed_index _) hr hresult
    obtain ⟨-, hnames⟩ := graph_of_index_in_use.2 hs trivial hr hresult
    exact ⟨g, rfl, hinside, hnames⟩

end Builder
end CallChart
