import CallChart.Proofs.QuestionLog
import Mathlib.Algebra.BigOperators.Group.List.Basic

/-! Following calls looks at every function once. In each direction a function is in one round at most, because
the functions of a round are taken for seen before the next round is made up. So the rounds end, no function is
looked up in the cache twice, and none is asked about twice. -/
namespace CallChart

variable {W F α : Type} [Handle F]

/-- The rounds of a search that follows calls from seeds in certain directions. -/
structure Follows (seeds : List F) (coverages : List Coverage) (legs : List (Leg F)) : Prop where
  coverage : ∀ leg ∈ legs, leg.coverage ∈ coverages
  nonempty : ∀ leg ∈ legs, leg.round ≠ []
  /-- In each direction a function is in one round at most, and there once. -/
  once : (legs.flatMap Leg.consulted).Pairwise fun a b => a.1 = b.1 → compare a.2 b.2 ≠ .eq
  /-- A round is about seeds and about functions that an earlier round in its direction has named. -/
  grounds : ∀ before leg after, legs = before ++ leg :: after → ∀ f ∈ leg.round,
    Listed seeds f ∨ ∃ earlier ∈ before, earlier.coverage = leg.coverage ∧ earlier.Names f

namespace Follows

variable {seeds : List F} {coverage : Coverage} {coverages : List Coverage} {legs rest : List (Leg F)}

theorem nil (seeds : List F) (coverages : List Coverage) : Follows seeds coverages [] where
  coverage _ h := absurd h List.not_mem_nil
  nonempty _ h := absurd h List.not_mem_nil
  once := .nil
  grounds before leg after h := by simp at h

theorem mono {others : List F} (h : Follows seeds coverages legs) (hsub : ∀ f, Listed seeds f → Listed others f) :
    Follows others coverages legs where
  coverage := h.coverage
  nonempty := h.nonempty
  once := h.once
  grounds before leg after heq f hf := (h.grounds before leg after heq f hf).imp_left (hsub f)

/-- One more round before others, which are about functions that it names and that it was not about. -/
theorem cons {leg : Leg F} {next : List F} (hnonempty : leg.round ≠ [])
    (hdistinct : leg.round.Pairwise fun f g => compare f g ≠ .eq) (h : Follows next [leg.coverage] rest)
    (hnext : ∀ f, Listed next f → leg.Names f)
    (hnew : ∀ f ∈ leg.round, ∀ later ∈ rest, ∀ g ∈ later.round, compare f g ≠ .eq) :
    Follows leg.round [leg.coverage] (leg :: rest) where
  coverage := List.forall_mem_cons.mpr ⟨List.mem_cons_self, h.coverage⟩
  nonempty := List.forall_mem_cons.mpr ⟨hnonempty, h.nonempty⟩
  once := by
    rw [List.flatMap_cons, List.pairwise_append]
    refine ⟨List.pairwise_map.mpr (hdistinct.imp ?_), h.once, fun a ha b hb _ => ?_⟩
    · intro f g hne _
      exact hne
    · obtain ⟨f, hf, rfl⟩ := List.mem_map.mp ha
      obtain ⟨later, hlater, hconsulted⟩ := List.mem_flatMap.mp hb
      obtain ⟨g, hg, rfl⟩ := List.mem_map.mp hconsulted
      exact hnew f hf later hlater g hg
  grounds before other after heq f hf := by
    rcases List.cons_eq_append_iff.mp heq with ⟨rfl, hother⟩ | ⟨before', rfl, hrest⟩
    · obtain ⟨rfl, -⟩ := List.cons.inj hother
      exact .inl (.of_mem hf)
    · have hside : leg.coverage = other.coverage := by
        have hmem := h.coverage other (hrest ▸ List.mem_append_right before' List.mem_cons_self)
        exact (List.mem_singleton.mp hmem).symm
      rcases h.grounds before' other after hrest f hf with hlisted | ⟨earlier, hearlier, hnames⟩
      · exact .inr ⟨leg, List.mem_cons_self, hside, hnext f hlisted⟩
      · exact .inr ⟨earlier, List.mem_cons_of_mem leg hearlier, hnames⟩

/-- One direction after others. -/
theorem append (hnew : coverage ∉ coverages) (h : Follows seeds [coverage] legs) (h' : Follows seeds coverages rest) :
    Follows seeds (coverage :: coverages) (legs ++ rest) where
  coverage := by
    intro leg hleg
    rcases List.mem_append.mp hleg with hfirst | hlater
    · exact List.mem_cons.mpr (.inl (List.mem_singleton.mp (h.coverage leg hfirst)))
    · exact List.mem_cons_of_mem coverage (h'.coverage leg hlater)
  nonempty := List.forall_mem_append.mpr ⟨h.nonempty, h'.nonempty⟩
  once := by
    rw [List.flatMap_append, List.pairwise_append]
    refine ⟨h.once, h'.once, fun a ha b hb hside => ?_⟩
    obtain ⟨leg, hleg, hconsulted⟩ := List.mem_flatMap.mp ha
    obtain ⟨f, -, rfl⟩ := List.mem_map.mp hconsulted
    obtain ⟨later, hlater, hconsulted'⟩ := List.mem_flatMap.mp hb
    obtain ⟨g, -, rfl⟩ := List.mem_map.mp hconsulted'
    have hfirst : leg.coverage = coverage := List.mem_singleton.mp (h.coverage leg hleg)
    exact absurd (hfirst.symm.trans hside ▸ h'.coverage later hlater) hnew
  grounds before leg after heq f hf := by
    rcases List.append_eq_append_iff.mp heq with ⟨between, rfl, hrest⟩ | ⟨between, rfl, hrest⟩
    · rcases h'.grounds between leg after hrest f hf with hlisted | ⟨earlier, hearlier, hnames⟩
      · exact .inl hlisted
      · exact .inr ⟨earlier, List.mem_append_right legs hearlier, hnames⟩
    · rcases List.cons_eq_append_iff.mp hrest with ⟨rfl, hrest'⟩ | ⟨after', rfl, -⟩
      · refine (h'.grounds [] leg after hrest' f hf).imp_right ?_
        rintro ⟨earlier, hearlier, -⟩
        exact absurd hearlier List.not_mem_nil
      · exact h.grounds before leg after' rfl f hf

/-- In each direction there are no more rounds than functions. -/
theorem length_le_size (h : Follows seeds coverages legs) {project : Std.TreeSet F}
    (hinside : ∀ leg ∈ legs, ∀ f ∈ leg.round, f ∈ project) (side : Coverage) :
    (legs.filter fun leg => leg.coverage = side).length ≤ project.size := by
  have hmem {leg : Leg F} (hleg : leg ∈ legs.filter fun leg => leg.coverage = side) :
      leg ∈ legs ∧ leg.coverage = side := by
    rw [List.mem_filter, decide_eq_true_eq] at hleg
    exact hleg
  have hlength : (legs.filter fun leg => leg.coverage = side).length ≤
      ((legs.filter fun leg => leg.coverage = side).flatMap Leg.round).length := by
    rw [List.length_flatMap, ← List.length_map fun leg : Leg F => leg.round.length]
    refine List.length_le_sum_of_one_le _ (List.forall_mem_map.mpr fun leg hleg => ?_)
    exact List.length_pos_iff.mpr (h.nonempty leg (hmem hleg).1)
  refine Nat.le_trans hlength ?_
  obtain ⟨hone, htwo⟩ := List.pairwise_flatMap.mp h.once
  refine CallChart.length_le_size (List.pairwise_flatMap.mpr ⟨fun leg hleg => ?_, ?_⟩) fun f hf => ?_
  · refine (List.pairwise_map.mp (hone leg (hmem hleg).1)).imp ?_
    intro f g hne
    exact hne rfl
  · refine (htwo.filter _).imp_of_mem fun hleg hlater hne f hf g hg => ?_
    exact hne _ (List.mem_map_of_mem hf) _ (List.mem_map_of_mem hg) ((hmem hleg).2.trans (hmem hlater).2.symm)
  · obtain ⟨leg, hleg, hround⟩ := List.mem_flatMap.mp hf
    exact hinside leg (hmem hleg).1 f hround

end Follows

namespace Surroundings

open ExceptT

variable {s : Surroundings W F} {I : W → Prop} {asking : Asking W F} {σ τ : Search W F} {legs : List (Leg F)}
  {outcome : Except ResolveError (Resolution F)}

/-- Every round takes up functions that were not seen, and takes them for seen from then on. -/
theorem Course.follows_close {coverage : Coverage} {rounds : Nat} {seen : Std.TreeSet F} {frontier : List F}
    {found : Resolution F} (h : s.Course asking (.close coverage rounds seen frontier found) σ legs outcome τ)
    (hdistinct : frontier.Pairwise fun f g => compare f g ≠ .eq) (hfresh : ∀ f ∈ frontier, f ∉ seen) :
    Follows frontier [coverage] legs ∧ ∀ leg ∈ legs, ∀ f ∈ leg.round, f ∉ seen := by
  induction rounds generalizing seen frontier found σ legs with
  | zero =>
    cases frontier with
    | nil =>
      cases h
      exact ⟨.nil _ _, fun _ hleg => absurd hleg List.not_mem_nil⟩
    | cons f others =>
      cases h
      exact ⟨.nil _ _, fun _ hleg => absurd hleg List.not_mem_nil⟩
  | succ rounds ih =>
    cases frontier with
    | nil =>
      cases h
      exact ⟨.nil _ _, fun _ hleg => absurd hleg List.not_mem_nil⟩
    | cons f others =>
      cases h with
      | stopped => exact ⟨.nil _ _, fun _ hleg => absurd hleg List.not_mem_nil⟩
      | @failed _ _ _ pending _ known e _ _ _ _ _ _ =>
        let last : Leg F := ⟨coverage, σ.cache, f :: others, known, pending, []⟩
        have hlast : Follows last.round [last.coverage] [last] :=
          .cons (List.cons_ne_nil f others) hdistinct (.nil [] _) (fun g hg => absurd hg (Listed.nil g))
            fun _ _ _ hlater => absurd hlater List.not_mem_nil
        exact ⟨hlast, List.forall_mem_cons.mpr ⟨hfresh, fun _ hleg => absurd hleg List.not_mem_nil⟩⟩
      | @round _ _ _ pending _ known learned legs _ _ _ _ _ _ _ _ hrest =>
        let seen' := (f :: others).foldl Std.TreeSet.insert seen
        have hnext (g : F) (hg : g ∈ Inquiry.nextRound seen' (known ++ learned)) := Inquiry.Wave.mem_nextRound.mp hg
        obtain ⟨hfollows, hunseen⟩ := ih hrest Std.TreeSet.distinct_toList fun g hg =>
          (hnext g (Std.TreeSet.mem_of_mem_toList hg)).2
        let leg : Leg F := ⟨coverage, σ.cache, f :: others, known, pending, learned⟩
        have hmore : Follows leg.round [leg.coverage] (leg :: legs) := by
          refine .cons (List.cons_ne_nil f others) hdistinct hfollows
            (fun g hg => (hnext g (listed_toList_iff.mp hg)).1) ?_
          intro g hg later hlater g' hg' heq
          exact hunseen later hlater g' hg' ((mem_foldl_insert _ _ _).mpr (.inr ⟨g, hg, heq⟩))
        refine ⟨hmore, List.forall_mem_cons.mpr ⟨hfresh, fun later hlater g hg hseen => ?_⟩⟩
        exact hunseen later hlater g hg ((mem_foldl_insert _ _ _).mpr (.inl hseen))

theorem Course.follows {rounds : Nat} {seeds : List F} {coverages : List Coverage} (hnodup : coverages.Nodup)
    {found : Resolution F} (h : s.Course asking (.closeAll rounds seeds coverages found) σ legs outcome τ) :
    Follows seeds coverages legs := by
  induction coverages generalizing found σ legs with
  | nil =>
    cases h
    exact .nil _ _
  | cons coverage rest ih =>
    obtain ⟨hnew, hrest⟩ := List.nodup_cons.mp hnodup
    have hpass {ρ legs} {outcome : Except ResolveError (Resolution F)}
        (hclose : s.Course asking (.close coverage rounds ∅ (gather seeds).toList found) σ legs outcome ρ) :
        Follows seeds [coverage] legs := by
      refine (hclose.follows_close Std.TreeSet.distinct_toList fun _ _ => Std.TreeSet.not_mem_emptyc).1.mono ?_
      exact fun f hf => mem_gather_iff.mp (listed_toList_iff.mp hf)
    rw [Inquiry.closeAll] at h
    rcases h.of_bind with ⟨e, hfirst⟩ | ⟨found', ρ, first, later, hfirst, hmore, rfl⟩
    · exact List.append_nil legs ▸ (hpass hfirst).append hnew (.nil seeds rest)
    · exact (hpass hfirst).append hnew (ih hrest hmore)

/-- Only functions that the cache was asked about are missed by it. -/
private theorem subperm_missed (h : ∀ leg ∈ legs, leg.Met s I) :
    (legs.flatMap Leg.missed).Subperm (legs.flatMap Leg.consulted) := by
  induction legs with
  | nil => exact List.nil_subperm
  | cons leg rest ih =>
    obtain ⟨hleg, hrest⟩ := List.forall_mem_cons.mp h
    have hsublist : leg.missed.Sublist ((leg.known.map Prod.fst ++ leg.pending).map (leg.coverage, ·)) :=
      (List.sublist_append_right _ _).map _
    have hone : leg.missed.Subperm leg.consulted := hsublist.subperm.trans (hleg.functions.map _).subperm
    rw [List.flatMap_cons, List.flatMap_cons]
    exact hone.append (ih hrest)

/-- Functions that differ in each direction still do when only some of them are left, in any order. -/
private theorem distinct_of_subperm {asked consulted : List (Coverage × F)} (hsub : asked.Subperm consulted)
    (h : consulted.Pairwise fun a b => a.1 = b.1 → compare a.2 b.2 ≠ .eq) :
    asked.Pairwise fun a b => a.1 = b.1 → compare a.2 b.2 ≠ .eq := by
  obtain ⟨others, hperm, hsublist⟩ := hsub
  refine hperm.pairwise (h.sublist hsublist) fun {a b} hne heq hcompare => ?_
  exact hne heq.symm (compare_symm hcompare)

/-- Whatever is in the cache, whatever the index answers and in whatever way it is asked, following calls ends, and
in each direction it takes no more rounds than there are functions. A function is in one round at most of each
direction, as a seed or because an earlier round named it. So the cache is looked into once at most for each
function and direction, and the index is asked once at most, and only where the cache had no answer. -/
theorem asked_once (hs : s.Populated I) {log : W → List (Coverage × F)} (hl : s.Logs log)
    {project : Std.TreeSet F} (hu : s.Confined I project) {seeds : List F} (hseeds : ∀ f ∈ seeds, f ∈ project)
    {direction : Direction} {step : Searching W F (Resolution F)} (hstep : s.Resolves (.closure seeds direction) step)
    (hw : I σ.world) (hc : σ.cache.Inside project) {result : Except ResolveError (Resolution F)}
    (h : step.after σ = (result, τ)) :
    result ≠ .error .unbounded ∧ ∃ asking outcome legs asked,
      (s.AtOnce asking ∧ step = s.answerBy asking (.closure seeds direction) ∧
        s.Course asking ((Question.closure seeds direction).inquiry (s.limit (.closure seeds direction) σ)) σ legs
          outcome τ) ∧
      (∀ coverage, (legs.filter fun leg => leg.coverage = coverage).length ≤ project.size) ∧
      Follows seeds direction.coverages legs ∧ (∀ leg ∈ legs, leg.Met s I) ∧
      τ.cache.consultations = σ.cache.consultations + (legs.flatMap Leg.consulted).length ∧
      log τ.world = log σ.world ++ asked ∧ asked.Subperm (legs.flatMap Leg.missed) ∧
      asked.Pairwise fun a b => a.1 = b.1 → compare a.2 b.2 ≠ .eq := by
  obtain ⟨asking, ha, rfl⟩ := hstep.exists_asking
  refine ⟨fun heq => ha.answerBy_ne_unbounded hs _ hw (heq ▸ h), ?_⟩
  obtain ⟨outcome, hpursue⟩ : ∃ outcome, (s.pursueBy asking
      ((Question.closure seeds direction).inquiry (s.limit (.closure seeds direction) σ))).after σ = (outcome, τ) := by
    cases result with
    | error e => exact ⟨_, answerBy_error_iff.mp h⟩
    | ok r =>
      obtain ⟨found, hfound, -⟩ := answerBy_ok_iff.mp h
      exact ⟨_, hfound⟩
  obtain ⟨legs, hcourse⟩ := exists_course hpursue
  have hfollows := Course.follows direction.nodup_coverages hcourse
  have hmet := hcourse.met ha hs.toKeeps hw
  have hquestion : (Question.closure seeds direction).Inside project := hseeds
  have hinside := hcourse.inside ha hu (hquestion.inquiry _) hw hc
  obtain ⟨asked, hlog, hsub⟩ := hcourse.logged ha hl hs.schedule
  exact ⟨asking, outcome, legs, asked, ⟨ha, rfl, hcourse⟩, hfollows.length_le_size hinside, hfollows, hmet,
    hcourse.consultations ha, hlog, hsub, distinct_of_subperm (hsub.trans (subperm_missed hmet)) hfollows.once⟩

/-- Two functions that call each other, one of which calls itself and is a seed twice, are asked about once in each
direction. -/
theorem mutual_calls_asked_once :
    let index : CallIndex SourceFunction := .ofCalls [⟨.named "even", .named "odd"⟩, ⟨.named "odd", .named "even"⟩,
      ⟨.named "odd", .named "odd"⟩]
    let s := (index.quiet (FileVersions.start none).now).noted
    let seeds : List SourceFunction := [.named "odd", .named "odd"]
    ∃ result τ, (s.resolve seeds .both).after ⟨((), []), .empty, 0⟩ = (result, τ) ∧
      result ≠ .error .unbounded ∧
      (τ.world.2.map fun question => (question.1, question.2.name)) =
        [(.callers, "odd"), (.callers, "even"), (.callees, "odd"), (.callees, "even")] ∧
      ∃ legs, Follows seeds Direction.both.coverages legs ∧
        (∀ coverage, (legs.filter fun leg => leg.coverage = coverage).length ≤ 2) ∧
        τ.cache.consultations = (legs.flatMap Leg.consulted).length := by
  intro index s seeds
  let functions : List SourceFunction := [.named "even", .named "odd"]
  have hcalm : s.Calm (fun _ => True) index := (index.calm_quiet (FileVersions.start none).now).noted
  have hnames : ∀ coverage f g, index.Names coverage f g → g ∈ Std.TreeSet.ofList functions := by
    intro coverage f g hn
    obtain ⟨g', hg', hgg'⟩ := CallIndex.exists_ends (CallIndex.names_ofCalls.mp hn)
    refine mem_ofList_iff.mpr ⟨g', ?_, hgg'⟩
    simp only [CallIndex.ends, List.map_cons, List.map_nil, List.cons_append, List.nil_append, List.mem_cons] at hg'
    simp only [functions, List.mem_cons]
    tauto
  have hseeds : ∀ f ∈ seeds, f ∈ Std.TreeSet.ofList functions := by
    intro f hf
    have hodd : f = .named "odd" := by simpa [seeds] using hf
    exact mem_ofList_iff.mpr (.of_mem (hodd ▸ List.mem_cons_of_mem _ List.mem_cons_self))
  have hempty : (Cache.empty : Cache SourceFunction).Inside (Std.TreeSet.ofList functions) := by
    intro k d hd
    rw [Cache.empty, Std.TreeMap.getElem?_emptyc] at hd
    cases hd
  have hlog : (((s.resolve seeds .both).after ⟨((), []), .empty, 0⟩).2.world.2.map
      fun question => (question.1, question.2.name)) =
        [(.callers, "odd"), (.callers, "even"), (.callees, "odd"), (.callees, "even")] := by decide +kernel
  rcases hrun : (s.resolve seeds .both).after ⟨((), []), .empty, 0⟩ with ⟨result, τ⟩
  rw [hrun] at hlog
  obtain ⟨hbounded, -, -, legs, -, -, hrounds, hfollows, -, hconsulted, -, -, -⟩ :=
    asked_once hcalm.populated (logs_noted _) (hcalm.faithful.confined hnames) hseeds .inTurn trivial hempty hrun
  exact ⟨result, τ, rfl, hbounded, hlog, legs, hfollows, hrounds, hconsulted.trans (Nat.zero_add _)⟩

end Surroundings
end CallChart
