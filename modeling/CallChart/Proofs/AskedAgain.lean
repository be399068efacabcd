import CallChart.Proofs.CacheRuns
import CallChart.Proofs.CommitMoment
import CallChart.Proofs.QuestionLog

/-! Asking a second time. After calls were followed, the cache has an answer about every function that was asked
about, also about those of the first direction, although the second one has gone over their calls: an index that
tells every call in both directions takes no call back that it has told before. So nothing is left to ask the
index. -/
namespace CallChart

variable {W F : Type} [Handle F]

namespace Cache

variable {c : Cache F} {coverage side : Coverage} {f g : F} {v : Versions} {answer : List F} {index : CallIndex F}

/-- No call of a covered function is taken back by a right answer, since an index that tells a call in one
direction tells it in the other. -/
theorem not_drops_of_covered (hm : index.Mirrored) (hagrees : c.Agrees index) (hsynced : c.Synced)
    (ha : index.IsAnswer coverage f answer) {t : Nat} (ht : c.token? side g = some t)
    (hne : ¬ (side = coverage ∧ compare f g = .eq)) {k : Call F} (hk : compare (side.near k) g = .eq) :
    ¬ c.Drops coverage f answer k := by
  rintro ⟨hnear, hfar, hunlisted⟩
  by_cases hside : side = coverage
  · subst hside
    exact hne ⟨rfl, compare_trans hnear hk⟩
  · have hopposite := Coverage.eq_opposite_of_ne hside
    have hends : side.near k = coverage.far k := by
      subst hopposite
      cases coverage <;> rfl
    rw [hends] at hk
    have hstored : coverage.call f (coverage.far k) ∈ c.dependencies := (hsynced coverage f _).mp hfar
    rw [← Coverage.opposite_call, ← hsynced, c.neighbours_congr _ hk, ← hopposite, hagrees side g t ht, hopposite,
      hm.opposite] at hstored
    exact hunlisted ((ha _).mpr (hstored.congr (compare_refl f) (compare_symm hk)))

/-- What a cache serves it goes on to serve when it learns right answers about other functions. -/
theorem Serves.learned (hm : index.Mirrored) (hagrees : c.Agrees index) (hsynced : c.Synced)
    (ha : index.IsAnswer coverage f answer) (h : c.Serves v side g) :
    (c.replaceNeighbours coverage f answer v).Serves v side g := by
  obtain ⟨htoken, hfresh⟩ := serves_iff.mp h
  refine serves_iff.mpr ⟨token?_replace_iff.mpr ?_, fun g' hg' => ?_⟩
  · by_cases hself : side = coverage ∧ compare f g = .eq
    · obtain ⟨rfl, hfg⟩ := hself
      exact .inl ⟨rfl, hfg, (side.token_congr hfg v).symm⟩
    · exact .inr ⟨hself, htoken, fun k hk => not_drops_of_covered hm hagrees hsynced ha htoken hself hk⟩
  · by_cases hadds : Adds coverage f answer (side.call g g')
    · obtain ⟨_, -, -, hd⟩ := getElem?_replace_of_adds (c := c) (v := v) hadds
      exact ⟨_, hd, by simp [Dependency.isFresh, Dependency.capture]⟩
    · obtain ⟨hkept, hold⟩ := (mem_neighbours_replace.mp hg').resolve_left hadds
      obtain ⟨d, hd, hdfresh⟩ := hfresh g' hold
      exact ⟨d, (getElem?_replace_of_not_adds hadds).mpr ⟨hkept, hd⟩, hdfresh⟩

/-- A cache in use whose covered sets are the index's answers. -/
structure Settled (index : CallIndex F) (c : Cache F) : Prop where
  agrees : c.Agrees index
  synced : c.Synced

theorem Settled.learned (hm : index.Mirrored) (h : c.Settled index) (ha : index.IsAnswer coverage f answer) :
    (c.replaceNeighbours coverage f answer v).Settled index :=
  ⟨h.agrees.learned hm ha, h.synced.learned coverage f answer v⟩

theorem Settled.trust (hm : index.Mirrored) (v : Versions) (coverage : Coverage) :
    Trust (Settled index) index (· = v) coverage where
  served h _ := (h.agrees coverage).served
  learned h _ := h.learned hm
  counted _ _ h := ⟨h.agrees, h.synced⟩

/-- Besides, the cache has an answer about a function. -/
structure Ready (index : CallIndex F) (v : Versions) (coverage : Coverage) (f : F) (c : Cache F) : Prop
    extends c.Settled index where
  serves : c.Serves v coverage f

theorem Ready.trust (hm : index.Mirrored) (v : Versions) (side : Coverage) (g : F) (coverage : Coverage) :
    Trust (Ready index v side g) index (· = v) coverage where
  served h _ := (h.agrees coverage).served
  learned h hv ha := by
    subst hv
    exact ⟨h.toSettled.learned hm ha, h.serves.learned hm h.agrees h.synced ha⟩
  counted _ _ h := ⟨⟨h.agrees, h.synced⟩, h.serves⟩

end Cache

namespace Surroundings

open ExceptT

variable {s : Surroundings W F} {I : W → Prop} {index : CallIndex F} {asking : Asking W F} {coverage : Coverage}
  {counted : Bool} {v : Versions} {σ τ : Search W F}

theorem shown_of_fixed (hs : s.Keeps I) (hv : ∀ w, I w → (s.versions.run w).1 = v) (n : Nat) {w : W} (hw : I w) :
    s.shown n w = v := by
  induction n generalizing w with
  | zero => exact hv w hw
  | succ n ih => exact ih (hs.versions hw)

/-- After a round that succeeds, the cache has an answer about each of its functions. -/
theorem AtOnce.round_ready (ha : s.AtOnce asking) (hs : s.Faithful I index) (hm : index.Mirrored)
    (hv : ∀ w, I w → (s.versions.run w).1 = v) {round : List F}
    (hdistinct : round.Pairwise fun f g => compare f g ≠ .eq) {answers : Answers F}
    (h : (s.answerRoundBy asking coverage counted round).after σ = (.ok answers, τ)) (hw : I σ.world)
    (hc : σ.cache.Settled index) {f : F} (hf : Listed round f) : τ.cache.Ready index v coverage f := by
  obtain ⟨known, pending, learned, ρ, ρ', hconsulted, hqueried, -, hτ⟩ := ha.round_ok hs.toKeeps h hw
  rw [← Listed.perm hconsulted.functions, Listed.append] at hf
  rcases hf with ⟨g, hg, hgf⟩ | ⟨g, hg, hgf⟩
  · -- the cache had the answer before, and learning others takes none away
    obtain ⟨answer, hanswer, rfl⟩ := List.mem_map.mp hg
    obtain ⟨w, hw', hserved⟩ := hconsulted.served answer hanswer
    have hserves : σ.cache.Serves v coverage answer.1 := ⟨answer.2, hv w hw' ▸ hserved⟩
    exact (ha.round_trusted hs (V := (· = v)) hv (Cache.Ready.trust hm v coverage f coverage) h hw
      ⟨hc, hserves.congr hgf⟩).2.1
  · -- the index was asked, and its answer was committed
    have hscheduled : g ∈ learned.map Prod.fst := hqueried.functions ▸ (hs.schedule pending).mem_iff.mpr hg
    obtain ⟨answer, hanswer, rfl⟩ := List.mem_map.mp hscheduled
    obtain ⟨n, hn⟩ := List.mem_iff_getElem?.mp hanswer
    have hlearned := distinct_learned (hconsulted.complete hs.schedule hqueried).1 hdistinct
    have hvouched : ((s.commit coverage learned).run ρ').2.cache.Vouched coverage answer.1 answer.2
        (s.shown n ρ'.world) := commit_vouched hlearned hn ρ'
    rw [shown_of_fixed hs.toKeeps hv n hqueried.world, ← hτ] at hvouched
    have hserves : τ.cache.Serves v coverage answer.1 :=
      Option.isSome_iff_exists.mp (hvouched.served_iff.mpr (Coverage.Unmoved.refl ..))
    exact ⟨(ha.round_trusted hs (V := (· = v)) hv (Cache.Settled.trust hm _ coverage) h hw hc).2.1, hserves.congr hgf⟩

/-- After calls were followed in one direction, the cache has an answer about every function that they lead to. -/
theorem AtOnce.close_ready (ha : s.AtOnce asking) (hs : s.Faithful I index) (hm : index.Mirrored)
    (hv : ∀ w, I w → (s.versions.run w).1 = v) {rounds : Nat} {seen : Std.TreeSet F} {frontier seeds : List F}
    {start found r : Resolution F}
    (h : (s.pursueBy asking (.close coverage rounds seen frontier found)).after σ = (.ok r, τ)) (hw : I σ.world)
    (hc : σ.cache.Settled index) (hwave : Inquiry.Wave index coverage seeds start seen frontier found)
    (hseen : ∀ f ∈ seen, σ.cache.Ready index v coverage f) {f : F} (hf : index.Reached coverage seeds f) :
    τ.cache.Ready index v coverage f := by
  induction rounds generalizing seen frontier found σ with
  | zero =>
    cases frontier with
    | nil =>
      cases h
      exact hseen f (hwave.mem_iff_reached.mpr hf)
    | cons g rest => cases h
  | succ rounds ih =>
    cases frontier with
    | nil =>
      cases h
      exact hseen f (hwave.mem_iff_reached.mpr hf)
    | cons g rest =>
      obtain ⟨answers, ρ, hround, hrest⟩ := after_bind_ok.mp h
      obtain ⟨hw', hc', hanswers, -⟩ :=
        ha.round_trusted hs (V := (· = v)) hv (Cache.Settled.trust hm _ coverage) hround hw hc
      refine ih hrest hw' hc' (hwave.next hanswers) fun g' hg' => ?_
      rcases (mem_foldl_insert _ _ _).mp hg' with hold | hnew
      · have hready := hseen g' hold
        exact (ha.round_trusted hs (V := (· = v)) hv (Cache.Ready.trust hm v coverage g' coverage) hround hw hready).2.1
      · exact ha.round_ready hs hm hv hwave.distinct hround hw hc hnew

theorem AtOnce.closeAll_ready (ha : s.AtOnce asking) (hs : s.Faithful I index) (hm : index.Mirrored)
    (hv : ∀ w, I w → (s.versions.run w).1 = v) {rounds : Nat} {seeds : List F} {coverages : List Coverage}
    {found r : Resolution F} (h : (s.pursueBy asking (.closeAll rounds seeds coverages found)).after σ = (.ok r, τ))
    (hw : I σ.world) (hc : σ.cache.Settled index) (hmem : coverage ∈ coverages) {f : F}
    (hf : index.Reached coverage seeds f) : τ.cache.Ready index v coverage f := by
  induction coverages generalizing found σ with
  | nil => exact absurd hmem List.not_mem_nil
  | cons first rest ih =>
    rw [Inquiry.closeAll, pursueBy_bind] at h
    obtain ⟨found', ρ, hpass, hmore⟩ := after_bind_ok.mp h
    obtain ⟨hw', hc', -⟩ :=
      ha.pursueBy_ok hs (V := (· = v)) hv (fun side _ => Cache.Settled.trust hm _ side) (.all _) hpass hw hc
    rcases List.mem_cons.mp hmem with rfl | hlater
    · have hready : ρ.cache.Ready index v coverage f :=
        ha.close_ready hs hm hv hpass hw hc (Inquiry.Wave.first index coverage seeds found)
          (fun g hg => absurd hg Std.TreeSet.not_mem_emptyc) hf
      exact (ha.pursueBy_ok hs (V := (· = v)) hv (fun side _ => Cache.Ready.trust hm v coverage f side) (.all _) hmore
        hw' hready).2.1
    · exact ih hmore hw' hc' hlater

/-! ### The second time -/

variable {log : W → List (Coverage × F)} {α : Type}

/-- A round about functions that the cache has answers for asks the index nothing and leaves the cache as it is. -/
theorem AtOnce.round_served (ha : s.AtOnce asking) (hs : s.Calm I index) (hl : s.Logs log)
    (hv : ∀ w, I w → (s.versions.run w).1 = v) (counted : Bool) {round : List F}
    (hround : ∀ f ∈ round, σ.cache.Serves v coverage f) (hw : I σ.world) :
    ∃ answers τ, (s.answerRoundBy asking coverage counted round).after σ = (.ok answers, τ) ∧
      log τ.world = log σ.world ∧ σ.cache.Recounted τ.cache := by
  have hmissed {f : F} (hf : f ∈ round)
      (hnone : ∃ w, I w ∧ σ.cache.freshNeighbours? coverage f (s.versions.run w).1 = none) : False := by
    obtain ⟨known, hknown⟩ := hround f hf
    obtain ⟨w, hw', hnone⟩ := hnone
    rw [hv w hw', hknown] at hnone
    cases hnone
  obtain ⟨answers, τ, h⟩ := ha.round_calm hs counted (fun f hf hnone => (hmissed hf hnone).elim) hw
  refine ⟨answers, τ, h, ?_⟩
  have hc := consulted hs.toKeeps coverage counted round (σ := s.checked σ) (hs.cancelled hw)
  cases answerRoundBy_ends h with
  | @learned known learned pending ρ ρ' _ hconsult hasked =>
    have hlog := hl.consult coverage counted round (s.checked σ)
    rw [hconsult] at hc hlog
    obtain rfl : pending = [] := List.eq_nil_iff_forall_not_mem.mpr fun f hf =>
      hmissed (hc.functions.mem_iff.mp (List.mem_append_right _ hf)) (hc.missed f hf)
    obtain ⟨asked, hasked', hsub⟩ := ha.logged hl hs.schedule hasked
    obtain rfl : asked = [] := List.subperm_nil.mp hsub
    have hqueried := ha.queried hs.toKeeps hasked hc.world
    have hnone : s.schedule [] = [] := (hs.schedule []).eq_nil
    obtain rfl : learned = [] := List.map_eq_nil_iff.mp (hqueried.functions.trans hnone)
    refine ⟨?_, hqueried.cache ▸ hc.cache⟩
    exact (hasked'.trans (List.append_nil _)).trans (hlog.trans (hl.cancelled σ.world))

/-- An inquiry about functions that the cache has answers for comes to its result without asking the index. -/
theorem AtOnce.pursueBy_served (ha : s.AtOnce asking) (hs : s.Calm I index) (hl : s.Logs log)
    (hv : ∀ w, I w → (s.versions.run w).1 = v) {c : Cache F} (hagrees : c.Agrees index) {q : Inquiry F α}
    (hends : q.Ends index fun coverage f => c.Serves v coverage f) (hc : c.Recounted σ.cache) (hw : I σ.world) :
    ∃ a τ, (s.pursueBy asking q).after σ = (.ok a, τ) ∧ log τ.world = log σ.world ∧ c.Recounted τ.cache := by
  induction q generalizing σ with
  | done a => exact ⟨a, σ, rfl, rfl, hc⟩
  | unbounded => exact hends.elim
  | ask coverage counted round next ih =>
    have hround : ∀ f ∈ round, σ.cache.Serves v coverage f := by
      intro f hf
      obtain ⟨known, hknown⟩ := hends.1 f hf
      exact ⟨known, (hc.freshNeighbours? coverage f v).trans hknown⟩
    obtain ⟨answers, ρ, hfirst, hlog, hsame⟩ := ha.round_served hs hl hv counted hround hw
    have hcounted : σ.cache.AgreesAt index coverage := hc.keeps (fun _ _ _ h => h) (hagrees coverage)
    obtain ⟨hw', -, hanswers, -⟩ := ha.round_trusted hs.faithful (V := fun _ => True) (fun _ _ => trivial)
      ⟨fun h _ => h.served, fun h _ ha => h.learned ha, fun _ _ h => h⟩ hfirst hw hcounted
    obtain ⟨a, τ, hrest, hlog', hsame'⟩ := ih answers (hends.2 answers hanswers) (hc.trans hsame) hw'
    exact ⟨a, τ, after_bind_ok.mpr ⟨answers, ρ, hfirst, hrest⟩, hlog'.trans hlog, hsame'⟩

/-- Once calls were followed successfully, following them again from the same seeds in the same direction asks the
index nothing, finds the same and leaves the cache as it is, if no file was edited and if the index tells every call
in both directions. The cache may have been in use before, as long as its covered sets are the index's answers. -/
theorem resolved_again (hs : s.Faithful I index) (hm : index.Mirrored) (hv : ∀ w, I w → (s.versions.run w).1 = v)
    {seeds : List F} {direction : Direction} {step : Searching W F (Resolution F)}
    (hstep : s.Resolves (.closure seeds direction) step) (before : Versions) (work : List (CacheOperation F))
    (hagrees : (Usage.run before work).cache.Agrees index) {w : W} (hw : I w) {n : Nat} {r : Resolution F}
    (h : step.after ⟨w, (Usage.run before work).cache, n⟩ = (.ok r, τ))
    {W' : Type} {s' : Surroundings W' F} {I' : W' → Prop} (hs' : s'.Calm I' index)
    (hv' : ∀ w, I' w → (s'.versions.run w).1 = v) {log : W' → List (Coverage × F)} (hl : s'.Logs log)
    {again : Searching W' F (Resolution F)} (hagain : s'.Resolves (.closure seeds direction) again) (w' : W')
    (hw' : I' w') :
    ∃ r' τ', again.after ⟨w', τ.cache, n⟩ = (.ok r', τ') ∧ log τ'.world = log w' ∧ r.Same r' ∧
      τ.cache.Recounted τ'.cache := by
  obtain ⟨asking, ha, rfl⟩ := hstep.exists_asking
  obtain ⟨asking', ha', rfl⟩ := hagain.exists_asking
  let question : Question F := .closure seeds direction
  have hc : (Usage.run before work).cache.Settled index := ⟨hagrees, Usage.synced_run before work⟩
  obtain ⟨-, hsettled, m, hanswered, hcount⟩ :=
    ha.answerBy_ok hs (V := (· = v)) hv (Cache.Settled.trust hm _) h hw hc
  obtain ⟨found, hpursue, -⟩ := answerBy_ok_iff.mp h
  have hserves : ∀ coverage f, question.Asks index coverage f → τ.cache.Serves v coverage f := by
    rintro coverage f ⟨hmem, hf⟩
    exact (ha.closeAll_ready hs hm hv hpursue hw hc hmem hf).serves
  let σ' : Search W' F := ⟨w', τ.cache, n⟩
  obtain ⟨found', τ', hpursue', hlog, hsame⟩ := ha'.pursueBy_served (σ := σ') hs' hl hv' hsettled.agrees
    ((hs'.inquiry_ends question σ').mono hserves) (.refl _) hw'
  have h' := answerBy_ok_iff.mpr ⟨found', hpursue', rfl⟩
  obtain ⟨-, -, m', hanswered', hcount'⟩ :=
    ha'.answerBy_ok hs'.faithful (V := (· = v)) hv' (Cache.Settled.trust hm _) h' hw' hsettled
  obtain ⟨hfunctions, hcalls, rfl⟩ := hanswered.unique hanswered'
  exact ⟨_, τ', h', hlog, ⟨hfunctions, hcalls, hcount.trans hcount'.symm⟩, hsame⟩

/-- Two functions that call each other, both ways. -/
theorem mutual_calls_again :
    let index : CallIndex SourceFunction := .ofCalls [⟨.named "even", .named "odd"⟩, ⟨.named "odd", .named "even"⟩]
    let s := index.quiet (FileVersions.start none).now
    let seeds : List SourceFunction := [.named "even"]
    ∃ r τ r' τ', (s.resolve seeds .both).after ⟨(), .empty, 0⟩ = (.ok r, τ) ∧
      (s.noted.resolve seeds .both).after ⟨((), []), τ.cache, 0⟩ = (.ok r', τ') ∧ τ'.world.2 = [] ∧ r.Same r' ∧
      τ.cache.Recounted τ'.cache := by
  intro index s seeds
  have hcalm := index.calm_quiet (FileVersions.start none).now
  have hm : index.Mirrored := (CallIndex.coherent_ofCalls _).isMirrored
  have hempty := Cache.agrees_empty index
  have hstep : s.Resolves (.closure seeds .both) (s.resolve seeds .both) := .inTurn
  obtain ⟨r, τ, hr⟩ := hstep.calm (σ := ⟨(), .empty, 0⟩) hcalm hm
    (fun coverage f _ => CallIndex.knows_ofCalls _ f coverage) trivial hempty
  obtain ⟨r', τ', hr', hlog, hsame, hcache⟩ := resolved_again hcalm.faithful hm (fun _ _ => rfl) hstep
    (FileVersions.start none).now [] hempty trivial hr hcalm.noted (fun _ _ => rfl) (logs_noted s) .inTurn ((), [])
    trivial
  exact ⟨r, τ, r', τ', hr, hr', hlog, hsame, hcache⟩

end Surroundings
end CallChart
