import CallChart.Proofs.CacheCurrent
import CallChart.Proofs.CacheSynced
import CallChart.Proofs.CallList
import CallChart.Proofs.Errands

/-! From which moment on the cache vouches for an answer. A round asks the index first and commits what it was
told afterwards, and versions are read at the commit. So an edit after the commit is noticed, and an edit
between the answer and the commit is not. -/
namespace CallChart

variable {W F : Type} [Handle F]

/-- Nothing that decides whether an answer about `f` is trusted has changed from some versions to others. -/
def Coverage.Unmoved (coverage : Coverage) (f : F) (answer : List F) (v w : Versions) : Prop :=
  coverage.token f w = coverage.token f v ∧ ∀ g ∈ answer,
    w.ofFile (Handle.sourceFile f) = v.ofFile (Handle.sourceFile f) ∧
      w.ofFile (Handle.sourceFile g) = v.ofFile (Handle.sourceFile g)

theorem Coverage.Unmoved.refl (coverage : Coverage) (f : F) (answer : List F) (v : Versions) :
    coverage.Unmoved f answer v v := ⟨rfl, fun _ _ => ⟨rfl, rfl⟩⟩

theorem Dependency.isFresh_capture {k : Call F} {coverage : Coverage} {f g : F} {v w : Versions}
    (hk : compare k (coverage.call f g) = .eq) : (capture k v).isFresh w = true ↔
      w.ofFile (Handle.sourceFile f) = v.ofFile (Handle.sourceFile f) ∧
        w.ofFile (Handle.sourceFile g) = v.ofFile (Handle.sourceFile g) := by
  obtain ⟨hnear, hfar⟩ := coverage.compare_iff.mp hk
  rw [Coverage.near_call] at hnear
  rw [Coverage.far_call] at hfar
  have hf (u : Versions) := u.ofFile_congr (Handle.sourceFile_congr hnear)
  have hg (u : Versions) := u.ofFile_congr (Handle.sourceFile_congr hfar)
  rw [isFresh_iff, ← hf, ← hf, ← hg, ← hg]
  cases coverage with
  | callees => exact Iff.rfl
  | callers => exact And.comm

namespace Cache

/-- An answer about a function is recorded as it was learned at certain versions. -/
structure Vouched (c : Cache F) (coverage : Coverage) (f : F) (answer : List F) (v : Versions) : Prop where
  token : c.token? coverage f = some (coverage.token f v)
  neighbours (g : F) : g ∈ c.neighbours coverage f ↔ Listed answer g
  stored {g : F} : Listed answer g → ∃ k, compare k (coverage.call f g) = .eq ∧
    c.dependencies[coverage.call f g]? = some (.capture k v)

variable {c : Cache F} {coverage : Coverage} {f f' : F} {answer answer' : List F} {v v' w : Versions}

theorem vouched_replace (c : Cache F) (coverage : Coverage) (f : F) (answer : List F) (v : Versions) :
    (c.replaceNeighbours coverage f answer v).Vouched coverage f answer v where
  token := token?_replace_self v
  neighbours g := mem_neighbours_replace_self (compare_refl f)
  stored {g} hg := by
    have hadds : Adds coverage f answer (coverage.call f g) := by
      rw [Adds, Coverage.near_call, Coverage.far_call]
      exact ⟨compare_refl f, hg⟩
    obtain ⟨g', -, hk, hd⟩ := getElem?_replace_of_adds (c := c) (v := v) hadds
    exact ⟨_, hk, hd⟩

/-- What is learned of another function in the same direction leaves an answer as it is recorded. -/
theorem Vouched.replace (h : c.Vouched coverage f answer v) (hne : compare f' f ≠ .eq) :
    (c.replaceNeighbours coverage f' answer' v').Vouched coverage f answer v where
  token := (token?_replace_of_ne hne).trans h.token
  neighbours g := (mem_neighbours_replace_of_ne hne).trans (h.neighbours g)
  stored {g} hg := by
    obtain ⟨k, hk, hd⟩ := h.stored hg
    refine ⟨k, hk, (getElem?_replace_of_ne ?_).trans hd⟩
    rwa [Coverage.near_call]

/-- A recorded answer is served while nothing has moved since. -/
theorem Vouched.served_iff (h : c.Vouched coverage f answer v) :
    (c.freshNeighbours? coverage f w).isSome = true ↔ coverage.Unmoved f answer v w := by
  rw [Option.isSome_iff_exists]
  constructor
  · rintro ⟨known, hknown⟩
    obtain ⟨rfl, htoken, hfresh⟩ := freshNeighbours?_eq_some.mp hknown
    refine ⟨Option.some.inj (htoken.symm.trans h.token), fun g hg => ?_⟩
    obtain ⟨g', hg', hgg'⟩ := listed_toList_iff.mpr ((h.neighbours g).mpr (.of_mem hg))
    obtain ⟨d, hd, hdfresh⟩ := hfresh g' hg'
    obtain ⟨k, hk, hcaptured⟩ := h.stored ((h.neighbours g').mp (Std.TreeSet.mem_of_mem_toList hg'))
    obtain rfl := Option.some.inj (hd.symm.trans hcaptured)
    have hcall : compare (coverage.call f g') (coverage.call f g) = .eq :=
      coverage.compare_call.mpr ⟨compare_refl f, hgg'⟩
    exact (Dependency.isFresh_capture (compare_trans hk hcall)).mp hdfresh
  · rintro ⟨htoken, hfiles⟩
    refine ⟨_, freshNeighbours?_eq_some.mpr ⟨rfl, h.token.trans (congrArg some htoken.symm), fun g hg => ?_⟩⟩
    have hlisted := (h.neighbours g).mp (Std.TreeSet.mem_of_mem_toList hg)
    obtain ⟨k, hk, hd⟩ := h.stored hlisted
    obtain ⟨g', hg', hgg'⟩ := hlisted
    have hcall : compare (coverage.call f g) (coverage.call f g') = .eq :=
      coverage.compare_call.mpr ⟨compare_refl f, compare_symm hgg'⟩
    exact ⟨_, hd, (Dependency.isFresh_capture (compare_trans hk hcall)).mpr (hfiles g' hg')⟩

/-- What is served of a recorded answer is the answer. -/
theorem Vouched.served (h : c.Vouched coverage f answer v) {known : List F}
    (hk : c.freshNeighbours? coverage f w = some known) (g : F) : Listed known g ↔ Listed answer g := by
  obtain ⟨rfl, -, -⟩ := freshNeighbours?_eq_some.mp hk
  rw [listed_toList_iff, h.neighbours]

theorem cachedNeighbours_fst (c : Cache F) (coverage : Coverage) (f : F) (v : Versions) :
    (c.cachedNeighbours coverage f v).1 = c.freshNeighbours? coverage f v := by
  unfold cachedNeighbours
  split
  · next hk => exact hk.symm
  · next hk => exact hk.symm

end Cache

namespace Surroundings

open ExceptT

variable {s : Surroundings W F} {coverage : Coverage} {counted : Bool}

/-- The versions that the world shows when it is looked at for the `n`-th time in a row. -/
def shown (s : Surroundings W F) : Nat → W → Versions
  | 0, w => (s.versions.run w).1
  | n + 1, w => s.shown n (s.versions.run w).2

/-- After a commit each answer is recorded as it was learned at the versions shown in its turn. -/
theorem commit_vouched {answers : Answers F} (hdistinct : answers.Pairwise fun a b => compare a.1 b.1 ≠ .eq)
    {n : Nat} {answer : F × List F} (ha : answers[n]? = some answer) (σ : Search W F) :
    ((s.commit coverage answers).run σ).2.cache.Vouched coverage answer.1 answer.2 (s.shown n σ.world) := by
  induction answers generalizing n σ with
  | nil => cases ha
  | cons first rest ih =>
    obtain ⟨hfirst, hrest⟩ := List.pairwise_cons.mp hdistinct
    let v := (s.versions.run σ.world).1
    let ρ : Search W F :=
      { σ with
        world := (s.versions.run σ.world).2
        cache := σ.cache.replaceNeighbours coverage first.1 first.2 v }
    cases n with
    | succ n => exact ih hrest ha ρ
    | zero =>
      obtain rfl := Option.some.inj ha
      have hlearn : ∀ (c : Cache F) w, ∀ other ∈ rest, c.Vouched coverage first.1 first.2 v → True →
          (c.replaceNeighbours coverage other.1 other.2 (s.versions.run w).1).Vouched coverage first.1 first.2 v :=
        fun c w other hother hc _ => hc.replace fun heq => hfirst other hother (compare_symm heq)
      exact (commit_keeps s.keeps_true hlearn (σ := ρ) trivial (Cache.vouched_replace _ _ _ _ _)).2

/-- A round that succeeds commits what the index told after all of it was told. From then on the cache serves an
answer exactly as long as nothing has moved since the commit: an edit after it is noticed, whichever it is, and
an edit before it is not, even if the index had answered already. -/
theorem served_iff_unmoved_since_commit {round : List F}
    (hround : round.Pairwise fun f g => compare f g ≠ .eq) (hschedule : ∀ fs, (s.schedule fs).Perm fs)
    {σ τ : Search W F} {answers : Answers F}
    (h : (s.answerRound coverage counted round).after σ = (.ok answers, τ)) :
    ∃ known pending learned ρ ρ',
      (s.consult coverage counted round).run (s.checked σ) = ((known, pending), ρ) ∧
      (s.queryAll coverage counted (s.schedule pending)).after ρ = (.ok learned, ρ') ∧
      answers = known ++ learned ∧
      ∀ (n : Nat) (answer : F × List F), learned[n]? = some answer → ∀ w : Versions,
        ((τ.cache.cachedNeighbours coverage answer.1 w).1.isSome = true ↔
          coverage.Unmoved answer.1 answer.2 (s.shown n ρ'.world) w) ∧
        ∀ served, (τ.cache.cachedNeighbours coverage answer.1 w).1 = some served →
          ∀ g, Listed served g ↔ Listed answer.2 g := by
  have hsymm : ∀ {f g : F}, compare f g ≠ .eq → compare g f ≠ .eq := fun hne heq => hne (compare_symm heq)
  obtain ⟨known, pending, learned, ρ, ρ', hconsult, hquery, rfl, rfl⟩ := answerRound_steps h
  refine ⟨known, pending, learned, ρ, ρ', hconsult, hquery, rfl, fun n answer hanswer w => ?_⟩
  have hconsulted := consulted s.keeps_true coverage counted round (σ := s.checked σ) trivial
  rw [hconsult] at hconsulted
  have hpending : pending.Pairwise fun f g => compare f g ≠ .eq :=
    (List.pairwise_append.mp ((hconsulted.functions.pairwise_iff hsymm).mpr hround)).2.1
  have hlearned : (learned.map Prod.fst).Pairwise fun f g => compare f g ≠ .eq := by
    rw [(queryAll_ok s.keeps_true hquery trivial).functions]
    exact ((hschedule pending).pairwise_iff hsymm).mpr hpending
  have hvouched : ((s.commit coverage learned).run ρ').2.cache.Vouched coverage answer.1 answer.2 (s.shown n ρ'.world) :=
    commit_vouched (List.pairwise_map.mp hlearned) hanswer ρ'
  rw [Cache.cachedNeighbours_fst]
  exact ⟨hvouched.served_iff, fun served hserved => hvouched.served hserved⟩

/-- An index whose only call stands in the body of `main`, until that file is edited. This happens whenever a
question was answered. -/
def retracting : Surroundings FileVersions SourceFunction where
  cancelled := pure false
  versions := fun files => (files.now, files)
  ask coverage f := fun files =>
    let calls := if files.version ⟨"main"⟩ = 0 then [⟨.named "main", .named "run"⟩] else []
    ((CallIndex.ofCalls calls).neighbours coverage f, files.bump ⟨"main"⟩)
  progress _ := pure ()
  schedule := id
  population := 2

theorem answerRound_retracting :
    ((retracting.answerRound .callees true [.named "main"]).after ⟨.start none, .empty, 0⟩).1 =
      .ok [(.named "main", [.named "run"])] := rfl

/-- In a round about one function the file of the caller is edited between the answer and the commit. The
index does not name the call any more, neither to the caller nor to the callee, and the cache still serves
it to both. -/
theorem edited_answer_served :
    let main := SourceFunction.named "main"
    let run := SourceFunction.named "run"
    let files := FileVersions.start none
    let called := (retracting.answerRound .callees true [main]).after ⟨files, .empty, 0⟩
    let calling := (retracting.answerRound .callers true [run]).after ⟨files, .empty, 0⟩
    (called.1 = .ok [(main, [run])] ∧ called.2.world.version main.file = files.version main.file + 1 ∧
      (called.2.cache.cachedNeighbours .callees main called.2.world.now).1 = some [run] ∧
      ((retracting.ask .callees main).run called.2.world).1 = .ok ∅) ∧
    calling.1 = .ok [(run, [main])] ∧ calling.2.world.generation = files.generation + 1 ∧
      (calling.2.cache.cachedNeighbours .callers run calling.2.world.now).1 = some [main] ∧
      ((retracting.ask .callers run).run calling.2.world).1 = .ok ∅ :=
  ⟨⟨answerRound_retracting, rfl, rfl, rfl⟩, rfl, rfl, rfl, rfl⟩

/-- The answer that was overtaken by an edit is served until the next edit. -/
theorem edited_answer_served_until_next_edit :
    let main := SourceFunction.named "main"
    let out := (retracting.answerRound .callees true [main]).after ⟨.start none, .empty, 0⟩
    (out.2.cache.cachedNeighbours .callees main out.2.world.now).1.isSome = true ∧
      (out.2.cache.cachedNeighbours .callees main (out.2.world.bump main.file).now).1.isSome = false := by
  intro main out
  obtain ⟨known, pending, learned, ρ, ρ', hconsult, hquery, hanswers, hserved⟩ :=
    served_iff_unmoved_since_commit (s := retracting) (List.pairwise_singleton _ main) (fun _ => .refl _)
      (Prod.ext answerRound_retracting rfl)
  cases hconsult
  cases hquery
  obtain ⟨hiff, -⟩ := hserved 0 _ rfl out.2.world.now
  obtain ⟨hiff', -⟩ := hserved 0 _ rfl (out.2.world.bump main.file).now
  refine ⟨hiff.mpr (.refl _ _ _ _), Bool.eq_false_iff.mpr fun hsome => ?_⟩
  exact absurd (hiff'.mp hsome).1 (by decide +kernel)

end Surroundings
end CallChart
