import CallChart.Proofs.CacheSynced
import CallChart.Proofs.Rounds

/-! Caches that hold the same, and what they learn. Answers about different functions in one direction tell
different calls and take back different calls, so the answers of a round can be learned in any order. -/
namespace CallChart

variable {F : Type} [Handle F]

/-- One call, discovered at the same versions. -/
structure Dependency.Same (d e : Dependency F) : Prop where
  caller : compare d.caller e.caller = .eq
  callee : compare d.callee e.callee = .eq
  callerVersion : d.callerVersion = e.callerVersion
  calleeVersion : d.calleeVersion = e.calleeVersion

namespace Dependency

variable {d e : Dependency F}

theorem Same.refl (d : Dependency F) : d.Same d := ⟨compare_refl _, compare_refl _, rfl, rfl⟩

theorem Same.symm (h : d.Same e) : e.Same d :=
  ⟨compare_symm h.caller, compare_symm h.callee, h.callerVersion.symm, h.calleeVersion.symm⟩

theorem Same.trans {b : Dependency F} (h : b.Same d) (h' : d.Same e) : b.Same e :=
  ⟨compare_trans h.caller h'.caller, compare_trans h.callee h'.callee, h.callerVersion.trans h'.callerVersion,
    h.calleeVersion.trans h'.calleeVersion⟩

theorem same_capture {j k : Call F} (h : compare j k = .eq) (v : Versions) : (capture j v).Same (capture k v) := by
  obtain ⟨hcaller, hcallee⟩ := Coverage.callees.compare_iff.mp h
  exact ⟨hcaller, hcallee, v.ofFile_congr (Handle.sourceFile_congr hcaller),
    v.ofFile_congr (Handle.sourceFile_congr hcallee)⟩

theorem Same.isFresh (h : d.Same e) (v : Versions) : d.isFresh v = e.isFresh v := by
  rw [Dependency.isFresh, Dependency.isFresh, v.ofFile_congr (Handle.sourceFile_congr h.caller),
    v.ofFile_congr (Handle.sourceFile_congr h.callee), h.callerVersion, h.calleeVersion]

/-- What two caches store for a call: nothing, or the same. -/
abbrev Alike (x y : Option (Dependency F)) : Prop := Option.Rel Same x y

namespace Alike

variable {x y z : Option (Dependency F)}

theorem refl (x : Option (Dependency F)) : Alike x x := by
  cases x with
  | none => exact .none
  | some d => exact .some (.refl d)

theorem symm (h : Alike x y) : Alike y x := by
  cases h with
  | none => exact .none
  | some h => exact .some h.symm

theorem trans (h : Alike x y) (h' : Alike y z) : Alike x z := by
  cases h with
  | none => exact h'
  | some h =>
    cases h' with
    | some h' => exact .some (h.trans h')

end Alike

end Dependency

namespace Cache

/-- The neighbours of a function, if any were ever recorded. -/
def row? (c : Cache F) (coverage : Coverage) (f : F) : Option (Std.TreeSet F) :=
  match coverage with
  | .callees => c.calleesOf[f]?
  | .callers => c.callersOf[f]?

/-- The same calls are stored, with the same neighbours and tokens. Only what was counted may differ. -/
structure Same (c d : Cache F) : Prop where
  stored (k : Call F) : Dependency.Alike c.dependencies[k]? d.dependencies[k]?
  rows (coverage : Coverage) (f : F) : (c.row? coverage f).isSome = (d.row? coverage f).isSome
  neighbours (coverage : Coverage) (f g : F) : g ∈ c.neighbours coverage f ↔ g ∈ d.neighbours coverage f
  tokens (coverage : Coverage) (f : F) : c.token? coverage f = d.token? coverage f

variable {b c d : Cache F} {coverage side : Coverage} {f f' g : F} {answer answer' : List F} {v : Versions}

theorem Same.refl (c : Cache F) : c.Same c :=
  ⟨fun _ => .refl _, fun _ _ => rfl, fun _ _ _ => Iff.rfl, fun _ _ => rfl⟩

theorem Same.symm (h : c.Same d) : d.Same c :=
  ⟨fun k => (h.stored k).symm, fun coverage f => (h.rows coverage f).symm,
    fun coverage f g => (h.neighbours coverage f g).symm, fun coverage f => (h.tokens coverage f).symm⟩

theorem Same.trans (h : b.Same c) (h' : c.Same d) : b.Same d :=
  ⟨fun k => (h.stored k).trans (h'.stored k), fun coverage f => (h.rows coverage f).trans (h'.rows coverage f),
    fun coverage f g => (h.neighbours coverage f g).trans (h'.neighbours coverage f g),
    fun coverage f => (h.tokens coverage f).trans (h'.tokens coverage f)⟩

theorem Recounted.same (h : c.Recounted d) : c.Same d := by
  obtain ⟨_, _, rfl⟩ := h
  exact ⟨fun _ => .refl _, fun _ _ => rfl, fun _ _ _ => Iff.rfl, fun _ _ => rfl⟩

/-- Caches that hold the same serve the same. -/
theorem Same.freshNeighbours? (h : c.Same d) (hf : compare f f' = .eq) {known : List F}
    (hk : c.freshNeighbours? coverage f v = some known) :
    ∃ known', d.freshNeighbours? coverage f' v = some known' ∧ ∀ g, Listed known g ↔ Listed known' g := by
  rw [c.freshNeighbours?_congr coverage hf] at hk
  obtain ⟨htoken, hfresh⟩ := serves_iff.mp ⟨known, hk⟩
  have hserves : d.Serves v coverage f' := by
    refine serves_iff.mpr ⟨(h.tokens coverage f').symm.trans htoken, fun g hg => ?_⟩
    obtain ⟨e, he, hefresh⟩ := hfresh g ((h.neighbours coverage f' g).mpr hg)
    have hstored := h.stored (coverage.call f' g)
    rw [he] at hstored
    cases hd : d.dependencies[coverage.call f' g]? with
    | none =>
      rw [hd] at hstored
      cases hstored
    | some e' =>
      rw [hd] at hstored
      cases hstored with
      | some hsame => exact ⟨e', rfl, (hsame.isFresh v).symm.trans hefresh⟩
  obtain ⟨known', hk'⟩ := hserves
  refine ⟨known', hk', fun g => ?_⟩
  obtain ⟨rfl, -, -⟩ := freshNeighbours?_eq_some.mp hk
  obtain ⟨rfl, -, -⟩ := freshNeighbours?_eq_some.mp hk'
  rw [listed_toList_iff, listed_toList_iff, h.neighbours]

/-! ### Which rows there are -/

private theorem isSome_insert_row (sets : Std.TreeMap F (Std.TreeSet F)) (a f : F) (known : Std.TreeSet F) :
    ((sets.insert a known)[f]?).isSome = true ↔ compare a f = .eq ∨ (sets[f]?).isSome = true := by
  rw [Std.TreeMap.getElem?_insert]
  split
  · next h => simp [h]
  · next h => simp [h]

private theorem isSome_dropNeighbour (sets : Std.TreeMap F (Std.TreeSet F)) (a b f : F) :
    ((dropNeighbour sets a b)[f]?).isSome = true ↔ (sets[f]?).isSome = true := by
  unfold dropNeighbour
  cases hs : sets[a]? with
  | none => rfl
  | some known =>
    rw [isSome_insert_row, or_iff_right_iff_imp]
    intro hf
    rw [← Std.TreeMap.getElem?_congr hf, hs]
    rfl

theorem isSome_row?_record (c : Cache F) (call : Call F) (v : Versions) (coverage : Coverage) (f : F) :
    ((c.record call v).row? coverage f).isSome = true ↔
      compare (coverage.near call) f = .eq ∨ (c.row? coverage f).isSome = true := by
  cases coverage <;> exact isSome_insert_row _ _ _ _

theorem isSome_row?_remove (c : Cache F) (call : Call F) (coverage : Coverage) (f : F) :
    ((c.remove call).row? coverage f).isSome = true ↔ (c.row? coverage f).isSome = true := by
  cases coverage <;> exact isSome_dropNeighbour _ _ _ _

theorem row?_markCovered (c : Cache F) (marked coverage : Coverage) (f g : F) (v : Versions) :
    (c.markCovered marked f v).row? coverage g = c.row? coverage g := by
  cases marked <;> cases coverage <;> rfl

theorem isSome_row?_foldl_record (calls : List (Call F)) (c : Cache F) (v : Versions) (coverage : Coverage) (f : F) :
    ((calls.foldl (fun c call => c.record call v) c).row? coverage f).isSome = true ↔
      (∃ call ∈ calls, compare (coverage.near call) f = .eq) ∨ (c.row? coverage f).isSome = true := by
  induction calls generalizing c with
  | nil => simp
  | cons call rest ih =>
    rw [List.foldl_cons, ih, isSome_row?_record, or_left_comm, ← or_assoc]
    simp only [List.mem_cons, exists_eq_or_imp]

theorem isSome_row?_foldl_remove (calls : List (Call F)) (c : Cache F) (coverage : Coverage) (f : F) :
    ((calls.foldl remove c).row? coverage f).isSome = true ↔ (c.row? coverage f).isSome = true := by
  induction calls generalizing c with
  | nil => rfl
  | cons call rest ih => rw [List.foldl_cons, ih, isSome_row?_remove]

/-- Learning an answer makes rows for the ends of the calls that it tells, and takes none away. -/
theorem isSome_row?_replace : ((c.replaceNeighbours coverage f answer v).row? side g).isSome = true ↔
    (∃ k, Adds coverage f answer k ∧ compare (side.near k) g = .eq) ∨ (c.row? side g).isSome = true := by
  rw [replaceNeighbours, row?_markCovered, isSome_row?_foldl_record, isSome_row?_foldl_remove]
  refine or_congr_left ⟨?_, ?_⟩
  · rintro ⟨call, hcall, hg⟩
    exact ⟨call, coverage.listed_map_call.mp (.of_mem hcall), hg⟩
  · rintro ⟨k, hk, hg⟩
    obtain ⟨call, hcall, hcallk⟩ := coverage.listed_map_call.mpr hk
    exact ⟨call, hcall, compare_trans (side.compare_iff.mp hcallk).1 hg⟩

/-! ### The same answers -/

theorem adds_congr (hf : compare f f' = .eq) (ha : ∀ g, Listed answer g ↔ Listed answer' g) {k : Call F} :
    Adds coverage f answer k ↔ Adds coverage f' answer' k :=
  and_congr ⟨compare_trans (compare_symm hf), compare_trans hf⟩ (ha _)

theorem drops_congr (hf : compare f f' = .eq) (ha : ∀ g, Listed answer g ↔ Listed answer' g)
    (hn : ∀ g, g ∈ c.neighbours coverage f ↔ g ∈ d.neighbours coverage f) {k : Call F} :
    c.Drops coverage f answer k ↔ d.Drops coverage f' answer' k := by
  rw [Drops, Drops, hn, d.neighbours_congr coverage hf, ha]
  exact and_congr_left fun _ => ⟨compare_trans (compare_symm hf), compare_trans hf⟩

/-- What is stored for a call after an answer was learned depends on what was stored for it before, and on which
neighbours were recorded for the function that the answer is about. -/
theorem alike_replace (hf : compare f f' = .eq) (ha : ∀ g, Listed answer g ↔ Listed answer' g)
    (hn : ∀ g, g ∈ c.neighbours coverage f ↔ g ∈ d.neighbours coverage f) {k : Call F}
    (hk : Dependency.Alike c.dependencies[k]? d.dependencies[k]?) :
    Dependency.Alike (c.replaceNeighbours coverage f answer v).dependencies[k]?
      (d.replaceNeighbours coverage f' answer' v).dependencies[k]? := by
  by_cases hadds : Adds coverage f answer k
  · obtain ⟨g, -, hg, hstored⟩ := getElem?_replace_of_adds (c := c) (v := v) hadds
    obtain ⟨g', -, hg', hstored'⟩ := getElem?_replace_of_adds (c := d) (v := v) ((adds_congr hf ha).mp hadds)
    rw [hstored, hstored']
    exact .some (Dependency.same_capture (compare_trans hg (compare_symm hg')) v)
  · have hadds' : ¬ Adds coverage f' answer' k := fun h => hadds ((adds_congr hf ha).mpr h)
    have hdrops := drops_congr (d := d) hf ha hn (k := k)
    by_cases hdrop : c.Drops coverage f answer k
    · have hnone : (c.replaceNeighbours coverage f answer v).dependencies[k]? = none :=
        Option.eq_none_iff_forall_ne_some.mpr fun e he => ((getElem?_replace_of_not_adds hadds).mp he).1 hdrop
      have hnone' : (d.replaceNeighbours coverage f' answer' v).dependencies[k]? = none :=
        Option.eq_none_iff_forall_ne_some.mpr fun e he =>
          ((getElem?_replace_of_not_adds hadds').mp he).1 (hdrops.mp hdrop)
      rw [hnone, hnone']
      exact .none
    · have hkept : (c.replaceNeighbours coverage f answer v).dependencies[k]? = c.dependencies[k]? :=
        Option.ext fun e => (getElem?_replace_of_not_adds hadds).trans (and_iff_right hdrop)
      have hkept' : (d.replaceNeighbours coverage f' answer' v).dependencies[k]? = d.dependencies[k]? :=
        Option.ext fun e => (getElem?_replace_of_not_adds hadds').trans
          (and_iff_right fun h => hdrop (hdrops.mpr h))
      rw [hkept, hkept']
      exact hk

theorem token?_replace_congr (hf : compare f f' = .eq) (ha : ∀ g, Listed answer g ↔ Listed answer' g)
    (hn : ∀ g, g ∈ c.neighbours coverage f ↔ g ∈ d.neighbours coverage f)
    (hg : c.token? side g = d.token? side g) :
    (c.replaceNeighbours coverage f answer v).token? side g =
      (d.replaceNeighbours coverage f' answer' v).token? side g := by
  have hself : compare f g = .eq ↔ compare f' g = .eq := ⟨compare_trans (compare_symm hf), compare_trans hf⟩
  refine Option.ext fun t => ?_
  rw [token?_replace_iff, token?_replace_iff, hg, coverage.token_congr hf]
  simp only [drops_congr hf ha hn, hself]

/-- Caches that hold the same learn the same. -/
theorem Same.replace (h : c.Same d) (coverage : Coverage) (hf : compare f f' = .eq)
    (ha : ∀ g, Listed answer g ↔ Listed answer' g) (v : Versions) :
    (c.replaceNeighbours coverage f answer v).Same (d.replaceNeighbours coverage f' answer' v) where
  stored k := alike_replace hf ha (h.neighbours coverage f) (h.stored k)
  rows side g := by
    rw [Bool.eq_iff_iff, isSome_row?_replace, isSome_row?_replace, h.rows]
    simp only [adds_congr hf ha]
  neighbours side g g' := by
    rw [mem_neighbours_replace, mem_neighbours_replace, adds_congr hf ha,
      drops_congr hf ha (h.neighbours coverage f), h.neighbours]
  tokens side g := token?_replace_congr hf ha (h.neighbours coverage f) (h.tokens side g)

/-! ### Answers about different functions -/

/-- What an answer takes back does not depend on answers about other functions. -/
theorem drops_replace_of_ne (hne : compare f f' ≠ .eq) {k : Call F} :
    (c.replaceNeighbours coverage f answer v).Drops coverage f' answer' k ↔ c.Drops coverage f' answer' k :=
  drops_congr (compare_refl f') (fun _ => Iff.rfl) fun _ => mem_neighbours_replace_of_ne hne

private theorem apart (hne : compare f g ≠ .eq) {h : F} (hf : compare f h = .eq) : compare g h ≠ .eq :=
  fun hg => hne (compare_trans hf (compare_symm hg))

/-- At most one of two answers about different functions says what is stored for a call. -/
theorem alike_replace_comm (hne : compare f g ≠ .eq) (k : Call F) :
    Dependency.Alike
      ((c.replaceNeighbours coverage f answer v).replaceNeighbours coverage g answer' v).dependencies[k]?
      ((c.replaceNeighbours coverage g answer' v).replaceNeighbours coverage f answer v).dependencies[k]? := by
  have hne' : compare g f ≠ .eq := fun h => hne (compare_symm h)
  by_cases hf : compare f (coverage.near k) = .eq
  · have hg := apart hne hf
    rw [getElem?_replace_of_ne hg]
    refine alike_replace (compare_refl f) (fun _ => Iff.rfl) (fun _ => (mem_neighbours_replace_of_ne hne').symm) ?_
    rw [getElem?_replace_of_ne hg]
    exact .refl _
  · rw [getElem?_replace_of_ne (f := f) hf]
    refine alike_replace (compare_refl g) (fun _ => Iff.rfl) (fun _ => mem_neighbours_replace_of_ne hne) ?_
    rw [getElem?_replace_of_ne hf]
    exact .refl _

/-- An answer marks its own function as covered, and what it unmarks is marked in the other direction. -/
theorem token?_replace_comm (hne : compare f g ≠ .eq) (h : F) :
    ((c.replaceNeighbours coverage f answer v).replaceNeighbours coverage g answer' v).token? side h =
      ((c.replaceNeighbours coverage g answer' v).replaceNeighbours coverage f answer v).token? side h := by
  have hne' : compare g f ≠ .eq := fun h => hne (compare_symm h)
  by_cases hside : side = coverage
  · subst hside
    by_cases hf : compare f h = .eq
    · have hg := apart hne hf
      rw [token?_replace_of_ne hg]
      refine token?_replace_congr (compare_refl f) (fun _ => Iff.rfl)
        (fun _ => (mem_neighbours_replace_of_ne hne').symm) ?_
      exact (token?_replace_of_ne hg).symm
    · rw [token?_replace_of_ne (f := f) hf]
      refine token?_replace_congr (compare_refl g) (fun _ => Iff.rfl) (fun _ => mem_neighbours_replace_of_ne hne) ?_
      exact token?_replace_of_ne hf
  · refine Option.ext fun t => ?_
    simp only [token?_replace_iff, drops_replace_of_ne hne, drops_replace_of_ne hne', hside, false_and, false_or,
      not_false_eq_true, true_and]
    exact and_right_comm

/-- Two answers about different functions can be learned in either order. -/
theorem replace_comm (c : Cache F) (coverage : Coverage) (hne : compare f g ≠ .eq) (answer answer' : List F)
    (v : Versions) :
    ((c.replaceNeighbours coverage f answer v).replaceNeighbours coverage g answer' v).Same
      ((c.replaceNeighbours coverage g answer' v).replaceNeighbours coverage f answer v) where
  stored k := alike_replace_comm hne k
  rows side h := by
    rw [Bool.eq_iff_iff]
    simp only [isSome_row?_replace]
    exact or_left_comm
  neighbours side h h' := by
    have hne' : compare g f ≠ .eq := fun h => hne (compare_symm h)
    simp only [mem_neighbours_replace, drops_replace_of_ne hne, drops_replace_of_ne hne']
    -- no call that one answer tells is taken back by the other
    have hfirst : Adds coverage f answer (side.call h h') → ¬ c.Drops coverage g answer' (side.call h h') :=
      fun hadds hdrops => apart hne hadds.1 hdrops.1
    have hsecond : Adds coverage g answer' (side.call h h') → ¬ c.Drops coverage f answer (side.call h h') :=
      fun hadds hdrops => apart hne hdrops.1 hadds.1
    grind
  tokens _ h := token?_replace_comm hne h

end Cache

/-! ### The answers of a round -/

/-- Two answers about one function that list the same neighbours. -/
structure SameAnswer (a b : F × List F) : Prop where
  function : compare a.1 b.1 = .eq
  neighbours (g : F) : Listed a.2 g ↔ Listed b.2 g

theorem SameAnswer.symm {a b : F × List F} (h : SameAnswer a b) : SameAnswer b a :=
  ⟨compare_symm h.function, fun g => (h.neighbours g).symm⟩

/-- The same answers, in any order. -/
structure Answers.Same (answers others : Answers F) : Prop where
  forth : ∀ a ∈ answers, ∃ b ∈ others, SameAnswer a b
  back : ∀ b ∈ others, ∃ a ∈ answers, SameAnswer a b

/-- Once two answers about one function are set aside, the others are still the same. -/
theorem Answers.Same.tail {a b : F × List F} {answers others : Answers F} (h : Same (a :: answers) (b :: others))
    (hab : SameAnswer a b) (ha : ∀ other ∈ answers, compare a.1 other.1 ≠ .eq)
    (hb : ∀ other ∈ others, compare b.1 other.1 ≠ .eq) : answers.Same others := by
  refine ⟨fun other hother => ?_, fun other hother => ?_⟩
  · obtain ⟨same, hsame, hlike⟩ := h.forth other (List.mem_cons_of_mem a hother)
    rcases List.mem_cons.mp hsame with rfl | hmem
    · exact absurd (compare_trans hab.function (compare_symm hlike.function)) (ha other hother)
    · exact ⟨same, hmem, hlike⟩
  · obtain ⟨same, hsame, hlike⟩ := h.back other (List.mem_cons_of_mem b hother)
    rcases List.mem_cons.mp hsame with rfl | hmem
    · exact absurd (compare_trans (compare_symm hab.function) hlike.function) (hb other hother)
    · exact ⟨same, hmem, hlike⟩

namespace Cache

variable {c d : Cache F} {coverage : Coverage} {v : Versions} {answers others : Answers F}

/-- Learns answers one after the other. -/
def learnAll (c : Cache F) (coverage : Coverage) (answers : Answers F) (v : Versions) : Cache F :=
  answers.foldl (fun c answer => c.replaceNeighbours coverage answer.1 answer.2 v) c

theorem Same.learnAll (h : c.Same d) (coverage : Coverage) (answers : Answers F) (v : Versions) :
    (c.learnAll coverage answers v).Same (d.learnAll coverage answers v) := by
  induction answers generalizing c d with
  | nil => exact h
  | cons answer rest ih => exact ih (h.replace coverage (compare_refl answer.1) (fun _ => Iff.rfl) v)

/-- Answers about different functions can be learned in any order. -/
theorem learnAll_perm (hperm : answers.Perm others) (hdistinct : answers.Pairwise fun a b => compare a.1 b.1 ≠ .eq) :
    (c.learnAll coverage answers v).Same (c.learnAll coverage others v) := by
  induction hperm generalizing c with
  | nil => exact .refl c
  | cons answer _ ih => exact ih (List.pairwise_cons.mp hdistinct).2
  | swap answer other rest =>
    have hne : compare other.1 answer.1 ≠ .eq := (List.pairwise_cons.mp hdistinct).1 answer List.mem_cons_self
    exact (replace_comm c coverage hne other.2 answer.2 v).learnAll coverage rest v
  | trans hfirst _ ih ih' =>
    exact (ih hdistinct).trans (ih' (hdistinct.perm hfirst fun hne heq => hne (compare_symm heq)))

/-- Caches that hold the same learn the same from the same answers, in whatever order these come. -/
theorem Same.learn (h : c.Same d) (hsame : answers.Same others)
    (hanswers : answers.Pairwise fun a b => compare a.1 b.1 ≠ .eq)
    (hothers : others.Pairwise fun a b => compare a.1 b.1 ≠ .eq) :
    (c.learnAll coverage answers v).Same (d.learnAll coverage others v) := by
  induction answers generalizing c d others with
  | nil =>
    cases others with
    | nil => exact h
    | cons b rest =>
      obtain ⟨a, ha, -⟩ := hsame.back b List.mem_cons_self
      exact absurd ha List.not_mem_nil
  | cons a rest ih =>
    obtain ⟨b, hb, hab⟩ := hsame.forth a List.mem_cons_self
    obtain ⟨before, behind, rfl⟩ := List.append_of_mem hb
    have hfirst : (before ++ b :: behind).Perm (b :: (before ++ behind)) := List.perm_middle
    have hmoved := hothers.perm hfirst fun hne heq => hne (compare_symm heq)
    obtain ⟨ha, hrest⟩ := List.pairwise_cons.mp hanswers
    obtain ⟨hb', hrest'⟩ := List.pairwise_cons.mp hmoved
    have hsame' : Answers.Same (a :: rest) (b :: (before ++ behind)) := by
      refine ⟨fun x hx => ?_, fun y hy => hsame.back y (hfirst.mem_iff.mpr hy)⟩
      obtain ⟨y, hy, hxy⟩ := hsame.forth x hx
      exact ⟨y, hfirst.mem_iff.mp hy, hxy⟩
    have hlearned := ih (h.replace coverage hab.function hab.neighbours v) (hsame'.tail hab ha hb') hrest hrest'
    exact hlearned.trans (learnAll_perm hfirst hothers).symm

end Cache
end CallChart
