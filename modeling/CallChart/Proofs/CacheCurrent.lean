import CallChart.Proofs.CacheTrust

/-! A cache whose tokens and versions tell which of its sets are still the index's answers, and what
may happen to the files and the index while that stays true. -/
namespace CallChart

variable {F : Type} [Handle F]

/-- Versions before and after some edits. Counters never go back, and an edit of any file moves the
generation. -/
structure Versions.Before (v w : Versions) : Prop where
  ofFile (p : Path) : v.ofFile p ≤ w.ofFile p
  generation : v.generation ≤ w.generation
  moved (p : Path) : v.ofFile p ≠ w.ofFile p → v.generation < w.generation

namespace Versions.Before

theorem refl (v : Versions) : v.Before v := ⟨fun _ => Nat.le_refl _, Nat.le_refl _, fun _ h => absurd rfl h⟩

theorem trans {u v w : Versions} (huv : u.Before v) (hvw : v.Before w) : u.Before w where
  ofFile p := Nat.le_trans (huv.ofFile p) (hvw.ofFile p)
  generation := Nat.le_trans huv.generation hvw.generation
  moved p h := by
    by_cases hu : u.ofFile p = v.ofFile p
    · exact Nat.lt_of_le_of_lt huv.generation (hvw.moved p (hu ▸ h))
    · exact Nat.lt_of_lt_of_le (huv.moved p hu) hvw.generation

theorem token {v w : Versions} (h : v.Before w) (coverage : Coverage) (f : F) :
    coverage.token f v ≤ coverage.token f w := by
  cases coverage with
  | callers => exact h.generation
  | callees => exact h.ofFile _

end Versions.Before

/-- Counting an edit leads to later versions. -/
theorem FileVersions.before_bump (v : FileVersions) (file : Path) : v.now.Before (v.bump file).now := by
  have hversion (p : Path) : (v.bump file).version p =
      if compare (v.key file) (v.key p) = .eq then v.version file + 1 else v.version p := by
    change (((v.bump file).counts[(v.bump file).key p]?).getD 0) = _
    change (((v.counts.insert (v.key file) (v.version file + 1))[v.key p]?).getD 0) = _
    rw [Std.TreeMap.getElem?_insert]
    split
    · rfl
    · rfl
  refine ⟨fun p => ?_, Nat.le_succ _, fun p _ => Nat.lt_succ_self _⟩
  change v.version p ≤ (v.bump file).version p
  rw [hversion p]
  split
  · next hp =>
    have hsame : v.version p = v.version file := by
      rw [version, version, Std.TreeMap.getElem?_congr hp]
    omega
  · exact Nat.le_refl _

/-- The versions of all files and the index at one moment. -/
structure Moment (F : Type) [Handle F] where
  versions : Versions
  index : CallIndex F

/-- What may have happened from one moment to a later one: a call is new only if the file of its
caller was edited, and is gone only if the file of one of its ends was. -/
structure Moment.Follows (later earlier : Moment F) : Prop where
  appeared {f g : F} : later.index.Names .callees f g → ¬ earlier.index.Names .callees f g →
    earlier.versions.ofFile (Handle.sourceFile f) ≠ later.versions.ofFile (Handle.sourceFile f)
  disappeared {f g : F} : earlier.index.Names .callees f g → ¬ later.index.Names .callees f g →
    earlier.versions.ofFile (Handle.sourceFile f) ≠ later.versions.ofFile (Handle.sourceFile f) ∨
      earlier.versions.ofFile (Handle.sourceFile g) ≠ later.versions.ofFile (Handle.sourceFile g)

theorem Dependency.isFresh_iff {d : Dependency F} {v : Versions} :
    d.isFresh v = true ↔ v.ofFile (Handle.sourceFile d.caller) = d.callerVersion ∧
      v.ofFile (Handle.sourceFile d.callee) = d.calleeVersion := by
  rw [isFresh, Bool.and_eq_true, beq_iff_eq, beq_iff_eq]

namespace Cache

/-- What is stored was learned at versions that are not later than those of the moment. A fresh call
is a call of the moment, and a current token vouches for all calls of the moment. -/
structure Current (m : Moment F) (c : Cache F) : Prop where
  ends {k : Call F} {d : Dependency F} : c.dependencies[k]? = some d →
    compare d.caller k.caller = .eq ∧ compare d.callee k.callee = .eq
  past {k : Call F} {d : Dependency F} : c.dependencies[k]? = some d →
    d.callerVersion ≤ m.versions.ofFile (Handle.sourceFile d.caller) ∧
      d.calleeVersion ≤ m.versions.ofFile (Handle.sourceFile d.callee)
  issued {coverage : Coverage} {f : F} {t : Nat} : c.token? coverage f = some t →
    t ≤ coverage.token f m.versions
  fresh {k : Call F} {d : Dependency F} : c.dependencies[k]? = some d → d.isFresh m.versions = true →
    m.index.Names .callees k.caller k.callee
  covered {coverage : Coverage} {f g : F} :
    c.token? coverage f = some (coverage.token f m.versions) → m.index.Names coverage f g →
      g ∈ c.neighbours coverage f

/-- Nothing is stored and no function is covered. -/
structure Blank (c : Cache F) : Prop where
  dependencies (k : Call F) : c.dependencies[k]? = none
  tokens (coverage : Coverage) : c.UncoveredAt coverage

theorem blank_empty : (empty : Cache F).Blank :=
  ⟨fun _ => Std.TreeMap.getElem?_emptyc, uncoveredAt_empty⟩

theorem Blank.current {c : Cache F} (h : c.Blank) (m : Moment F) : c.Current m where
  ends hd := by rw [h.dependencies] at hd; cases hd
  past hd := by rw [h.dependencies] at hd; cases hd
  issued ht := by rw [h.tokens] at ht; cases ht
  fresh hd := by rw [h.dependencies] at hd; cases hd
  covered ht := by rw [h.tokens] at ht; cases ht

theorem Blank.pruned {c : Cache F} (h : c.Blank) (scope : Std.TreeSet F) (v : Versions) :
    (c.prune scope v).2.Blank where
  dependencies k := by
    cases hd : (c.prune scope v).2.dependencies[k]? with
    | none => rfl
    | some d => rw [getElem?_prune, h.dependencies] at hd; cases hd.1
  tokens coverage f := by
    cases ht : (c.prune scope v).2.token? coverage f with
    | none => rfl
    | some t => rw [token?_prune, h.tokens] at ht; cases ht.1

namespace Current

variable {c : Cache F} {m : Moment F}

theorem served (hc : m.index.Coherent) (h : c.Current m) {coverage : Coverage} {f : F}
    {known : List F} (hk : c.freshNeighbours? coverage f m.versions = some known) :
    m.index.IsAnswer coverage f known := by
  obtain ⟨rfl, ht, hall⟩ := freshNeighbours?_eq_some.mp hk
  refine fun g => ⟨?_, fun hn => listed_toList_iff.mpr (h.covered ht hn)⟩
  rintro ⟨g', hg', hgg⟩
  obtain ⟨d, hd, hfresh⟩ := hall g' hg'
  have hn := h.fresh hd hfresh
  have hn' : m.index.Names coverage f g' := by
    cases coverage with
    | callees => exact hn
    | callers => exact hc.mirrored.mp hn
  exact hn'.congr (compare_refl f) hgg

theorem learned (hc : m.index.Coherent) (h : c.Current m) {coverage : Coverage} {f : F}
    {answer : List F} (ha : m.index.IsAnswer coverage f answer) :
    (c.replaceNeighbours coverage f answer m.versions).Current m where
  ends hd := by
    rcases getElem?_replace hd with ⟨g, -, hk, rfl⟩ | ⟨-, hold⟩
    · exact Coverage.callees.compare_iff.mp hk
    · exact h.ends hold
  past hd := by
    rcases getElem?_replace hd with ⟨g, -, hk, rfl⟩ | ⟨-, hold⟩
    · exact ⟨Nat.le_refl _, Nat.le_refl _⟩
    · exact h.past hold
  issued {side g t} ht := by
    rcases token?_replace ht with ⟨rfl, hf, rfl⟩ | ⟨-, hold, -⟩
    · exact Nat.le_of_eq (side.token_congr hf m.versions)
    · exact h.issued hold
  fresh {k d} hd hfresh := by
    rcases getElem?_replace hd with ⟨g, hg, hk, -⟩ | ⟨-, hold⟩
    · have hn : m.index.Names coverage f g := (ha g).mp (.of_mem hg)
      have hn' : m.index.Names .callees (coverage.call f g).caller (coverage.call f g).callee := by
        cases coverage with
        | callees => exact hn
        | callers => exact hc.mirrored.mpr hn
      exact hn'.congr (Coverage.callees.compare_iff.mp hk).1 (Coverage.callees.compare_iff.mp hk).2
    · exact h.fresh hold hfresh
  covered {side f' g} ht hn := by
    rcases token?_replace ht with ⟨rfl, hf, -⟩ | ⟨-, hold, hdrop⟩
    · rw [mem_neighbours_replace_self hf, ha g]
      exact hn.congr (compare_symm hf) (compare_refl g)
    · refine mem_neighbours_replace.mpr (.inr ⟨hdrop _ ?_, h.covered hold hn⟩)
      rw [Coverage.near_call]
      exact compare_refl f'

theorem trust (hc : m.index.Coherent) (coverage : Coverage) :
    Trust (Current m) m.index (· = m.versions) coverage where
  served h hv := hv ▸ h.served hc
  learned h hv ha := hv ▸ h.learned hc ha
  counted _ _ h := ⟨h.ends, h.past, h.issued, h.fresh, h.covered⟩

/-- Pruning only takes away, and takes the tokens of what it takes away. -/
theorem pruned (h : c.Current m) (scope : Std.TreeSet F) (v : Versions) :
    (c.prune scope v).2.Current m where
  ends hd := h.ends (getElem?_prune.mp hd).1
  past hd := h.past (getElem?_prune.mp hd).1
  issued ht := h.issued (token?_prune.mp ht).1
  fresh hd := h.fresh (getElem?_prune.mp hd).1
  covered {coverage f g} ht hn := by
    obtain ⟨hold, -, -, hkept⟩ := token?_prune.mp ht
    refine mem_neighbours_prune.mpr ⟨hkept _ ?_, h.covered hold hn⟩
    rw [Coverage.near_call]
    exact compare_refl f

/-- A token or a call that is still current was so before, and then nothing that it vouches for has
changed. -/
theorem later {next : Moment F} (hc : m.index.Coherent) (hnext : next.index.Coherent)
    (h : c.Current m) (hv : m.versions.Before next.versions) (hf : next.Follows m) :
    c.Current next where
  ends := h.ends
  past hd := ⟨Nat.le_trans (h.past hd).1 (hv.ofFile _), Nat.le_trans (h.past hd).2 (hv.ofFile _)⟩
  issued ht := Nat.le_trans (h.issued ht) (hv.token _ _)
  fresh {k d} hd hfresh := by
    obtain ⟨hcaller, hcallee⟩ := Dependency.isFresh_iff.mp hfresh
    obtain ⟨hpast, hpast'⟩ := h.past hd
    have hsame := Nat.le_antisymm (hv.ofFile (Handle.sourceFile d.caller)) (hcaller ▸ hpast)
    have hsame' := Nat.le_antisymm (hv.ofFile (Handle.sourceFile d.callee)) (hcallee ▸ hpast')
    have hold := h.fresh hd (Dependency.isFresh_iff.mpr ⟨hsame.trans hcaller, hsame'.trans hcallee⟩)
    by_cases hn : next.index.Names .callees k.caller k.callee
    · exact hn
    · obtain ⟨he, he'⟩ := h.ends hd
      have hc := Handle.sourceFile_congr he
      have hc' := Handle.sourceFile_congr he'
      rcases hf.disappeared hold hn with hmoved | hmoved
      · rw [← m.versions.ofFile_congr hc, ← next.versions.ofFile_congr hc] at hmoved
        exact absurd hsame hmoved
      · rw [← m.versions.ofFile_congr hc', ← next.versions.ofFile_congr hc'] at hmoved
        exact absurd hsame' hmoved
  covered {coverage f g} ht hn := by
    have hsame : coverage.token f m.versions = coverage.token f next.versions :=
      Nat.le_antisymm (hv.token _ _) (h.issued ht)
    refine h.covered (hsame ▸ ht) ?_
    by_cases hold : m.index.Names coverage f g
    · exact hold
    · cases coverage with
      | callees => exact absurd hsame (hf.appeared hn hold)
      | callers =>
        have hmoved := hf.appeared (hnext.mirrored.mpr hn) fun ho => hold (hc.mirrored.mp ho)
        exact absurd hsame (Nat.ne_of_lt (hv.moved _ hmoved))

end Current

end Cache
end CallChart
