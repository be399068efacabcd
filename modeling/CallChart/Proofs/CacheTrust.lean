import CallChart.Proofs.Reach

/-! When the answers that a cache serves are those of an index. The simplest reason is that every
covered set equals the index's answer, whatever the versions are. -/
namespace CallChart

variable {F : Type} [Handle F]

/-- A property of caches under which they serve the answers of an index in one direction, and which
learning these answers at certain versions keeps. -/
structure Trust (P : Cache F → Prop) (index : CallIndex F) (V : Versions → Prop)
    (coverage : Coverage) : Prop where
  served {c : Cache F} {f : F} {v : Versions} {known : List F} :
    P c → V v → c.freshNeighbours? coverage f v = some known → index.IsAnswer coverage f known
  learned {c : Cache F} {f : F} {v : Versions} {answer : List F} :
    P c → V v → index.IsAnswer coverage f answer → P (c.replaceNeighbours coverage f answer v)
  counted {c : Cache F} (hits misses : Nat) : P c → P { c with hits := hits, misses := misses }

namespace Cache

variable {index : CallIndex F}

/-- A served answer is the recorded set; its token is current and its calls are fresh. -/
theorem freshNeighbours?_eq_some {c : Cache F} {coverage : Coverage} {f : F} {v : Versions}
    {known : List F} :
    c.freshNeighbours? coverage f v = some known ↔
      known = (c.neighbours coverage f).toList ∧
        c.token? coverage f = some (coverage.token f v) ∧
          ∀ g ∈ known, ∃ d, c.dependencies[coverage.call f g]? = some d ∧ d.isFresh v = true := by
  unfold freshNeighbours?
  split
  · next ht =>
    simp only [ht, true_and, Option.ite_none_right_eq_some, Option.some.injEq, List.all_eq_true,
      lookup, Option.isSome_filter, Option.any_eq_true]
    constructor
    · rintro ⟨hall, rfl⟩
      exact ⟨rfl, fun g hg => hall g hg⟩
    · rintro ⟨rfl, hall⟩
      exact ⟨fun g hg => hall g hg, rfl⟩
  · next ht => simp [ht]

/-- Handles of one function are served the same answer. -/
theorem freshNeighbours?_congr (c : Cache F) (coverage : Coverage) {f f' : F} (h : compare f f' = .eq)
    (v : Versions) : c.freshNeighbours? coverage f v = c.freshNeighbours? coverage f' v := by
  have hlookup (g : F) : c.lookup (coverage.call f g) v = c.lookup (coverage.call f' g) v := by
    have hcall := coverage.compare_call.mpr ⟨h, compare_refl g⟩
    rw [lookup, lookup, Std.TreeMap.getElem?_congr hcall]
  simp only [freshNeighbours?, c.token?_congr coverage h, coverage.token_congr h,
    c.neighbours_congr coverage h, hlookup]

/-- At certain versions the cache has an answer about a function. -/
def Serves (c : Cache F) (v : Versions) (coverage : Coverage) (f : F) : Prop :=
  ∃ known, c.freshNeighbours? coverage f v = some known

theorem serves_iff {c : Cache F} {coverage : Coverage} {f : F} {v : Versions} : c.Serves v coverage f ↔ c.token? coverage f = some (coverage.token f v) ∧
    ∀ g ∈ c.neighbours coverage f, ∃ d, c.dependencies[coverage.call f g]? = some d ∧ d.isFresh v = true := by
  constructor
  · rintro ⟨known, hknown⟩
    obtain ⟨rfl, htoken, hfresh⟩ := freshNeighbours?_eq_some.mp hknown
    refine ⟨htoken, fun g hg => ?_⟩
    obtain ⟨g', hg', hgg'⟩ := listed_toList_iff.mpr hg
    obtain ⟨d, hd, hdfresh⟩ := hfresh g' hg'
    have hcall : compare (coverage.call f g') (coverage.call f g) = .eq :=
      coverage.compare_call.mpr ⟨compare_refl f, hgg'⟩
    exact ⟨d, (Std.TreeMap.getElem?_congr hcall).symm.trans hd, hdfresh⟩
  · rintro ⟨htoken, hfresh⟩
    exact ⟨_, freshNeighbours?_eq_some.mpr ⟨rfl, htoken, fun g hg => hfresh g (Std.TreeSet.mem_of_mem_toList hg)⟩⟩

theorem Serves.congr {c : Cache F} {coverage : Coverage} {f g : F} {v : Versions} (h : c.Serves v coverage f)
    (hfg : compare f g = .eq) : c.Serves v coverage g := by
  obtain ⟨known, hknown⟩ := h
  exact ⟨known, (c.freshNeighbours?_congr coverage hfg v).symm.trans hknown⟩

/-! ### Agreement -/

/-- The covered sets of one direction are the index's answers. -/
def AgreesAt (index : CallIndex F) (coverage : Coverage) (c : Cache F) : Prop :=
  ∀ f t, c.token? coverage f = some t →
    ∀ g, g ∈ c.neighbours coverage f ↔ index.Names coverage f g

/-- No function is covered in one direction. -/
def UncoveredAt (coverage : Coverage) (c : Cache F) : Prop := ∀ f, c.token? coverage f = none

/-- All covered sets are the index's answers. -/
def Agrees (index : CallIndex F) (c : Cache F) : Prop := ∀ coverage, c.AgreesAt index coverage

theorem UncoveredAt.agreesAt {coverage : Coverage} {c : Cache F} (h : c.UncoveredAt coverage) :
    c.AgreesAt index coverage := by
  intro f t ht
  rw [h f] at ht
  cases ht

theorem uncoveredAt_empty (coverage : Coverage) : (empty : Cache F).UncoveredAt coverage := by
  intro f
  cases coverage <;> exact Std.TreeMap.getElem?_emptyc

theorem AgreesAt.served {c : Cache F} {coverage : Coverage} {f : F} {v : Versions} {known : List F}
    (h : c.AgreesAt index coverage) (hk : c.freshNeighbours? coverage f v = some known) :
    index.IsAnswer coverage f known := by
  obtain ⟨rfl, ht, -⟩ := freshNeighbours?_eq_some.mp hk
  intro g
  rw [listed_toList_iff, h f _ ht g]

/-- Learning answers in one direction keeps the agreement in this direction, for any index. -/
theorem AgreesAt.learned {c : Cache F} {coverage : Coverage} {f : F} {v : Versions} {answer : List F}
    (h : c.AgreesAt index coverage) (ha : index.IsAnswer coverage f answer) :
    (c.replaceNeighbours coverage f answer v).AgreesAt index coverage := by
  intro f' t ht g
  rcases token?_replace ht with ⟨-, hf, -⟩ | ⟨hne, hold, -⟩
  · rw [mem_neighbours_replace_self hf, ha g]
    exact ⟨fun hn => hn.congr hf (compare_refl g), fun hn => hn.congr (compare_symm hf) (compare_refl g)⟩
  · rw [mem_neighbours_replace_of_ne fun hf => hne ⟨rfl, hf⟩]
    exact h f' t hold g

/-- Learning answers in one direction covers no function in the other. -/
theorem UncoveredAt.learned {c : Cache F} {coverage side : Coverage} {f : F} {v : Versions}
    {answer : List F} (h : c.UncoveredAt side) (hne : side ≠ coverage) :
    (c.replaceNeighbours coverage f answer v).UncoveredAt side := by
  intro g
  cases ht : (c.replaceNeighbours coverage f answer v).token? side g with
  | none => rfl
  | some t =>
    rcases token?_replace ht with ⟨hside, -, -⟩ | ⟨-, hold, -⟩
    · exact absurd hside hne
    · rw [h g] at hold
      cases hold

/-- A call is told in both directions, so learning it in one keeps the other. -/
theorem Agrees.learned {c : Cache F} {coverage : Coverage} {f : F} {v : Versions} {answer : List F}
    (hm : index.Mirrored) (h : c.Agrees index) (ha : index.IsAnswer coverage f answer) :
    (c.replaceNeighbours coverage f answer v).Agrees index := by
  intro side f' t ht g
  by_cases hside : side = coverage
  · subst hside
    exact (h side).learned ha f' t ht g
  · have hopposite := Coverage.eq_opposite_of_ne hside
    subst hopposite
    rcases token?_replace ht with ⟨hsame, -, -⟩ | ⟨-, hold, hdrop⟩
    · exact absurd hsame hside
    · have hkept : ¬ c.Drops coverage f answer (coverage.opposite.call f' g) :=
        hdrop _ (by rw [Coverage.near_call]; exact compare_refl f')
      rw [mem_neighbours_replace, h _ f' t hold g]
      refine ⟨?_, fun hn => .inr ⟨hkept, hn⟩⟩
      rintro (⟨hf, hlisted⟩ | ⟨-, hn⟩)
      · rw [Coverage.opposite_call, Coverage.near_call] at hf
        rw [Coverage.opposite_call, Coverage.far_call, ha f'] at hlisted
        exact (hm.opposite coverage).mpr (hlisted.congr hf (compare_refl f'))
      · exact hn

theorem Agrees.trust_of_mirrored (hm : index.Mirrored) (V : Versions → Prop) (coverage : Coverage) :
    Trust (Agrees index) index V coverage where
  served h _ := (h coverage).served
  learned h _ := h.learned hm
  counted _ _ h := h

theorem Agrees.trust (hc : index.Coherent) (V : Versions → Prop) (coverage : Coverage) :
    Trust (Agrees index) index V coverage :=
  trust_of_mirrored hc.isMirrored V coverage

theorem agrees_empty (index : CallIndex F) : (empty : Cache F).Agrees index :=
  fun coverage => (uncoveredAt_empty coverage).agreesAt

end Cache
end CallChart
