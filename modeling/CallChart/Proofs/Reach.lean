import CallChart.Index.Basic
import CallChart.Proofs.CacheTable

/-! The calls that an index tells as a relation between functions, and what they lead to. An index
need not tell the same calls in both directions; one that does is coherent. -/
namespace CallChart

variable {F : Type} [Handle F]

namespace CallIndex

variable (index : CallIndex F)

/-- Asked for the neighbours of `f`, the index names `g`. -/
def Names (coverage : Coverage) (f g : F) : Prop :=
  ∃ found, index.neighbours coverage f = .ok found ∧ g ∈ found

/-- The index answers about `f` in both directions. -/
def Knows (f : F) : Prop := ∀ coverage, ∃ found, index.neighbours coverage f = .ok found

/-- A list of exactly those neighbours of `f` that the index names. -/
def IsAnswer (coverage : Coverage) (f : F) (answer : List F) : Prop :=
  ∀ g, Listed answer g ↔ index.Names coverage f g

/-- Callers and callees are told alike. -/
def Mirrored : Prop := ∀ f g, index.Names .callees f g ↔ index.Names .callers g f

/-- Callers and callees are told alike, and every function that is named is known. -/
structure Coherent : Prop where
  mirrored {f g : F} : index.Names .callees f g ↔ index.Names .callers g f
  closed {coverage : Coverage} {f g : F} : index.Names coverage f g → index.Knows g

/-- What calls lead to from some functions, and the functions themselves. -/
inductive Reached (coverage : Coverage) (seeds : List F) : F → Prop where
  | seed {f : F} : Listed seeds f → Reached coverage seeds f
  | call {f g : F} : Reached coverage seeds f → index.Names coverage f g → Reached coverage seeds g

variable {index}

theorem Names.congr {coverage : Coverage} {f f' g g' : F} (h : index.Names coverage f g)
    (hf : compare f f' = .eq) (hg : compare g g' = .eq) : index.Names coverage f' g' := by
  obtain ⟨found, hfound, hmem⟩ := h
  obtain ⟨other, hother, hiff⟩ := index.neighbours_congr hf hfound
  exact ⟨other, hother, (hiff g').mp ((Std.TreeSet.mem_congr hg).mp hmem)⟩

theorem Knows.congr {f f' : F} (h : index.Knows f) (hf : compare f f' = .eq) : index.Knows f' := by
  intro coverage
  obtain ⟨found, hfound⟩ := h coverage
  obtain ⟨other, hother, -⟩ := index.neighbours_congr hf hfound
  exact ⟨other, hother⟩

theorem Coherent.isMirrored (h : index.Coherent) : index.Mirrored := fun _ _ => h.mirrored

theorem Mirrored.opposite (h : index.Mirrored) (coverage : Coverage) {f g : F} :
    index.Names coverage.opposite g f ↔ index.Names coverage f g := by
  cases coverage with
  | callers => exact h g f
  | callees => exact (h f g).symm

/-- What an index answers when it answers. -/
theorem isAnswer_toList {coverage : Coverage} {f : F} {found : Std.TreeSet F}
    (h : index.neighbours coverage f = .ok found) : index.IsAnswer coverage f found.toList := by
  intro g
  rw [listed_toList_iff]
  constructor
  · exact fun hg => ⟨found, h, hg⟩
  · rintro ⟨other, hother, hg⟩
    rw [h] at hother
    exact Except.ok.inj hother ▸ hg

namespace Reached

variable {coverage : Coverage} {seeds : List F}

theorem congr {f g : F} (h : index.Reached coverage seeds f) (hfg : compare f g = .eq) :
    index.Reached coverage seeds g := by
  cases h with
  | seed hs => exact .seed (hs.congr hfg)
  | call hr hn => exact .call hr (hn.congr (compare_refl _) hfg)

theorem iff_seed_or_call {f : F} : index.Reached coverage seeds f ↔
    Listed seeds f ∨ ∃ g, index.Reached coverage seeds g ∧ index.Names coverage g f := by
  constructor
  · intro h
    cases h with
    | seed hs => exact .inl hs
    | call hr hn => exact .inr ⟨_, hr, hn⟩
  · rintro (hs | ⟨g, hr, hn⟩)
    · exact .seed hs
    · exact .call hr hn

/-- The functions reached are the least set that holds the seeds and is closed under calls. -/
theorem least {P : F → Prop} (hseed : ∀ f, Listed seeds f → P f)
    (hcall : ∀ f g, P f → index.Names coverage f g → P g) {f : F}
    (h : index.Reached coverage seeds f) : P f := by
  induction h with
  | seed hs => exact hseed _ hs
  | call _ hn ih => exact hcall _ _ ih hn

theorem knows (hc : index.Coherent) (hseeds : ∀ f ∈ seeds, index.Knows f) {f : F}
    (h : index.Reached coverage seeds f) : index.Knows f := by
  cases h with
  | seed hs =>
    obtain ⟨g, hg, hgf⟩ := hs
    exact (hseeds g hg).congr hgf
  | call _ hn => exact hc.closed hn

/-- Every function reached is a seed or can be listed beforehand. -/
theorem listed {f : F} (h : index.Reached coverage seeds f) {names : List F}
    (hnames : ∀ coverage f g, index.Names coverage f g → Listed names g) :
    Listed (seeds ++ names) f := by
  rw [Listed.append]
  cases h with
  | seed hs => exact .inl hs
  | call _ hn => exact .inr (hnames _ _ _ hn)

end Reached

/-- The functions named in answers can be listed. -/
theorem exists_names (index : CallIndex F) :
    ∃ names : List F, names.length ≤ index.population ∧
      ∀ coverage f g, index.Names coverage f g → Listed names g := by
  obtain ⟨names, hlength, hnames⟩ := index.listed
  refine ⟨names, hlength, ?_⟩
  rintro coverage f g ⟨found, hfound, hg⟩
  exact hnames coverage f found hfound g hg

end CallIndex
end CallChart
