import CallChart.Index.Catalog
import CallChart.Proofs.Sets

/-! What a catalog lists: every answer names functions of the whole catalog, which has one of each qualified
name. -/
namespace CallChart

namespace Catalog

variable {c : Catalog}

/-- All functions of a catalog. -/
def whole (c : Catalog) : Std.TreeSet SourceFunction := c.select fun _ => true

theorem mem_select {condition : Listing → Bool} {f : SourceFunction} (h : f ∈ c.select condition) : f ∈ c.whole := by
  obtain ⟨g, hg, hgf⟩ := mem_ofList_iff.mp h
  obtain ⟨listing, hlisting, rfl⟩ := List.mem_map.mp hg
  refine mem_ofList_iff.mpr ⟨_, List.mem_map_of_mem ?_, hgf⟩
  exact List.mem_filter.mpr ⟨(List.mem_filter.mp hlisting).1, rfl⟩

/-- An answer about any scope names functions of the catalog only. -/
theorem mem_inScope {isDirectory : Path → Bool} {scope : Scope} {found : Std.TreeSet SourceFunction}
    (h : c.inScope isDirectory scope = .ok found) {f : SourceFunction} (hf : f ∈ found) : f ∈ c.whole := by
  cases scope with
  | project includeTests =>
    obtain rfl := Except.ok.inj h
    exact mem_select hf
  | module name =>
    simp only [inScope] at h
    split at h
    · cases h
    · obtain rfl := Except.ok.inj h
      exact mem_select hf
  | directory path =>
    simp only [inScope] at h
    split at h
    · cases h
    · obtain rfl := Except.ok.inj h
      exact mem_select hf

/-- Functions are listed by their own qualified names. -/
def Named (byName : Std.TreeMap String Listing) : Prop :=
  ∀ (name : String) (listing : Listing), byName[name]? = some listing → listing.function.qualifiedName = name

theorem Named.insert {byName : Std.TreeMap String Listing} (h : Named byName) (e : FunctionEntry) :
    Named (byName.insert e.qualifiedName ⟨e.function, e.module, e.isTest⟩) := by
  intro name listing hlisting
  rw [Std.TreeMap.getElem?_insert] at hlisting
  split at hlisting
  · next hname =>
    obtain rfl := Option.some.inj hlisting
    exact Std.compare_eq_iff_eq.mp hname
  · exact h name listing hlisting

theorem named_listings (m : Manifest) : Named (listings m) := by
  refine List.foldlRecOn m.functions _ (fun name listing hnone => ?_) fun byName h e _ => h.insert e
  rw [Std.TreeMap.getElem?_emptyc] at hnone
  cases hnone

theorem mem_whole {f : SourceFunction} : f ∈ c.whole ↔ Listed c.functions f := by
  rw [whole, select, mem_ofList_iff, List.filter_eq_self.mpr fun _ _ => rfl, functions]

/-- A function of the catalog stands under its own qualified name. -/
theorem Named.listing {f : SourceFunction} (h : Named c.byName) (hf : Listed c.functions f) :
    ∃ listing, c.byName[f.qualifiedName]? = some listing ∧ compare listing.function f = .eq := by
  obtain ⟨k, hk, hkf⟩ := hf
  obtain ⟨listing, hlisting, rfl⟩ := List.mem_map.mp hk
  obtain ⟨⟨name, _⟩, hentry, rfl⟩ := List.mem_map.mp hlisting
  have hat := Std.TreeMap.mem_toList_iff_getElem?_eq_some.mp hentry
  have hname := (h _ _ hat).symm.trans (SourceFunction.compare_eq_iff.mp hkf).1
  exact ⟨_, hname ▸ hat, hkf⟩

/-- A catalog has one function of each qualified name. -/
theorem eq_of_qualifiedName {m : Manifest} {root : Path} {f g : SourceFunction}
    (hf : f ∈ (ofManifest m root).whole) (hg : g ∈ (ofManifest m root).whole)
    (hname : f.qualifiedName = g.qualifiedName) : compare f g = .eq := by
  have hnamed : Named (ofManifest m root).byName := named_listings m
  obtain ⟨listing, hat, hlf⟩ := hnamed.listing (mem_whole.mp hf)
  obtain ⟨other, hother, hog⟩ := hnamed.listing (mem_whole.mp hg)
  rw [hname, hother] at hat
  obtain rfl := Option.some.inj hat
  exact compare_trans (compare_symm hlf) hog

end Catalog
end CallChart
