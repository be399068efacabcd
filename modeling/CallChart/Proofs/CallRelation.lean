import CallChart.Proofs.Listings

/-! The call relation of a catalog. Its tables of callees and of callers are filled side by side, one call after
another, and an answer goes from names back to the functions listed under them. So the two directions are converses
of one another, and both stay among the listed functions. -/
namespace CallChart

namespace Manifest

/-- Some entry has the name. -/
def Names (m : Manifest) (name : String) : Prop := ∃ e ∈ m.functions, e.qualifiedName = name

/-- Some entry of the one name lists the other among its calls. -/
def Calls (m : Manifest) (caller callee : String) : Prop :=
  ∃ e ∈ m.functions, e.qualifiedName = caller ∧ callee ∈ e.calls

instance (m : Manifest) (name : String) : Decidable (m.Names name) :=
  inferInstanceAs (Decidable (∃ e ∈ m.functions, e.qualifiedName = name))

instance (m : Manifest) (caller callee : String) : Decidable (m.Calls caller callee) :=
  inferInstanceAs (Decidable (∃ e ∈ m.functions, e.qualifiedName = caller ∧ callee ∈ e.calls))

end Manifest

namespace Catalog

variable {c : Catalog} {m : Manifest} {root : Path}

theorem mem_listings {name : String} : name ∈ listings m ↔ m.Names name := by
  suffices hfold : ∀ (entries : List FunctionEntry) (byName : Std.TreeMap String Listing),
      name ∈ entries.foldl (fun byName e => byName.insert e.qualifiedName ⟨e.function, e.module, e.isTest⟩) byName ↔
        name ∈ byName ∨ ∃ e ∈ entries, e.qualifiedName = name by
    rw [listings, hfold, Manifest.Names]
    simp
  intro entries
  induction entries with
  | nil => simp
  | cons e entries ih =>
    intro byName
    simp only [List.foldl_cons, ih, Std.TreeMap.mem_insert, Std.compare_eq_iff_eq, List.mem_cons, exists_eq_or_imp]
    grind

/-- The calls that are kept are those to listed names. -/
theorem mem_listedCalls {caller callee : String} :
    (caller, callee) ∈ listedCalls m (listings m) ↔ m.Calls caller callee ∧ m.Names callee := by
  simp only [listedCalls, List.mem_flatMap, List.mem_map, List.mem_filter, Prod.mk.injEq, Manifest.Calls,
    Std.TreeMap.contains_iff_mem, mem_listings]
  constructor
  · rintro ⟨e, he, _, ⟨hcall, hnames⟩, rfl, rfl⟩
    exact ⟨⟨e, he, rfl, hcall⟩, hnames⟩
  · rintro ⟨⟨e, he, rfl, hcall⟩, hnames⟩
    exact ⟨e, he, callee, ⟨hcall, hnames⟩, rfl, rfl⟩

/-- A call adds one name to one entry of a table. -/
theorem mem_addTo {sets : Std.TreeMap String (Std.TreeSet String)} {key name k n : String} :
    n ∈ ((addTo sets key name)[k]?).getD ∅ ↔ n ∈ (sets[k]?).getD ∅ ∨ (key = k ∧ name = n) := by
  rw [addTo, Std.TreeMap.getElem?_insert]
  split
  · next hkey =>
    obtain rfl := Std.compare_eq_iff_eq.mp hkey
    rw [Option.getD_some, Std.TreeSet.mem_insert, Std.compare_eq_iff_eq]
    grind
  · next hkey =>
    rw [Std.compare_eq_iff_eq] at hkey
    simp [hkey]

/-- A table holds what the calls put into it, whichever end of a call is its key. -/
theorem mem_table (key name : String × String → String) (calls : List (String × String)) {k n : String} :
    n ∈ ((calls.foldl (fun sets call => addTo sets (key call) (name call)) ∅)[k]?).getD ∅ ↔
      ∃ call ∈ calls, key call = k ∧ name call = n := by
  suffices hfold : ∀ sets : Std.TreeMap String (Std.TreeSet String),
      n ∈ ((calls.foldl (fun sets call => addTo sets (key call) (name call)) sets)[k]?).getD ∅ ↔
        n ∈ (sets[k]?).getD ∅ ∨ ∃ call ∈ calls, key call = k ∧ name call = n by
    rw [hfold]
    simp
  induction calls with
  | nil => simp
  | cons call calls ih =>
    intro sets
    simp only [List.foldl_cons, ih, mem_addTo, List.mem_cons, exists_eq_or_imp, or_assoc]

theorem mem_calleesOf {caller callee : String} :
    callee ∈ (((ofManifest m root).calleesOf)[caller]?).getD ∅ ↔ m.Calls caller callee ∧ m.Names callee := by
  rw [← mem_listedCalls]
  refine (mem_table Prod.fst Prod.snd _).trans ?_
  grind

theorem mem_callersOf {caller callee : String} :
    caller ∈ (((ofManifest m root).callersOf)[callee]?).getD ∅ ↔ m.Calls caller callee ∧ m.Names callee := by
  rw [← mem_listedCalls]
  refine (mem_table Prod.snd Prod.fst _).trans ?_
  grind

/-- A query asks for a name, and fails exactly if the name is not listed. -/
theorem neighboursIn_eq_error_iff {table : Std.TreeMap String (Std.TreeSet String)} {f : SourceFunction}
    {e : IndexError} :
    c.neighboursIn table f = .error e ↔ f.qualifiedName ∉ c.byName ∧ e = .unknownFunction f.qualifiedName := by
  rw [neighboursIn]
  split
  · next h => simp [Std.TreeMap.contains_iff_mem.mp h]
  · next h =>
    rw [Std.TreeMap.contains_iff_mem] at h
    simp [h, eq_comm]

/-- An answer holds the functions listed under the names of the table. -/
theorem mem_neighboursIn (hnamed : Named c.byName) (table : Std.TreeMap String (Std.TreeSet String))
    {f g : SourceFunction} (hf : f.qualifiedName ∈ c.byName) (hg : Listed c.functions g) :
    ∃ found, c.neighboursIn table f = .ok found ∧
      (g ∈ found ↔ g.qualifiedName ∈ ((table[f.qualifiedName]?).getD ∅)) := by
  refine ⟨_, if_pos (Std.TreeMap.contains_iff_mem.mpr hf), ?_⟩
  rw [mem_ofList_iff]
  constructor
  · rintro ⟨k, hk, hkg⟩
    simp only [List.mem_map, List.mem_filterMap, Std.TreeSet.mem_toList] at hk
    obtain ⟨listing, ⟨name, hname, hat⟩, rfl⟩ := hk
    rw [← (SourceFunction.compare_eq_iff.mp hkg).1, hnamed _ _ hat]
    exact hname
  · intro hname
    obtain ⟨listing, hat, hlg⟩ := hnamed.listing hg
    refine ⟨_, List.mem_map_of_mem (List.mem_filterMap.mpr ⟨_, ?_, hat⟩), hlg⟩
    exact Std.TreeSet.mem_toList.mpr hname

/-- An answer holds listed functions as they are listed. -/
theorem mem_functions_of_mem_toList {coverage : Coverage} {f g : SourceFunction} {found : Std.TreeSet SourceFunction}
    (h : c.neighbours coverage f = .ok found) (hg : g ∈ found.toList) : g ∈ c.functions := by
  obtain ⟨table, htable⟩ : ∃ table, c.neighboursIn table f = .ok found := by
    cases coverage
    · exact ⟨c.callersOf, h⟩
    · exact ⟨c.calleesOf, h⟩
  rw [neighboursIn] at htable
  split at htable
  · obtain rfl := Except.ok.inj htable
    have hlisted := mem_of_mem_toList_ofList hg
    simp only [List.mem_map, List.mem_filterMap] at hlisted
    obtain ⟨listing, ⟨name, -, hat⟩, rfl⟩ := hlisted
    exact mem_functions hat
  · cases htable

/-- The functions of a catalog differ from one another, as their names do. -/
theorem Named.distinct (h : Named c.byName) : c.functions.Pairwise fun f g => compare f g ≠ .eq := by
  rw [functions, inOrder, List.map_map, List.pairwise_map]
  refine Std.TreeMap.distinct_keys_toList.imp_of_mem fun {a b} ha hb hne heq => hne ?_
  have hat := h _ _ (Std.TreeMap.mem_toList_iff_getElem?_eq_some.mp ha)
  have hbt := h _ _ (Std.TreeMap.mem_toList_iff_getElem?_eq_some.mp hb)
  rw [Std.compare_eq_iff_eq, ← hat, ← hbt]
  exact (SourceFunction.compare_eq_iff.mp heq).1

theorem Named.size_whole (h : Named c.byName) : c.whole.size = c.size := by
  rw [← length_functions]
  apply Nat.le_antisymm
  · rw [← Std.TreeSet.length_toList]
    refine length_le_of_listed Std.TreeSet.distinct_toList fun f hf => ?_
    exact mem_whole.mp (Std.TreeSet.mem_of_mem_toList hf)
  · exact length_le_size h.distinct fun f hf => mem_whole.mpr (.of_mem hf)

/-- What a catalog made of a manifest answers as an index. -/
structure Relates (c : Catalog) (m : Manifest) (index : CallIndex SourceFunction) : Prop where
  /-- Between functions of the catalog both directions are answered, they are converses of one another, and they say
  what the entries say. -/
  converse : ∀ f g, Listed c.functions f → Listed c.functions g →
    ∃ callees callers, index.neighbours .callees f = .ok callees ∧ index.neighbours .callers g = .ok callers ∧
      (g ∈ callees ↔ f ∈ callers) ∧ (f ∈ callers ↔ m.Calls f.qualifiedName g.qualifiedName)
  /-- Answers hold the handles that the catalog lists. -/
  closed : ∀ coverage f found, index.neighbours coverage f = .ok found → ∀ g ∈ found.toList, g ∈ c.functions
  /-- A query fails exactly for a name without an entry, and says so. -/
  fails : ∀ coverage f e, index.neighbours coverage f = .error e ↔
    ¬ m.Names f.qualifiedName ∧ e = .unknownFunction f.qualifiedName
  /-- Every scope that is answered lies in the whole project, which has all the functions of the catalog. -/
  scopes : ∃ all, index.functions .whole = .ok all ∧ all.size = c.size ∧
    ∀ scope found, index.functions scope = .ok found → ∀ f ∈ found, f ∈ all

/-- The call relation of every manifest is symmetric and closed, whatever names its entries repeat and whatever calls
they list. -/
theorem ofManifest_relates (m : Manifest) (root : Path) (isDirectory : Path → Bool) :
    (ofManifest m root).Relates m ((ofManifest m root).index isDirectory) := by
  have hnamed : Named (ofManifest m root).byName := named_listings m
  have hnames {f : SourceFunction} (hf : Listed (ofManifest m root).functions f) : m.Names f.qualifiedName := by
    obtain ⟨listing, hat, -⟩ := hnamed.listing hf
    exact mem_listings.mp (Std.TreeMap.mem_iff_isSome_getElem?.mpr (hat ▸ rfl))
  constructor
  case converse =>
    intro f g hf hg
    obtain ⟨callees, hcallees, hg'⟩ :=
      mem_neighboursIn hnamed (ofManifest m root).calleesOf (mem_listings.mpr (hnames hf)) hg
    obtain ⟨callers, hcallers, hf'⟩ :=
      mem_neighboursIn hnamed (ofManifest m root).callersOf (mem_listings.mpr (hnames hg)) hf
    rw [mem_calleesOf] at hg'
    rw [mem_callersOf] at hf'
    refine ⟨callees, callers, hcallees, hcallers, hg'.trans hf'.symm, hf'.trans ?_⟩
    exact and_iff_left (hnames hg)
  case closed =>
    intro coverage f found hfound g hg
    exact mem_functions_of_mem_toList hfound hg
  case fails =>
    intro coverage f e
    rw [← mem_listings]
    cases coverage
    · exact neighboursIn_eq_error_iff
    · exact neighboursIn_eq_error_iff
  case scopes =>
    refine ⟨_, rfl, hnamed.size_whole, ?_⟩
    intro scope found hfound f hf
    exact mem_inScope hfound hf

/-- Two entries of one name: the later one is listed, and only the earlier one calls `app::log`, twice, itself, and a
function that is not listed. -/
def mergedEntries : Manifest :=
  ⟨[⟨"run", "app::run", ⟨"src/old.rs"⟩, none, "app", false, ["app::log", "std::print", "app::run", "app::log"]⟩,
    ⟨"log", "app::log", ⟨"src/log.rs"⟩, none, "app", false, []⟩,
    ⟨"run", "app::run", ⟨"src/new.rs"⟩, some 7, "app", false, []⟩]⟩

/-- The function listed last has the calls of the earlier entry. -/
theorem merged_entries_related :
    let run : SourceFunction := ⟨"app::run", "run", ⟨"src/new.rs"⟩, some 7⟩
    let log : SourceFunction := ⟨"app::log", "log", ⟨"src/log.rs"⟩, none⟩
    let index := (ofManifest mergedEntries ⟨"/project"⟩).index fun _ => false
    (∃ callees callers, index.neighbours .callees run = .ok callees ∧ index.neighbours .callers log = .ok callers ∧
      log ∈ callees ∧ run ∈ callers) ∧
    index.neighbours .callers ⟨"std::print", "print", ⟨""⟩, none⟩ = .error (.unknownFunction "std::print") := by
  intro run log index
  have h := ofManifest_relates mergedEntries ⟨"/project"⟩ fun _ => false
  have hrun : (ofManifest mergedEntries ⟨"/project"⟩).byName["app::run"]? = some ⟨run, "app", false⟩ := rfl
  have hlog : (ofManifest mergedEntries ⟨"/project"⟩).byName["app::log"]? = some ⟨log, "app", false⟩ := rfl
  constructor
  · obtain ⟨callees, callers, hcallees, hcallers, hiff, hcalls⟩ :=
      h.converse run log (.of_mem (mem_functions hrun)) (.of_mem (mem_functions hlog))
    have hcalled : run ∈ callers := hcalls.mpr (by decide)
    exact ⟨callees, callers, hcallees, hcallers, hiff.mpr hcalled, hcalled⟩
  · exact (h.fails _ _ _).mpr ⟨by decide, rfl⟩

end Catalog
end CallChart
