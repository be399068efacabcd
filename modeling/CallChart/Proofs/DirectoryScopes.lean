import CallChart.Path.Located
import CallChart.Proofs.Listings

/-! The scope of a directory. The directory and the files of functions are compared by what is left of them below the
root. What is left of the root itself is nothing, so it shows every function; any other directory shows the functions in
it that lie on the same side of the root and keep a dot as it does. Whether a directory is there depends only on the
steps that lead to it. -/
namespace CallChart

namespace Path

variable {base dir p : Path}

/-! ### What a directory shows -/

/-- The path lies below the base, or is the base. -/
def isBelow (p base : Path) : Bool := (p.located base).startsWith base

/-- The directory is the base, and nothing is left of it. -/
def isBase (dir base : Path) : Bool := (dir.located base).same base && !dir.keepsDot base

/-- The base shows everything. Any other directory shows what lies in it on the same side of the base and keeps a dot as
it does. -/
def shows (dir p base : Path) : Bool :=
  dir.isBase base ||
    ((p.located base).startsWith (dir.located base) && p.isBelow base == dir.isBelow base &&
      p.keepsDot base == dir.keepsDot base)

theorem located_of_below (h : p.isBelow base = true) :
    (p.located base).components = base.components ++ below base.components (p.located base).components := by
  obtain ⟨rest, hrest⟩ := startsWith_iff.mp h
  rw [← hrest, below_append]

/-- What does not lie below the base is an absolute path, of which nothing is taken away. -/
theorem below_of_not_below (h : p.isBelow base = false) :
    p.keepsDot base = false ∧
      below base.components (p.located base).components = (p.located base).components ∧
      (p.located base).components.head? = some .root := by
  have houtside : ¬ base.components <+: (p.located base).components := fun hstarts => by
    rw [isBelow, startsWith_iff.mpr hstarts] at h
    cases h
  obtain ⟨habsolute, hlocated⟩ := absolute_of_outside houtside
  refine ⟨?_, below_of_outside houtside, ?_⟩
  · rw [keepsDot, isDotted_of_absolute habsolute, Bool.false_and]
  · rw [hlocated, isAbsolute_iff.mp habsolute]

/-- On one side of the base, files lie in each other as what is left of them does. -/
theorem below_prefix_iff (hside : p.isBelow base = dir.isBelow base) :
    below base.components (dir.located base).components <+: below base.components (p.located base).components ↔
      (dir.located base).components <+: (p.located base).components := by
  cases hdir : dir.isBelow base with
  | true =>
    rw [located_of_below hdir, located_of_below (hside.trans hdir), below_append, below_append]
    exact (List.prefix_append_right_inj _).symm
  | false => rw [(below_of_not_below hdir).2.1, (below_of_not_below (hside.trans hdir)).2.1]

theorem isBase_iff :
    dir.isBase base = true ↔
      below base.components (dir.located base).components = [] ∧ dir.keepsDot base = false := by
  rw [isBase, Bool.and_eq_true, Bool.not_eq_true', same, beq_iff_eq]
  refine and_congr_left' ?_
  cases hdir : dir.isBelow base with
  | true => rw [located_of_below hdir, below_append, List.append_right_eq_self]
  | false =>
    obtain ⟨-, hleft, hroot⟩ := below_of_not_below hdir
    refine iff_of_false (fun h => ?_) fun h => ?_
    · rw [isBelow, ← Bool.not_eq_true, startsWith_iff, h] at hdir
      exact absurd List.prefix_rfl hdir
    · rw [← hleft, h] at hroot
      cases hroot

/-- What begins in the same way lies on the same side of the base. -/
theorem isBelow_eq_of_prefix (hne : below base.components (dir.located base).components ≠ [])
    (h : below base.components (dir.located base).components <+: below base.components (p.located base).components) :
    p.isBelow base = dir.isBelow base := by
  have hhead : (below base.components (p.located base).components).head? =
      (below base.components (dir.located base).components).head? := by
    obtain ⟨rest, hrest⟩ := h
    obtain ⟨step, more, hsteps⟩ := List.exists_cons_of_ne_nil hne
    rw [← hrest, hsteps]
    rfl
  have hnot {q r : Path} (hq : q.isBelow base = true) (hr : r.isBelow base = false) :
      (below base.components (q.located base).components).head? ≠
        (below base.components (r.located base).components).head? := by
    obtain ⟨-, hleft, hroot⟩ := below_of_not_below hr
    have hbase : base.components ≠ [] := by
      intro hnil
      rw [isBelow, startsWith, hnil, List.isPrefixOf_nil_left] at hr
      cases hr
    rw [hleft, hroot]
    exact fun hq' => (notMem_below hbase (startsWith_iff.mp hq)).1 (List.mem_of_head? hq')
  cases hp : p.isBelow base <;> cases hdir : dir.isBelow base
  case false.false => rfl
  case false.true => exact absurd hhead.symm (hnot hdir hp)
  case true.false => exact absurd hhead (hnot hp hdir)
  case true.true => rfl

/-- To compare what is left of a path with what is left of a directory is to ask what the directory shows. -/
theorem startsWith_relativeTo (p dir base : Path) :
    (p.relativeTo base).startsWith (dir.relativeTo base) = dir.shows p base := by
  have hdotted {q : Path} (h : q.keepsDot base = true) : q.isBelow base = true := by
    cases hout : q.isBelow base with
    | true => rfl
    | false => exact absurd h (Bool.eq_false_iff.mp (below_of_not_below hout).1)
  rw [Bool.eq_iff_iff, startsWith_iff, components_relativeTo, components_relativeTo, below_eq p, below_eq dir]
  simp only [shows, Bool.or_eq_true, Bool.and_eq_true, beq_iff_eq, isBase_iff, startsWith_iff]
  constructor
  · intro h
    cases hp : p.keepsDot base <;> cases hdir : dir.keepsDot base <;> rw [hp, hdir] at h
    case false.false =>
      by_cases hbase : below base.components (dir.located base).components = []
      · exact .inl ⟨hbase, rfl⟩
      · have hside := isBelow_eq_of_prefix hbase h
        exact .inr ⟨⟨(below_prefix_iff hside).mp h, hside⟩, rfl⟩
    case false.true => exact absurd (h.subset List.mem_cons_self) (here_notMem_below hdir p)
    case true.false =>
      refine .inl ⟨?_, rfl⟩
      rcases List.prefix_cons_iff.mp h with hnil | ⟨rest, hrest, -⟩
      · exact hnil
      · have hleft : below base.components (dir.located base).components = .here :: rest := hrest
        exact absurd (hleft ▸ List.mem_cons_self) (here_notMem_below hp dir)
    case true.true =>
      have hside : p.isBelow base = dir.isBelow base := (hdotted hp).trans (hdotted hdir).symm
      exact .inr ⟨⟨(below_prefix_iff hside).mp ((List.prefix_append_right_inj _).mp h), hside⟩, rfl⟩
  · rintro (⟨hnil, hdir⟩ | ⟨⟨hlies, hside⟩, hdots⟩)
    · rw [hnil, hdir]
      exact List.nil_prefix
    · rw [hdots]
      exact (List.prefix_append_right_inj _).mpr ((below_prefix_iff hside).mpr hlies)

/-- A directory that shows another shows all that is shown by it. -/
theorem shows_trans {inner : Path} (hinner : dir.shows inner base = true) (hp : inner.shows p base = true) :
    dir.shows p base = true := by
  rw [← startsWith_relativeTo, startsWith_iff] at hinner hp ⊢
  exact hinner.trans hp

/-- Spellings of one place that both keep a dot, or neither, show the same. -/
theorem shows_of_same {other : Path} (hplace : (dir.located base).same (other.located base) = true)
    (hdots : dir.keepsDot base = other.keepsDot base) (p : Path) : dir.shows p base = other.shows p base := by
  have hleft := same_relativeTo dir other base
  rw [hplace, hdots, beq_self_eq_true, Bool.and_true, same, beq_iff_eq] at hleft
  rw [← startsWith_relativeTo, ← startsWith_relativeTo, startsWith, startsWith, hleft]

/-- When a directory shows a path exactly if the path lies in it. -/
theorem shows_iff_liesIn_iff :
    (dir.shows p base = true ↔ (p.located base).startsWith (dir.located base) = true) ↔
      (dir.isBase base = true → p.isBelow base = true) ∧
      ((p.located base).startsWith (dir.located base) = true →
        dir.isBase base = true ∨ p.isBelow base = dir.isBelow base ∧ p.keepsDot base = dir.keepsDot base) := by
  rw [shows]
  cases hbase : dir.isBase base with
  | true =>
    -- whatever lies below the base lies in the directory, which is the base
    have hin : (p.located base).startsWith (dir.located base) = p.isBelow base := by
      have hsame := (Bool.and_eq_true_iff.mp hbase).1
      rw [isBelow, startsWith, startsWith, beq_iff_eq.mp hsame]
    simp only [hin, Bool.true_or, true_iff, forall_const, true_or, implies_true, and_true]
  | false =>
    simp only [Bool.false_or, Bool.and_eq_true, beq_iff_eq, Bool.false_eq_true, false_implies, false_or, true_and]
    constructor
    · intro h hin
      exact ⟨(h.mpr hin).1.2, (h.mpr hin).2⟩
    · intro h
      exact ⟨fun hshows => hshows.1.1, fun hin => ⟨⟨hin, (h hin).1⟩, (h hin).2⟩⟩

end Path

/-! ### Directories by their steps -/

namespace Files

variable (fs : Files)

def isDirectoryAt (place : List String) : Bool :=
  match fs.entry? place with
  | some .directory => true
  | _ => false

/-- From a place, the steps lead through directories to a directory. -/
def leadsTo (place : List String) : List PathComponent → Bool
  | [] => fs.isDirectoryAt place
  | .parent :: steps => fs.isDirectoryAt place && leadsTo place.dropLast steps
  | .named name :: steps => fs.isDirectoryAt place && leadsTo (place ++ [name]) steps
  | .root :: steps => leadsTo place steps
  | .here :: steps => leadsTo place steps

theorem leadsTo_of_not_directory {place : List String} (h : fs.isDirectoryAt place = false)
    (steps : List PathComponent) : fs.leadsTo place steps = false := by
  induction steps with
  | nil => exact h
  | cons step steps ih =>
    cases step with
    | root => exact ih
    | here => exact ih
    | parent => rw [leadsTo, h, Bool.false_and]
    | named name => rw [leadsTo, h, Bool.false_and]

/-- Only the steps that pieces name decide where they lead. -/
theorem any_follow (place : List String) (pieces : List String) :
    (fs.follow place pieces).toOption.any fs.isDirectoryAt = fs.leadsTo place (Path.body pieces) := by
  induction pieces generalizing place with
  | nil => rfl
  | cons piece rest ih =>
    rw [follow]
    split
    · next hentry =>
      have hat : fs.isDirectoryAt place = true := by rw [isDirectoryAt, hentry]
      by_cases hblank : Path.isBlank piece = true
      · have hbody : Path.body (piece :: rest) = Path.body rest := by simp [Path.body, hblank]
        rw [if_pos hblank, ih, hbody]
      · have hbody : Path.body (piece :: rest) = Path.component piece :: Path.body rest := by
          simp [Path.body, hblank]
        rw [if_neg hblank, hbody, Path.component]
        by_cases hparent : (piece == "..") = true
        · rw [if_pos hparent, if_pos hparent, ih, leadsTo, hat, Bool.true_and]
        · rw [if_neg hparent, if_neg hparent, leadsTo, hat, Bool.true_and]
          split
          · exact ih _
          · next hnone =>
            have hgone : fs.isDirectoryAt (place ++ [piece]) = false := by rw [isDirectoryAt, hnone]
            exact (fs.leadsTo_of_not_directory hgone _).symm
    · next hother =>
      have hat : fs.isDirectoryAt place = false := by
        rw [isDirectoryAt]
        split
        · next hentry => exact absurd hentry hother
        · rfl
      exact (fs.leadsTo_of_not_directory hat _).symm

theorem isDirectory_eq (p : Path) :
    fs.isDirectory p =
      (p.text != "" && fs.leadsTo (if p.isAbsolute then [] else fs.current) (Path.body p.pieces)) := by
  have hany : fs.isDirectory p = (fs.resolve p).toOption.any fs.isDirectoryAt := by
    rw [isDirectory]
    cases fs.resolve p <;> rfl
  rw [hany, resolve]
  by_cases hempty : p.text = ""
  · rw [hempty]
    rfl
  · rw [if_neg (by simpa using hempty), any_follow, bne_iff_ne.mpr hempty, Bool.true_and]

/-- However a path is spelled, the same directory is there or not. -/
theorem isDirectory_congr {p q : Path} (h : p.components = q.components) : fs.isDirectory p = fs.isDirectory q := by
  have htext {a b : Path} (hab : a.components = b.components) (ha : a.text = "") : b.text = "" :=
    Path.text_eq_empty_of_components (hab ▸ Path.components_of_text_eq_empty ha)
  have hempty : (p.text != "") = (q.text != "") := by
    rw [Bool.eq_iff_iff, bne_iff_ne, bne_iff_ne]
    exact not_congr ⟨htext h, htext h.symm⟩
  have habsolute : p.isAbsolute = q.isAbsolute := by
    rw [Bool.eq_iff_iff, Path.isAbsolute_iff, Path.isAbsolute_iff, h]
  rw [isDirectory_eq, isDirectory_eq, hempty, habsolute, Path.body_pieces, Path.body_pieces, h]

end Files

/-! ### Scopes -/

namespace Catalog

variable {c : Catalog}

/-- A condition on functions selects those of the catalog that meet it. -/
theorem mem_select_iff {condition : SourceFunction → Bool}
    (hcongr : ∀ {f g : SourceFunction}, compare f g = .eq → condition f = condition g) {f : SourceFunction} :
    (f ∈ c.select fun listing => condition listing.function) ↔ f ∈ c.whole ∧ condition f = true := by
  constructor
  · intro h
    obtain ⟨g, hg, hgf⟩ := mem_ofList_iff.mp h
    obtain ⟨listing, hlisting, rfl⟩ := List.mem_map.mp hg
    exact ⟨mem_select h, (hcongr hgf).symm.trans (List.mem_filter.mp hlisting).2⟩
  · rintro ⟨hwhole, hf⟩
    obtain ⟨g, hg, hgf⟩ := mem_whole.mp hwhole
    obtain ⟨listing, hlisting, rfl⟩ := List.mem_map.mp hg
    exact mem_ofList_iff.mpr ⟨_, List.mem_map_of_mem (List.mem_filter.mpr ⟨hlisting, (hcongr hgf).trans hf⟩), hgf⟩

/-- The functions of the catalog that a directory shows. -/
def Shown (c : Catalog) (dir : Path) (f : SourceFunction) : Prop := f ∈ c.whole ∧ dir.shows f.file c.root = true

theorem shows_congr {f g : SourceFunction} (h : compare f g = .eq) (dir base : Path) :
    dir.shows f.file base = dir.shows g.file base := by
  have hfile := Path.relativeTo_congr (SourceFunction.compare_eq_iff.mp h).2.2.1 base
  rw [← Path.startsWith_relativeTo, ← Path.startsWith_relativeTo, Path.startsWith, Path.startsWith,
    Path.compare_eq_iff.mp hfile]

theorem mem_shown {dir : Path} {f : SourceFunction} :
    (f ∈ c.select fun listing => dir.shows listing.function.file c.root) ↔ c.Shown dir f :=
  mem_select_iff fun h => shows_congr h dir c.root

/-- A directory has the functions it shows. If it shows none, it has to be there. -/
theorem inScope_directory (c : Catalog) (fs : Files) (dir : Path) :
    c.inScope fs.isDirectory (.directory dir) =
      if (c.select fun listing => dir.shows listing.function.file c.root).isEmpty &&
          !fs.isDirectory (dir.located c.root) then
        .error (.directoryNotFound (dir.relativeTo c.root))
      else .ok (c.select fun listing => dir.shows listing.function.file c.root) := by
  rw [← fs.isDirectory_congr (Path.components_join_relativeTo dir c.root)]
  simp only [inScope, relative, Path.startsWith_relativeTo]

theorem inScope_directory_eq_ok {fs : Files} {dir : Path} {found : Std.TreeSet SourceFunction}
    (h : c.inScope fs.isDirectory (.directory dir) = .ok found) (f : SourceFunction) :
    f ∈ found ↔ c.Shown dir f := by
  rw [inScope_directory] at h
  split at h
  · cases h
  · obtain rfl := Except.ok.inj h
    exact mem_shown

theorem inScope_directory_eq_error_iff {fs : Files} {dir : Path} {e : IndexError} :
    c.inScope fs.isDirectory (.directory dir) = .error e ↔
      e = .directoryNotFound (dir.relativeTo c.root) ∧ (∀ f, ¬ c.Shown dir f) ∧
        fs.isDirectory (dir.located c.root) = false := by
  have hempty : (c.select fun listing => dir.shows listing.function.file c.root).isEmpty = true ↔
      ∀ f, ¬ c.Shown dir f := by
    rw [Std.TreeSet.isEmpty_iff_forall_not_mem]
    exact forall_congr' fun f => not_congr mem_shown
  rw [inScope_directory]
  split
  · next hmissing =>
    rw [Bool.and_eq_true, hempty, Bool.not_eq_true'] at hmissing
    exact ⟨fun h => ⟨(Except.error.inj h).symm, hmissing⟩, fun h => congrArg _ h.1.symm⟩
  · next hthere =>
    rw [Bool.and_eq_true, hempty, Bool.not_eq_true'] at hthere
    exact iff_of_false (fun h => by cases h) fun h => hthere h.2

/-- The functions of a directory are those that it shows, and only a directory that shows none and is not there has no
answer. Directories that name one place and both keep a dot, or neither, have one answer; a directory that shows
another shows all that is shown by it. If the root is absolute or empty, a function is shown exactly if its file lies in
the directory when both are joined to the root, except for a function outside of the root when the directory is the
root, and for one in the directory that lies on another side of the root or keeps a dot differently. -/
theorem scope_of_directory (m : Manifest) (root : Path) (fs : Files) (dir : Path) :
    let c := ofManifest m root
    (∀ found, c.inScope fs.isDirectory (.directory dir) = .ok found → ∀ f, f ∈ found ↔ c.Shown dir f) ∧
    (∀ e, c.inScope fs.isDirectory (.directory dir) = .error e ↔
      e = .directoryNotFound (dir.relativeTo root) ∧ (∀ f, ¬ c.Shown dir f) ∧
        fs.isDirectory (dir.located root) = false) ∧
    (∀ other : Path, (dir.located root).same (other.located root) = true → dir.keepsDot root = other.keepsDot root →
      (c.inScope fs.isDirectory (.directory dir)).toOption =
        (c.inScope fs.isDirectory (.directory other)).toOption) ∧
    (∀ inner : Path, dir.shows inner root = true → ∀ f, c.Shown inner f → c.Shown dir f) ∧
    (root.isAbsolute = true ∨ root.text = "" →
      dir.located root = root.join dir ∧
      ∀ f ∈ c.whole, (c.Shown dir f ↔ (root.join f.file).startsWith (root.join dir) = true) ↔
        (dir.isBase root = true → f.file.isBelow root = true) ∧
        ((root.join f.file).startsWith (root.join dir) = true →
          dir.isBase root = true ∨
            f.file.isBelow root = dir.isBelow root ∧ f.file.keepsDot root = dir.keepsDot root)) := by
  intro c
  refine ⟨fun found h => inScope_directory_eq_ok h, fun e => inScope_directory_eq_error_iff, ?_, ?_, ?_⟩
  · intro other hplace hdots
    have hthere := fs.isDirectory_congr (beq_iff_eq.mp hplace)
    have hroot : c.root = root := rfl
    rw [inScope_directory, inScope_directory, hroot, hthere]
    simp only [Path.shows_of_same hplace hdots]
    split <;> rfl
  · rintro inner hinner f ⟨hwhole, hf⟩
    exact ⟨hwhole, Path.shows_trans hinner hf⟩
  · intro hroot
    refine ⟨Path.located_eq_join hroot dir, fun f hf => ?_⟩
    have hshown : c.Shown dir f ↔ dir.shows f.file root = true := and_iff_right hf
    rw [hshown, ← Path.located_eq_join hroot, ← Path.located_eq_join hroot]
    exact Path.shows_iff_liesIn_iff

/-- Two spellings of one directory. -/
theorem spellings_agree :
    let root : Path := ⟨"/work/project"⟩
    let m : Manifest := ⟨[⟨"run", "app::run", ⟨"src/./run.rs"⟩, none, "app", false, []⟩]⟩
    let c := ofManifest m root
    let fs := Files.emptyAt []
    let run : SourceFunction := ⟨"app::run", "run", ⟨"src/./run.rs"⟩, none⟩
    run ∈ c.whole ∧ (c.Shown ⟨"src//."⟩ run ↔ (root.join run.file).startsWith (root.join ⟨"src//."⟩) = true) ∧
      (c.inScope fs.isDirectory (.directory ⟨"src//."⟩)).toOption =
        (c.inScope fs.isDirectory (.directory ⟨"/work/project/src"⟩)).toOption := by
  intro root m c fs run
  have hrun : run ∈ c.whole := by decide +kernel
  obtain ⟨-, -, hspellings, -, hjoined⟩ := scope_of_directory m root fs ⟨"src//."⟩
  have hshown := (hjoined (.inl (by decide +kernel))).2 run hrun
  exact ⟨hrun, hshown.mpr ⟨by decide +kernel, by decide +kernel⟩,
    hspellings ⟨"/work/project/src"⟩ (by decide +kernel) (by decide +kernel)⟩

/-- How a directory is spelled decides what it shows. With a dot before it, a directory of the project does not show
the function in it; the root shows a function outside of it; and a directory above the root shows no function of the
project. -/
theorem spelling_decides_scope :
    let root : Path := ⟨"/work/project"⟩
    let run : SourceFunction := ⟨"app::run", "run", ⟨"src/run.rs"⟩, none⟩
    let log : SourceFunction := ⟨"lib::log", "log", ⟨"/work/lib/log.rs"⟩, none⟩
    let c := ofManifest ⟨[⟨"run", "app::run", ⟨"src/run.rs"⟩, none, "app", false, []⟩,
      ⟨"log", "lib::log", ⟨"/work/lib/log.rs"⟩, none, "lib", false, []⟩]⟩ root
    let scope (dir : Path) := (c.inScope (Files.emptyAt []).isDirectory (.directory dir)).toOption
    let liesIn (f : SourceFunction) (dir : Path) := (root.join f.file).startsWith (root.join dir)
    run ∈ c.whole ∧ log ∈ c.whole ∧
      (root.join ⟨"./src"⟩).same (root.join ⟨"src"⟩) = true ∧ liesIn run ⟨"./src"⟩ = true ∧
      (scope ⟨"src"⟩).map (·.contains run) = some true ∧ (scope ⟨"./src"⟩).isNone = true ∧
      liesIn log root = false ∧ (scope root).map (·.contains log) = some true ∧
      liesIn run ⟨"/work"⟩ = true ∧ (scope ⟨"/work"⟩).map (·.contains run) = some false := by
  decide +kernel

end Catalog

end CallChart
