import CallChart.Proofs.FileEdits
import CallChart.Watch

/-! What is heard of changes below a watched directory. A change is counted as an edit right before it is told, so
whoever hears of it finds exactly the changes told so far among the versions. The names that make a path ignored are
looked for in all of it, and so also in the way to the watched directory: below a directory with such a name nothing is
heard. -/
namespace CallChart

/-! ### Ignored paths -/

namespace Watch

/-- A step to a directory in which changes are ignored. -/
def ignores : PathComponent → Bool
  | .named name => ignoredNames.contains name
  | _ => false

theorem isIgnored_eq (p : Path) : isIgnored p = p.components.any ignores := rfl

variable {root p : Path}

/-- The steps to a path below a directory are those to the directory and those that are left. -/
theorem components_below (h : p.startsWith root = true) :
    p.components = root.components ++ (p.relativeTo root).components := by
  obtain ⟨rest, hrest⟩ := Path.startsWith_iff.mp h
  rw [Path.components_relativeTo, ← hrest, Path.below_append]

/-- A path is ignored for the way to the directory or for the way below it. -/
theorem isIgnored_below (h : p.startsWith root = true) :
    isIgnored p = (isIgnored root || isIgnored (p.relativeTo root)) := by
  rw [isIgnored_eq, components_below h, List.any_append]
  rfl

/-- The path lies inside of an ignored directory below the root. -/
def isInside (root p : Path) : Bool := (p.relativeTo root).components.dropLast.any ignores

/-- The path is itself called like an ignored directory. -/
def isNamesake (root p : Path) : Bool := (p.relativeTo root).components.getLast?.any ignores

theorem isIgnored_relativeTo (root p : Path) :
    isIgnored (p.relativeTo root) = (isInside root p || isNamesake root p) := by
  rw [isIgnored_eq, isInside, isNamesake]
  rcases List.eq_nil_or_concat (p.relativeTo root).components with h | ⟨steps, last, h⟩ <;> rw [h]
  · rfl
  · rw [List.concat_eq_append, List.any_append, List.dropLast_concat, List.getLast?_concat]
    simp

end Watch

/-! ### Counted edits -/

namespace FileVersions

/-- The versions after edits of some files. -/
def bumpAll (v : FileVersions) (files : List Path) : FileVersions := files.foldl bump v

variable {v : FileVersions}

theorem bumpAll_concat (files : List Path) (file : Path) :
    v.bumpAll (files ++ [file]) = (v.bumpAll files).bump file := by
  rw [bumpAll, List.foldl_append]
  rfl

theorem generation_bumpAll (files : List Path) : (v.bumpAll files).generation = v.generation + files.length := by
  induction files generalizing v with
  | nil => rfl
  | cons file files ih =>
    refine (ih (v := v.bump file)).trans ?_
    have hbump : (v.bump file).generation = v.generation + 1 := rfl
    rw [hbump, List.length_cons]
    omega

/-- Edits of other files leave the version of a file alone, and each of its own counts. -/
theorem version_bumpAll (files : List Path) (q : Path) :
    (v.bumpAll files).version q = v.version q + files.countP fun file => (v.key file).same (v.key q) := by
  induction files generalizing v with
  | nil => rfl
  | cons file files ih =>
    have hkey (p : Path) : (v.bump file).key p = v.key p := rfl
    have hversion := v.version_bump file q
    have hrest := ih (v := v.bump file)
    simp only [hkey] at hrest
    rw [List.countP_cons]
    exact hrest.trans (by omega)

end FileVersions

/-! ### A watcher at work -/

namespace FileReport

/-- The changes that a report tells of, ignored or not. -/
def changes (report : FileReport) : List Change :=
  match report.kind with
  | some kind => report.paths.map fun p => ⟨kind, p⟩
  | none => []

theorem changes_filter (report : FileReport) :
    Watch.changes report = report.changes.filter fun change => !Watch.isIgnored change.path := by
  rw [Watch.changes, changes]
  cases report.kind with
  | none => rfl
  | some kind =>
    rw [List.filter_map]
    rfl

end FileReport

/-- The versions that a watcher keeps, and the changes it has told of, each with the versions at the moment it was
told. -/
structure Watcher where
  versions : FileVersions
  told : List (Change × FileVersions)

namespace Watcher

variable {v : FileVersions} {w : Watcher} {reports : List FileReport}

/-- Acts on one change. -/
def take (w : Watcher) (change : Change) : Watcher :=
  if Watch.isIgnored change.path then w
  else ⟨w.versions.bump change.path, w.told ++ [(change, w.versions.bump change.path)]⟩

def happened (reports : List FileReport) : List Change := reports.flatMap FileReport.changes

/-- A watcher that has acted on the changes of some reports, one after the other. -/
def watch (v : FileVersions) (reports : List FileReport) : Watcher := (happened reports).foldl take ⟨v, []⟩

def heard (w : Watcher) : List Change := w.told.map Prod.fst

/-- What the watcher counts are the changes that it tells of, each before it is told. -/
structure Accurate (v : FileVersions) (w : Watcher) : Prop where
  versions : w.versions = v.bumpAll (w.heard.map Change.path)
  moment {n : Nat} {change : Change} {moment : FileVersions} : w.told[n]? = some (change, moment) →
    moment = v.bumpAll ((w.heard.take (n + 1)).map Change.path)

theorem Accurate.take (h : Accurate v w) (change : Change) : Accurate v (w.take change) := by
  unfold Watcher.take
  split
  · exact h
  · have hheard : (⟨w.versions.bump change.path, w.told ++ [(change, w.versions.bump change.path)]⟩ : Watcher).heard =
        w.heard ++ [change] := List.map_append
    have hall : w.versions.bump change.path = v.bumpAll ((w.heard ++ [change]).map Change.path) := by
      rw [List.map_append, List.map_singleton, FileVersions.bumpAll_concat, ← h.versions]
    refine ⟨hheard ▸ hall, fun {n other moment} htold => ?_⟩
    rw [hheard]
    have hlength : w.heard.length = w.told.length := List.length_map _
    rcases Nat.lt_trichotomy n w.told.length with hn | rfl | hn
    · rw [List.getElem?_append_left hn] at htold
      rw [h.moment htold, List.take_append_of_le_length (by omega)]
    · rw [List.getElem?_concat_length] at htold
      obtain ⟨-, rfl⟩ := Prod.mk.inj (Option.some.inj htold)
      rw [hall, List.take_of_length_le (by simp [hlength])]
    · rw [List.getElem?_eq_none (by simp; omega)] at htold
      cases htold

theorem Accurate.foldl (h : Accurate v w) (changes : List Change) : Accurate v (changes.foldl Watcher.take w) := by
  induction changes generalizing w with
  | nil => exact h
  | cons change changes ih => exact ih (h.take change)

theorem accurate_watch (v : FileVersions) (reports : List FileReport) : Accurate v (watch v reports) :=
  Accurate.foldl ⟨rfl, fun h => by cases h⟩ _

theorem heard_foldl (changes : List Change) (w : Watcher) :
    (changes.foldl Watcher.take w).heard = w.heard ++ changes.filter fun change => !Watch.isIgnored change.path := by
  induction changes generalizing w with
  | nil => exact (List.append_nil _).symm
  | cons change changes ih =>
    rw [List.foldl_cons, ih, Watcher.take, List.filter_cons]
    cases Watch.isIgnored change.path with
    | true => rfl
    | false => simp [heard]

theorem heard_watch (v : FileVersions) (reports : List FileReport) :
    (watch v reports).heard = (happened reports).filter fun change => !Watch.isIgnored change.path :=
  heard_foldl _ _

/-- All reports at once come to the same as one change after the other. -/
theorem noticeAll_eq (reports : List FileReport) (v : FileVersions) :
    Watch.noticeAll reports v = ((watch v reports).heard, (watch v reports).versions) := by
  rw [(accurate_watch v reports).versions, heard_watch]
  induction reports generalizing v with
  | nil => rfl
  | cons report reports ih =>
    have hfirst : (Watch.changes report).foldl (fun versions change => versions.bump change.path) v =
        v.bumpAll ((Watch.changes report).map Change.path) := by
      rw [FileVersions.bumpAll, List.foldl_map]
    have hstep : Watch.noticeAll (report :: reports) v =
        (Watch.changes report ++
            (Watch.noticeAll reports (v.bumpAll ((Watch.changes report).map Change.path))).1,
          (Watch.noticeAll reports (v.bumpAll ((Watch.changes report).map Change.path))).2) := by
      rw [← hfirst]
      rfl
    rw [hstep, ih, happened, happened, List.flatMap_cons, List.filter_append, ← report.changes_filter, List.map_append,
      FileVersions.bumpAll, FileVersions.bumpAll, FileVersions.bumpAll, List.foldl_append]

/-! ### What is heard below a directory -/

section Below

variable {root : Path} {changes : List Change}

theorem mem_happened {change : Change} :
    change ∈ happened reports ↔
      ∃ report ∈ reports, report.kind = some change.kind ∧ change.path ∈ report.paths := by
  rw [happened, List.mem_flatMap]
  refine exists_congr fun report => and_congr_right fun _ => ?_
  obtain ⟨kind, p⟩ := change
  unfold FileReport.changes
  split
  · next other hkind =>
    rw [hkind, List.mem_map, Option.some.injEq]
    constructor
    · rintro ⟨_, hp, heq⟩
      obtain ⟨rfl, rfl⟩ := Change.mk.inj heq
      exact ⟨rfl, hp⟩
    · rintro ⟨rfl, hp⟩
      exact ⟨p, hp, rfl⟩
  · next hkind => simp [hkind]

/-- The changes that are not inside of an ignored directory below the root. -/
def outside (root : Path) (changes : List Change) : List Change :=
  changes.filter fun change => !Watch.isInside root change.path

theorem filter_isIgnored (h : ∀ change ∈ changes, change.path.startsWith root = true) :
    (changes.filter fun change => !Watch.isIgnored change.path) =
      changes.filter fun change => !(Watch.isIgnored root || Watch.isIgnored (change.path.relativeTo root)) :=
  List.filter_congr fun change hchange => by rw [Watch.isIgnored_below (h change hchange)]

theorem filter_isIgnored_eq_outside_iff (h : ∀ change ∈ changes, change.path.startsWith root = true) :
    (changes.filter fun change => !Watch.isIgnored change.path) = outside root changes ↔
      ∀ change ∈ outside root changes,
        Watch.isIgnored root = false ∧ Watch.isNamesake root change.path = false := by
  have hkept : (changes.filter fun change => !Watch.isIgnored change.path) =
      (outside root changes).filter fun change => !(Watch.isIgnored root || Watch.isNamesake root change.path) := by
    rw [filter_isIgnored h, outside, List.filter_filter]
    refine List.filter_congr fun change _ => ?_
    rw [Watch.isIgnored_relativeTo]
    generalize Watch.isNamesake root change.path = namesake
    cases Watch.isIgnored root <;> cases Watch.isInside root change.path <;> cases namesake <;> rfl
  rw [hkept, List.filter_eq_self]
  simp

/-- Edits below the root count for the files that they are edits of. -/
theorem version_bumpAll_below (hv : v.root = some root) (h : ∀ change ∈ changes, change.path.startsWith root = true)
    (q : Path) :
    (v.bumpAll (changes.map Change.path)).version q = v.version q + changes.countP fun change =>
      change.path.same (q.located root) && !q.keepsDot root := by
  rw [FileVersions.version_bumpAll, List.countP_map]
  refine congrArg _ (List.countP_congr fun change hchange => ?_)
  have hstarts := h change hchange
  simp only [Function.comp_apply, FileVersions.key, hv, Path.same_relativeTo]
  rw [Path.located, Path.keepsDot, if_pos hstarts, hstarts, Bool.not_true, Bool.and_false, Bool.false_beq]

end Below

end Watcher

/-- Below a watched directory the paths heard of are those of the changes, in their order, that neither the way to the
directory nor a step below it makes ignored. So nothing is heard if the directory lies in an ignored one, and otherwise
the changes inside of ignored directories are left out, and those of their namesakes. A change that is heard was counted
once before, and at that moment as at the end no version differs from the first ones but by the changes heard so far. -/
theorem Watcher.heard_and_counted {root : Path} {v : FileVersions} (reports : List FileReport) (hv : v.root = some root)
    (hreports : ∀ report ∈ reports, ∀ p ∈ report.paths, p.startsWith root = true) :
    Watch.noticeAll reports v = ((watch v reports).heard, (watch v reports).versions) ∧
      (Watch.isIgnored root = true → (watch v reports).heard = [] ∧ (watch v reports).versions = v) ∧
      (Watch.isIgnored root = false → (watch v reports).heard =
        (happened reports).filter fun change => !Watch.isIgnored (change.path.relativeTo root)) ∧
      ((watch v reports).heard = outside root (happened reports) ↔
        ∀ change ∈ outside root (happened reports),
          Watch.isIgnored root = false ∧ Watch.isNamesake root change.path = false) ∧
      (∀ n change moment, (watch v reports).told[n]? = some (change, moment) →
        moment.generation = v.generation + (n + 1) ∧
        ∀ q, moment.version q = v.version q + ((watch v reports).heard.take (n + 1)).countP fun change =>
          change.path.same (q.located root) && !q.keepsDot root) ∧
      (∀ q, (watch v reports).versions.version q = v.version q + (watch v reports).heard.countP fun change =>
        change.path.same (q.located root) && !q.keepsDot root) := by
  have hheard := heard_watch v reports
  have haccurate := accurate_watch v reports
  have hbelow : ∀ change ∈ happened reports, change.path.startsWith root = true := by
    intro change hchange
    obtain ⟨report, hreport, -, hp⟩ := mem_happened.mp hchange
    exact hreports report hreport _ hp
  have hsub : ∀ change ∈ (watch v reports).heard, change.path.startsWith root = true := by
    rw [hheard]
    exact fun change hchange => hbelow change (List.mem_filter.mp hchange).1
  refine ⟨noticeAll_eq reports v, fun hroot => ?_, fun hroot => ?_, ?_, fun n change moment htold => ?_, ?_⟩
  · have hnone : (watch v reports).heard = [] := by
      rw [hheard, filter_isIgnored hbelow, hroot]
      exact List.filter_eq_nil_iff.mpr fun _ _ => by simp
    refine ⟨hnone, ?_⟩
    rw [haccurate.versions, hnone]
    rfl
  · rw [hheard, filter_isIgnored hbelow, hroot]
    simp only [Bool.false_or]
  · rw [hheard]
    exact filter_isIgnored_eq_outside_iff hbelow
  · have hlength : n < (watch v reports).heard.length := by
      rw [heard, List.length_map]
      exact (List.getElem?_eq_some_iff.mp htold).1
    rw [haccurate.moment htold]
    refine ⟨?_, version_bumpAll_below hv fun change hchange => hsub change (List.mem_of_mem_take hchange)⟩
    rw [FileVersions.generation_bumpAll, List.length_map, List.length_take, Nat.min_eq_left hlength]
  · rw [haccurate.versions]
    exact version_bumpAll_below hv hsub

/-- Reports on a project: of several paths, of no change, and of changes that are left out. -/
theorem Watcher.left_out_and_counted :
    let root : Path := ⟨"/work/project"⟩
    let reports : List FileReport :=
      [⟨some .created, [⟨"/work/project/src/a.rs"⟩, ⟨"/work/project/target/a.o"⟩, ⟨"/work/project/.git/HEAD"⟩]⟩,
        ⟨none, [⟨"/work/project/src/b.rs"⟩]⟩,
        ⟨some .removed, [⟨"/work/project/web/node_modules/x.js"⟩, ⟨"/work/project/src//a.rs"⟩]⟩]
    let w := watch ((FileVersions.start (some root)).bump ⟨"src/b.rs"⟩) reports
    (w.heard.map fun change => (change.kind, change.path.text)) =
        [(.created, "/work/project/src/a.rs"), (.removed, "/work/project/src//a.rs")] ∧
      w.versions.version ⟨"src/a.rs"⟩ = 2 ∧ w.versions.version ⟨"src/b.rs"⟩ = 1 := by
  intro root reports w
  obtain ⟨-, -, hheard, -, -, hversion⟩ :=
    Watcher.heard_and_counted (v := (FileVersions.start (some root)).bump ⟨"src/b.rs"⟩) reports rfl (by decide +kernel)
  rw [hversion, hversion, hheard (by decide +kernel)]
  decide +kernel

/-- Nothing is heard of a project below a directory called target, whatever changes in it; and of a file of that name
nothing is heard in any project. -/
theorem Watcher.project_below_target_unwatched :
    let below : Path := ⟨"/work/target/project"⟩
    let beside : Path := ⟨"/work/project"⟩
    let source : Path := ⟨"/work/target/project/src/main.rs"⟩
    let file : Path := ⟨"/work/project/src/target"⟩
    (source.startsWith below = true ∧ Watch.isIgnored (source.relativeTo below) = false ∧
        (watch (.start (some below)) [⟨some .modified, [source]⟩]).heard.length = 0 ∧
        (watch (.start (some below)) [⟨some .modified, [source]⟩]).versions.version source = 0) ∧
      (file.startsWith beside = true ∧ Watch.isInside beside file = false ∧
        (watch (.start (some beside)) [⟨some .created, [file]⟩]).heard.length = 0 ∧
        (watch (.start (some beside)) [⟨some .created, [file]⟩]).versions.version file = 0) := by
  decide +kernel

end CallChart
