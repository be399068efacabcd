import CallChart.Path.Located
import CallChart.Proofs.Sets
import CallChart.Versions
import Mathlib.Logic.Relation

/-! Edits that several callers record at once, and which of them an entry of the table counts. The table knows a file
by what is left of its path below the root, as the path is spelled. This tells the files apart, but for the dot that a
relative path may begin with: it stays in the name of the entry. -/
namespace CallChart

namespace FileVersions

variable (v : FileVersions)

theorem version_of_same {p q : Path} (h : (v.key p).same (v.key q) = true) : v.version p = v.version q := by
  rw [version, version, Std.TreeMap.getElem?_congr (Path.compare_eq_iff.mpr (beq_iff_eq.mp h))]

/-- A file is counted in the entry that its path has, and in no other. -/
theorem version_bump (file p : Path) :
    (v.bump file).version p = v.version p + if (v.key file).same (v.key p) then 1 else 0 := by
  have hkey : (v.bump file).key p = v.key p := rfl
  rw [version, hkey, bump, Std.TreeMap.getElem?_insert]
  by_cases h : (v.key file).same (v.key p) = true
  · rw [if_pos (Path.compare_eq_iff.mpr (beq_iff_eq.mp h)), if_pos h, Option.getD_some, v.version_of_same h]
  · rw [if_neg fun heq => h (beq_iff_eq.mpr (Path.compare_eq_iff.mp heq)), if_neg h]
    rfl

end FileVersions

/-- How far a bump has come. -/
inductive Bumping where
  | waiting
  /-- The entry of its file was counted up to a version. -/
  | counted (version : Nat)
  /-- The generation was counted up too, and the caller has the version. -/
  | returned (version : Nat)

namespace Bumping

/-- The version that the bump has produced. -/
def version? : Bumping → Option Nat
  | waiting => none
  | counted version => some version
  | returned version => some version

def isCounted (stage : Bumping) : Bool := stage.version?.isSome

def isReturned : Bumping → Bool
  | returned _ => true
  | _ => false

end Bumping

/-- The versions of files, and the bumps that were called so far, by however many callers. -/
structure Edits where
  versions : FileVersions
  bumps : List (Path × Bumping)

namespace Edits

/-- Nothing was edited yet. -/
def start (root : Path) : Edits := ⟨.start (some root), []⟩

/-- What can happen next. A bump counts the entry of its file up under the lock of that entry, and the generation
later. -/
inductive Step : Edits → Edits → Prop where
  | call {v : FileVersions} {bumps : List (Path × Bumping)} (file : Path) :
      Step ⟨v, bumps⟩ ⟨v, bumps ++ [(file, .waiting)]⟩
  | count {v : FileVersions} {before after : List (Path × Bumping)} {file : Path} :
      Step ⟨v, before ++ (file, .waiting) :: after⟩
        ⟨{ v with counts := (v.bump file).counts }, before ++ (file, .counted ((v.bump file).version file)) :: after⟩
  | tick {v : FileVersions} {before after : List (Path × Bumping)} {file : Path} {version : Nat} :
      Step ⟨v, before ++ (file, .counted version) :: after⟩
        ⟨{ v with generation := (v.bump file).generation }, before ++ (file, .returned version) :: after⟩

/-- A bump that is not disturbed. -/
def bump (e : Edits) (file : Path) : Edits :=
  ⟨e.versions.bump file, e.bumps ++ [(file, .returned ((e.versions.bump file).version file))]⟩

/-- A bump that is not disturbed is one of the ways in which things can happen. -/
theorem bump_reached (e : Edits) (file : Path) : Relation.ReflTransGen Step e (e.bump file) := by
  have hcalled : Step e ⟨e.versions, e.bumps ++ [(file, .waiting)]⟩ := .call file
  exact ((Relation.ReflTransGen.single hcalled).tail .count).tail .tick

/-- The versions that bumps of one entry have produced. -/
def produced (root : Path) (bumps : List (Path × Bumping)) (p : Path) : List Nat :=
  bumps.filterMap fun b => if (b.1.relativeTo root).same (p.relativeTo root) then b.2.version? else none

/-- What the table and the callers agree on: an entry hands out its versions one by one, and the generation is the
number of bumps that are over. -/
structure Tallied (root : Path) (e : Edits) : Prop where
  rooted : e.versions.root = some root
  numbered : ∀ p, (produced root e.bumps p).Perm (List.range' 1 (e.versions.version p))
  generation : e.versions.generation = e.bumps.countP fun b => b.2.isReturned

variable {root : Path} {e e' : Edits}

theorem Tallied.key (h : Tallied root e) (p : Path) : e.versions.key p = p.relativeTo root := by
  rw [FileVersions.key, h.rooted]

theorem tallied_start (root : Path) : Tallied root (start root) := by
  have hversion (p : Path) : (start root).versions.version p = 0 := by
    rw [start, FileVersions.version, FileVersions.start, Std.TreeMap.getElem?_emptyc]
    rfl
  refine ⟨rfl, fun p => ?_, rfl⟩
  rw [hversion]
  exact .refl _

theorem produced_append (root : Path) (before after : List (Path × Bumping)) (p : Path) :
    produced root (before ++ after) p = produced root before p ++ produced root after p := List.filterMap_append

theorem produced_cons (root file : Path) (stage : Bumping) (after : List (Path × Bumping)) (p : Path) :
    produced root ((file, stage) :: after) p =
      (if (file.relativeTo root).same (p.relativeTo root) then stage.version?.toList else []) ++
        produced root after p := by
  rw [produced, List.filterMap_cons]
  split
  · next h => cases hversion : stage.version? <;> simp_all [produced]
  · next h => simp_all [produced]

/-- The version that is counted up to is the next one of the entry. -/
theorem Tallied.numbered_count {v : FileVersions} {before after : List (Path × Bumping)} {file : Path}
    (h : Tallied root ⟨v, before ++ (file, .waiting) :: after⟩) (p : Path) :
    (produced root (before ++ (file, .counted ((v.bump file).version file)) :: after) p).Perm
      (List.range' 1 ((v.bump file).version p)) := by
  have hold := h.numbered p
  have hcount := v.version_bump file p
  rw [h.key, h.key] at hcount
  rw [produced_append, produced_cons] at hold ⊢
  by_cases hsame : (file.relativeTo root).same (p.relativeTo root) = true
  · have hfile : (v.bump file).version file = (v.bump file).version p := by
      refine (v.bump file).version_of_same ?_
      change (v.key file).same (v.key p) = true
      rwa [h.key, h.key]
    rw [if_pos hsame] at hold hcount ⊢
    rw [hfile, hcount, List.range'_1_concat, Nat.add_comm 1]
    exact List.perm_middle.trans ((hold.cons _).trans (List.perm_append_singleton _ _).symm)
  · rw [if_neg hsame] at hold hcount ⊢
    rw [hcount]
    exact hold

/-- Whatever happens next, the agreement lasts. -/
theorem Tallied.step (h : Tallied root e) (hstep : Step e e') : Tallied root e' := by
  cases hstep with
  | call file =>
    refine ⟨h.rooted, fun p => ?_, ?_⟩
    · rw [produced_append, produced_cons]
      simpa [Bumping.version?, produced] using h.numbered p
    · rw [List.countP_append, ← h.generation]
      rfl
  | @count v before after file =>
    refine ⟨h.rooted, h.numbered_count, ?_⟩
    have hold : v.generation = _ := h.generation
    rw [List.countP_append, List.countP_cons] at hold ⊢
    exact hold
  | @tick v before after file version =>
    refine ⟨h.rooted, fun p => ?_, ?_⟩
    · have hold := h.numbered p
      rw [produced_append, produced_cons] at hold ⊢
      exact hold
    · have hold : v.generation = _ := h.generation
      rw [List.countP_append, List.countP_cons] at hold ⊢
      change v.generation + 1 = _
      rw [hold]
      simp [Bumping.isReturned]
      omega

theorem Tallied.run (h : Tallied root e) (hrun : Relation.ReflTransGen Step e e') : Tallied root e' := by
  induction hrun with
  | refl => exact h
  | tail _ hstep ih => exact ih.step hstep

/-- The version of a path is the number of bumps that were counted in its entry. -/
theorem Tallied.version_eq (h : Tallied root e) (p : Path) :
    e.versions.version p =
      e.bumps.countP fun b => (b.1.relativeTo root).same (p.relativeTo root) && b.2.isCounted := by
  have hlength := (h.numbered p).length_eq
  rw [List.length_range', produced, List.length_filterMap_eq_countP] at hlength
  refine hlength.symm.trans (List.countP_congr fun b _ => ?_)
  cases (b.1.relativeTo root).same (p.relativeTo root) <;> simp [Bumping.isCounted]

/-- In every order in which bumps follow each other, the generation is the number of bumps that are over, each entry
hands out its versions one by one, and the version of a path is the number of bumps of its file, up to the dot that some
paths keep: so it is the number of bumps of all files that are the same when they are joined to the root, if the root is
absolute or empty and no path begins with a dot. A bump that is not disturbed is one of these orders, and the version
that it hands out is the next one of its file. -/
theorem version_counts_file (h : Relation.ReflTransGen Step (start root) e) :
    (e.versions.generation = e.bumps.countP fun b => b.2.isReturned) ∧
    (∀ p, (produced root e.bumps p).Perm (List.range' 1 (e.versions.version p))) ∧
    (∀ p, e.versions.version p = e.bumps.countP fun b =>
      ((b.1.located root).same (p.located root) && b.1.keepsDot root == p.keepsDot root) && b.2.isCounted) ∧
    (root.isAbsolute = true ∨ root.text = "" → ∀ p, p.isDotted = false → (∀ b ∈ e.bumps, b.1.isDotted = false) →
      e.versions.version p = e.bumps.countP fun b => (root.join b.1).same (root.join p) && b.2.isCounted) ∧
    ∀ file, Relation.ReflTransGen Step (start root) (e.bump file) ∧
      (e.versions.bump file).version file = e.versions.version file + 1 := by
  have htallied := (tallied_start root).run h
  have hversion (p : Path) := htallied.version_eq p
  simp only [Path.same_relativeTo] at hversion
  refine ⟨htallied.generation, htallied.numbered, hversion, ?_, fun file => ⟨h.trans (e.bump_reached file), ?_⟩⟩
  · intro hroot p hp hbumps
    refine (hversion p).trans (List.countP_congr fun b hb => ?_)
    rw [Path.located_eq_join hroot, Path.located_eq_join hroot, Path.keepsDot, Path.keepsDot, hp, hbumps b hb,
      Bool.false_and, Bool.false_and, beq_self_eq_true, Bool.and_true]
  · have hsame : (e.versions.key file).same (e.versions.key file) = true := beq_self_eq_true _
    rw [FileVersions.version_bump, if_pos hsame]

/-- Two bumps of one file in two spellings, the halves of which follow each other crosswise. -/
theorem crossed_bumps_counted :
    let root : Path := ⟨"/work/project"⟩
    ∃ e, Relation.ReflTransGen Step (start root) e ∧
      (e.bumps.map fun b => b.1.text) = ["/work/project/src/main.rs", "src//./main.rs"] ∧
      e.versions.generation = 2 ∧ e.versions.version ⟨"src/main.rs"⟩ = 2 ∧
      (produced root e.bumps ⟨"src/main.rs"⟩).Perm [1, 2] := by
  intro root
  have hcalled : Relation.ReflTransGen Step (start root) _ :=
    (Relation.ReflTransGen.refl.tail (.call ⟨"/work/project/src/main.rs"⟩)).tail (.call ⟨"src//./main.rs"⟩)
  have hcounted := (hcalled.tail (@Step.count _ [_] [] _)).tail (@Step.count _ [] [_] _)
  have hticked := (hcounted.tail (@Step.tick _ [] [_] _ _)).tail (@Step.tick _ [_] [] _ _)
  obtain ⟨hgeneration, hproduced, -, hjoined, -⟩ := version_counts_file hticked
  have hversion : _ = 2 :=
    (hjoined (.inl (by decide +kernel)) ⟨"src/main.rs"⟩ (by decide +kernel) (by decide +kernel)).trans
      (by decide +kernel)
  have htwo := hproduced ⟨"src/main.rs"⟩
  rw [hversion] at htwo
  exact ⟨_, hticked, rfl, hgeneration, hversion, htwo⟩

/-- A dot before a path is not seen through: the file was edited once, and under this spelling of it nothing is known
of that. -/
theorem dotted_spelling_missed :
    let root : Path := ⟨"/work/project"⟩
    let edited : Path := ⟨"/work/project/src/main.rs"⟩
    let listed : Path := ⟨"./src/main.rs"⟩
    let versions := (FileVersions.start (some root)).bump edited
    ([edited].countP fun file => (root.join file).same (root.join listed)) = 1 ∧
      versions.generation = 1 ∧ versions.version listed = 0 := by
  decide +kernel

end Edits
end CallChart
