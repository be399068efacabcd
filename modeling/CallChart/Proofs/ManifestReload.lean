import CallChart.CommandLine.Watching
import CallChart.Proofs.Steps
import CallChart.Proofs.WatchedChanges

/-! What a watch does about a changed manifest. The files are asked what the manifest holds now, and what they give
comes into use as a whole, index and request together, or not at all. It does not come into use if some change in the
batch was the removal of the manifest, though the manifest may be there again. -/
namespace CallChart.CommandLine.Watching

section Batches

variable {fs : Files} {launch : Launcher} {manifest : Path} {options : BuildOptions} {heard : List Change}
  {w : Watching}

/-! ### One batch -/

/-- Some change is a change of the manifest. -/
def Touches (manifest : Path) (heard : List Change) : Prop := ∃ change ∈ heard, change.path.same manifest = true

/-- Some change is the removal of the manifest. -/
def Removes (manifest : Path) (heard : List Change) : Prop :=
  ∃ change ∈ heard, change.kind = .removed ∧ change.path.same manifest = true

/-- The manifest, as it is now, gives an index and a request that is looked up in it. -/
def Offers (fs : Files) (manifest : Path) (options : BuildOptions) (catalog : Catalog)
    (request : BuildRequest SourceFunction) : Prop :=
  Catalog.load fs manifest = .ok catalog ∧ buildRequest catalog options = .ok request

/-- What the next build works with. -/
def inUse (w : Watching) : Catalog × BuildRequest SourceFunction := (w.catalog, w.request)

def use (w : Watching) (fresh : Catalog × BuildRequest SourceFunction) : Watching :=
  { w with catalog := fresh.1, request := fresh.2 }

/-- The watch with what the manifest gives now, if it gives anything. -/
def refreshed (fs : Files) (w : Watching) : Watching :=
  match Catalog.load fs w.manifest with
  | .ok catalog =>
    match buildRequest catalog w.options with
    | .ok request => w.use (catalog, request)
    | .error _ => w
  | .error _ => w

theorem any_removed_iff :
    (heard.any fun change => change.kind == .removed && change.path.same manifest) = true ↔ Removes manifest heard := by
  simp [Removes]

theorem reload_of_removes (h : Removes manifest heard) : reload fs manifest options heard = none :=
  if_pos (any_removed_iff.mpr h)

theorem reload_eq_some_iff {catalog : Catalog} {request : BuildRequest SourceFunction} :
    reload fs manifest options heard = some (catalog, request) ↔
      ¬ Removes manifest heard ∧ Offers fs manifest options catalog request := by
  rw [reload, ← any_removed_iff, Offers]
  split
  · next h => simp [h]
  · next h =>
    rw [and_iff_right h]
    split
    · next error hload => simp [hload]
    · next found hload =>
      rw [hload, Except.ok.injEq]
      split
      · next error hrequest =>
        refine iff_of_false (fun h => by cases h) ?_
        rintro ⟨rfl, hok⟩
        rw [hrequest] at hok
        cases hok
      · next made hrequest =>
        rw [Option.some.injEq, Prod.mk.injEq]
        refine and_congr_right ?_
        rintro rfl
        rw [hrequest, Except.ok.injEq]

theorem reload_eq_none_iff :
    reload fs manifest options heard = none ↔
      Removes manifest heard ∨ ∀ catalog request, ¬ Offers fs manifest options catalog request := by
  rw [Option.eq_none_iff_forall_ne_some, Classical.or_iff_not_imp_left]
  constructor
  · intro h hkept catalog request hoffers
    exact h (catalog, request) (reload_eq_some_iff.mpr ⟨hkept, hoffers⟩)
  · rintro h ⟨catalog, request⟩ hreload
    obtain ⟨hkept, hoffers⟩ := reload_eq_some_iff.mp hreload
    exact h hkept catalog request hoffers

/-- A batch is answered by what the reload gives, and what it does not give stays as it was. -/
theorem hear_eq (h : Touches w.manifest heard) :
    w.hear fs heard = ((reload fs w.manifest w.options heard).map w.use).getD w := by
  rw [hear, if_pos (List.any_eq_true.mpr h)]
  cases reload fs w.manifest w.options heard with
  | none => rfl
  | some fresh => rfl

theorem refreshed_of_offers {catalog : Catalog} {request : BuildRequest SourceFunction}
    (h : Offers fs w.manifest w.options catalog request) : w.refreshed fs = w.use (catalog, request) := by
  rw [refreshed, h.1]
  dsimp only
  rw [h.2]

theorem refreshed_of_not_offers (h : ∀ catalog request, ¬ Offers fs w.manifest w.options catalog request) :
    w.refreshed fs = w := by
  unfold refreshed
  split
  · next catalog hload =>
    split
    · next request hrequest => exact absurd ⟨hload, hrequest⟩ (h catalog request)
    · rfl
  · rfl

theorem hear_of_kept (h : Touches w.manifest heard) (hkept : ¬ Removes w.manifest heard) :
    w.hear fs heard = w.refreshed fs := by
  rw [hear_eq h]
  by_cases hoffers : ∃ catalog request, Offers fs w.manifest w.options catalog request
  · obtain ⟨catalog, request, hoffers⟩ := hoffers
    rw [reload_eq_some_iff.mpr ⟨hkept, hoffers⟩, refreshed_of_offers hoffers]
    rfl
  · have hnone : ∀ catalog request, ¬ Offers fs w.manifest w.options catalog request :=
      fun catalog request h => hoffers ⟨catalog, request, h⟩
    rw [reload_eq_none_iff.mpr (.inr hnone), refreshed_of_not_offers hnone]
    rfl

theorem hear_of_removes (h : Touches w.manifest heard) (hremoves : Removes w.manifest heard) : w.hear fs heard = w := by
  rw [hear_eq h, reload_of_removes hremoves]
  rfl

end Batches

/-! ### A whole watch -/

/-- The files after a batch of changes, and what was reported of them. -/
structure Batch where
  files : Files
  reports : List FileReport

namespace Batch

def heard (b : Batch) : List Change := (Watcher.happened b.reports).filter fun change => !Watch.isIgnored change.path

/-- What a batch brings into use. -/
def brings (b : Batch) (manifest : Path) (options : BuildOptions) : Option (Catalog × BuildRequest SourceFunction) :=
  if b.heard.any fun change => change.path.same manifest then reload b.files manifest options b.heard else none

end Batch

section Runs

variable {fs : Files} {launch : Launcher} {root : Path} {options : BuildOptions} {w : Watching}

/-- The watch after some batches. -/
def run (launch : Launcher) (w : Watching) (batches : List Batch) : Watching :=
  batches.foldl (fun w b => (w.react b.files launch b.reports).2) w

theorem notice_eq (w : Watching) (b : Batch) :
    w.notice b.reports = (b.heard,
      { w with builder.floor.versions := (Watcher.watch w.builder.floor.versions b.reports).versions }) := by
  rw [notice, Watcher.noticeAll_eq, Watcher.heard_watch]
  rfl

/-- What a watch was started with stays, and what is in use is what the batch brings, or else what was in use before. -/
theorem react_keeps (launch : Launcher) (w : Watching) (b : Batch) :
    (w.react b.files launch b.reports).2.manifest = w.manifest ∧
      (w.react b.files launch b.reports).2.options = w.options ∧
      (w.react b.files launch b.reports).2.inUse = (b.brings w.manifest w.options).getD w.inUse := by
  rw [react, notice_eq]
  dsimp only
  split
  · next hempty =>
    rw [Batch.brings, List.isEmpty_iff.mp hempty]
    exact ⟨rfl, rfl, rfl⟩
  · rw [hear, Batch.brings]
    dsimp only
    split
    · cases reload b.files w.manifest w.options b.heard with
      | none => exact ⟨rfl, rfl, rfl⟩
      | some fresh => exact ⟨rfl, rfl, rfl⟩
    · exact ⟨rfl, rfl, rfl⟩

/-- What is in use is what was brought last. -/
theorem inUse_run (launch : Launcher) (w : Watching) (batches : List Batch) :
    (w.run launch batches).inUse =
      ((batches.filterMap fun b => b.brings w.manifest w.options).getLast?).getD w.inUse := by
  induction batches generalizing w with
  | nil => rfl
  | cons b batches ih =>
    obtain ⟨hmanifest, hoptions, huse⟩ := react_keeps launch w b
    have hrest := ih (w.react b.files launch b.reports).2
    rw [hmanifest, hoptions, huse] at hrest
    rw [run, List.foldl_cons, ← run, hrest, List.filterMap_cons]
    cases b.brings w.manifest w.options with
    | none => rfl
    | some fresh =>
      dsimp only
      rw [List.getLast?_cons]
      rfl

/-- The request in use was looked up in the index in use. -/
def Matched (w : Watching) : Prop := buildRequest w.catalog w.options = .ok w.request

theorem Matched.react (h : w.Matched) (launch : Launcher) (b : Batch) :
    (w.react b.files launch b.reports).2.Matched := by
  obtain ⟨-, hoptions, huse⟩ := react_keeps launch w b
  have hmatched : buildRequest ((b.brings w.manifest w.options).getD w.inUse).1 w.options =
      .ok ((b.brings w.manifest w.options).getD w.inUse).2 := by
    unfold Batch.brings
    split
    · cases hreload : reload b.files w.manifest w.options b.heard with
      | none => exact h
      | some fresh => exact (reload_eq_some_iff.mp hreload).2.2
    · exact h
  rw [← huse, ← hoptions] at hmatched
  exact hmatched

theorem Matched.run (h : w.Matched) (launch : Launcher) (batches : List Batch) : (w.run launch batches).Matched := by
  induction batches generalizing w with
  | nil => exact h
  | cons b batches ih => exact ih (h.react launch b)

theorem matched_start (h : start fs launch root options = .ok w) : w.Matched := by
  unfold start at h
  split at h
  · cases h
  · obtain ⟨catalog, -, h⟩ := Except.bind_eq_ok.mp h
    obtain ⟨config, -, h⟩ := Except.bind_eq_ok.mp h
    obtain ⟨request, hrequest, h⟩ := Except.bind_eq_ok.mp h
    obtain ⟨viewport, -, h⟩ := Except.bind_eq_ok.mp h
    cases h
    exact hrequest

end Runs

/-- A batch that touches the manifest brings what the manifest gives now into use, if it gives an index in which the
request can be looked up and no change of the batch is its removal; otherwise everything stays as it was. So the batch
has another outcome than the manifest deserves exactly if it holds a removal, though the manifest would change what is
in use. What is in use after any batches is what was brought last, and its request belongs to its index. -/
theorem manifest_reloaded_unless_removed (fs : Files) {heard : List Change} {w : Watching}
    (htouched : Touches w.manifest heard) :
    (∀ catalog request, Offers fs w.manifest w.options catalog request → ¬ Removes w.manifest heard →
        reload fs w.manifest w.options heard = some (catalog, request) ∧ w.hear fs heard = w.use (catalog, request)) ∧
      (Removes w.manifest heard ∨ (∀ catalog request, ¬ Offers fs w.manifest w.options catalog request) →
        reload fs w.manifest w.options heard = none ∧ w.hear fs heard = w) ∧
      (w.hear fs heard = w.refreshed fs ↔ (Removes w.manifest heard → w.refreshed fs = w)) ∧
      ∀ launch batches, (w.run launch batches).inUse =
          ((batches.filterMap fun b => b.brings w.manifest w.options).getLast?).getD w.inUse ∧
        (w.Matched → (w.run launch batches).Matched) := by
  refine ⟨fun catalog request hoffers hkept => ?_, fun hnone => ?_, ?_, fun launch batches => ?_⟩
  · have hreload := reload_eq_some_iff.mpr ⟨hkept, hoffers⟩
    refine ⟨hreload, ?_⟩
    rw [hear_eq htouched, hreload]
    rfl
  · have hreload := reload_eq_none_iff.mpr hnone
    refine ⟨hreload, ?_⟩
    rw [hear_eq htouched, hreload]
    rfl
  · by_cases hremoves : Removes w.manifest heard
    · rw [hear_of_removes htouched hremoves, eq_comm]
      exact ⟨fun h _ => h, fun h => h hremoves⟩
    · exact iff_of_true (hear_of_kept htouched hremoves) fun h => absurd h hremoves
  · exact ⟨inUse_run launch w batches, fun h => h.run launch batches⟩

/-! ### A manifest that is written again -/

section Rewritten

/-- A manifest without functions. -/
def rewritten : Files :=
  (Files.emptyAt ["work"]).put ["work", "callscope.json"] (.file "\x7b\"functions\": []\x7d".toUTF8)

/-- A watch of a whole project of one function. -/
def watching : Watching :=
  let catalog := Catalog.ofManifest ⟨[⟨"main", "main", ⟨"main.rs"⟩, none, "", false, []⟩]⟩ ⟨"/work"⟩
  let options : BuildOptions := ⟨⟨none, none⟩, [], .both, some "project", false, none⟩
  ⟨builderOf rewritten (fun _ _ => .notStarted "") .standard catalog, catalog, .standard, ⟨"/work/callscope.json"⟩,
    options, .scope .whole false, none⟩

theorem written_manifest_in_use :
    let heard : List Change := [⟨.modified, ⟨"/work/main.rs"⟩⟩, ⟨.created, ⟨"/work//callscope.json"⟩⟩]
    ∃ catalog request, Offers rewritten watching.manifest watching.options catalog request ∧
      watching.hear rewritten heard = watching.use (catalog, request) ∧
      watching.catalog.size = 1 ∧ catalog.size = 0 := by
  intro heard
  have hsize : (Catalog.load rewritten watching.manifest).toOption.map Catalog.size = some 0 := by decide +kernel
  cases hload : Catalog.load rewritten watching.manifest with
  | error error =>
    rw [hload] at hsize
    cases hsize
  | ok catalog =>
    rw [hload] at hsize
    have hrequest : buildRequest catalog watching.options = .ok (.scope .whole false) := rfl
    have htouched : Touches watching.manifest heard := List.any_eq_true.mp (by decide +kernel)
    have hkept : ¬ Removes watching.manifest heard := fun h => absurd (any_removed_iff.mpr h) (by decide +kernel)
    obtain ⟨hreloaded, -⟩ := manifest_reloaded_unless_removed rewritten htouched
    exact ⟨catalog, _, ⟨hload, hrequest⟩, (hreloaded catalog _ ⟨hload, hrequest⟩ hkept).2, by decide +kernel,
      Option.some.inj hsize⟩

/-- The manifest was removed and written again before anyone looked: it can be loaded and the request can be looked up
in it, and still the index before it stays in use. -/
theorem manifest_written_again_passed_over :
    let heard : List Change :=
      [⟨.removed, watching.manifest⟩, ⟨.created, watching.manifest⟩, ⟨.modified, watching.manifest⟩]
    (Catalog.load rewritten watching.manifest).toOption.map
        (fun catalog => (catalog.size, (buildRequest catalog watching.options).isOk)) = some (0, true) ∧
      (reload rewritten watching.manifest watching.options heard).isNone = true ∧
      (watching.hear rewritten heard).catalog.size = 1 := by
  decide +kernel

end Rewritten

end CallChart.CommandLine.Watching
