import CallChart.CommandLine.Run
import CallChart.Watch

/-! The watch command: a graph is built again after every batch of changes. -/
namespace CallChart.CommandLine

/-- A running watch. -/
structure Watching where
  builder : Builder Unit SourceFunction Float
  /-- The index of the next build. -/
  catalog : Catalog
  config : Config
  manifest : Path
  options : BuildOptions
  request : BuildRequest SourceFunction
  viewport : Option (Viewport Float)

namespace Watching

/-- Starts a watch. Files below the directory of the manifest are known by their path from
there. -/
def start (fs : Files) (launch : Launcher) (root : Path) (options : BuildOptions) :
    Except Failure Watching := do
  match fs.canonical? root with
  | none => throw (.rootMissing root)
  | some root =>
    let manifest := manifestPath root options.sources
    let manifest := (fs.canonical? manifest).getD manifest
    let catalog ← (Catalog.load fs manifest).mapError .index
    let config ← loadConfig fs root options.sources
    let request ← buildRequest catalog options
    let viewport ← viewport? options
    return ⟨builderOf fs launch config catalog, catalog, config, manifest, options, request,
      viewport⟩

/-- The catalog and the request of a changed manifest. There are none if the manifest was removed,
cannot be read or does not have the seeds, and then the old ones stay in use. -/
def reload (fs : Files) (manifest : Path) (options : BuildOptions) (heard : List Change) :
    Option (Catalog × BuildRequest SourceFunction) :=
  if heard.any fun change => change.kind == .removed && change.path.same manifest then none
  else
    match Catalog.load fs manifest with
    | .error _ => none
    | .ok catalog =>
      match buildRequest catalog options with
      | .error _ => none
      | .ok request => some (catalog, request)

def hear (fs : Files) (heard : List Change) (w : Watching) : Watching :=
  if heard.any fun change => change.path.same w.manifest then
    match reload fs w.manifest w.options heard with
    | some (catalog, request) => { w with catalog := catalog, request := request }
    | none => w
  else w

/-- Counts the edits of some reports. The changes in them are still to be heard. -/
def notice (reports : List FileReport) (w : Watching) : List Change × Watching :=
  let (heard, versions) := Watch.noticeAll reports w.builder.floor.versions
  (heard, { w with builder.floor.versions := versions })

def build (fs : Files) (launch : Launcher) (w : Watching) : Except BuildError Drawing × Watching :=
  let services := servicesOf fs launch w.config w.catalog
  let builder := { w.builder with services := services, floor.events := [] }
  let (result, builder) := (Builder.build w.request).run builder
  (result.map fun g => Drawing.ofGraph g w.viewport, { w with builder := builder })

/-- Acts on a batch of reports. Nothing is built if they tell of no change. -/
def react (fs : Files) (launch : Launcher) (reports : List FileReport) (w : Watching) :
    Option (Except BuildError Drawing) × Watching :=
  let (heard, w) := w.notice reports
  if heard.isEmpty then (none, w)
  else
    let (result, w) := (w.hear fs heard).build fs launch
    (some result, w)

end Watching
end CallChart.CommandLine
