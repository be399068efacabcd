import CallChart.CommandLine.Help
import CallChart.CommandLine.Watching

/-! The program: it reads the files that a command looks at, runs the command on them and prints
the result. It starts no other programs, so only graphs without calls between different functions
can be drawn. -/
namespace CallChart.Main

open CommandLine

/-- No drawing program can be started. -/
def launch : Launcher := fun _ _ => .notStarted "programs cannot be started"

/-- The directory that a scope on the command line names, seen from the directory of the
manifest. -/
def scopeDirectory (manifest : Path) (scope : Option String) : List Path :=
  match (scope.map scopeOf) with
  | some (.ok (.directory dir)) => [(manifest.parent?.getD ⟨""⟩).join dir]
  | _ => []

def sourcePaths (root : Path) (sources : Sources) (scope : Option String) : List Path :=
  let manifest := manifestPath root sources
  [root, manifest, sources.config.getD (root.join Config.fileName)] ++ scopeDirectory manifest scope

def pathsOf (invocation : Invocation) : List Path :=
  match invocation.command with
  | .build options => sourcePaths invocation.root options.sources options.scope
  | .functions sources scope => sourcePaths invocation.root sources (some scope)
  | .watch options => sourcePaths invocation.root options.sources options.scope
  | .version => []

def entryAt (p : Path) : IO (Option FileEntry) := do
  try
    return some (.file (← IO.FS.readBinFile p.text))
  catch
    | .inappropriateType _ 21 _ => return some .directory
    | _ => return none

def snapshot (paths : List Path) : IO Files := do
  let current : Path := ⟨(← IO.currentDir).toString⟩
  let mut fs := Files.emptyAt (Files.namesOf current)
  for p in paths do
    match ← entryAt p with
    | some entry =>
      let place := fs.placeOf p
      if !place.isEmpty then fs := fs.put place entry
    | none => pure ()
  return fs

def printResult : Except Failure Printed → IO UInt32
  | .ok (.lines lines) => do
    lines.forM IO.println
    return 0
  | .ok (.drawing drawing) => do
    IO.println drawing.print
    return 0
  | .error failure => do
    IO.eprintln ("Error: " ++ failure.message)
    return 1

def printDrawing : Except BuildError Drawing → IO Unit
  | .ok drawing => do
    IO.println drawing.print
    (← IO.getStdout).flush
  | .error error => IO.eprintln ("Build failed: " ++ error.message)

/-- The files whose changes a watch hears of: the manifest and the files of its functions. -/
def watchedPaths (w : Watching) : List Path :=
  w.manifest :: (w.catalog.functions.map fun f => w.catalog.root.join f.file)

/-- How a file changed from one look to the next. -/
def changeOf : Option FileEntry → Option FileEntry → Option ChangeKind
  | none, some _ => some .created
  | some _, none => some .removed
  | some (.file old), some (.file new) => if old == new then none else some .modified
  | _, _ => none

def pause : UInt32 := 200

/-- Looks at the files again and again and builds a graph whenever one has changed. -/
partial def watchLoop (paths : List Path) (w : Watching) (seen : List (Path × Option FileEntry)) :
    IO UInt32 := do
  IO.sleep pause
  let now ← (watchedPaths w).mapM fun p => do return (p, ← entryAt p)
  let reports := now.filterMap fun entry =>
    match seen.find? fun old => old.1.same entry.1 with
    | some old => (changeOf old.2 entry.2).map fun kind => ⟨some kind, [entry.1]⟩
    | none => none
  let (result, w) := w.react (← snapshot (w.manifest :: paths)) launch reports
  match result with
  | some result => printDrawing result
  | none => pure ()
  watchLoop paths w now

def runWatch (invocation : Invocation) (options : BuildOptions) : IO UInt32 := do
  let paths := pathsOf invocation
  let fs ← snapshot paths
  match Watching.start fs launch invocation.root options with
  | .error failure => printResult (.error failure)
  | .ok w =>
    let seen ← (watchedPaths w).mapM fun p => do return (p, ← entryAt p)
    let (result, w) := w.build fs launch
    printDrawing result
    watchLoop paths w seen

def run (invocation : Invocation) : IO UInt32 := do
  match invocation.command with
  | .version => printResult (.ok (.lines [versionLine]))
  | .build options =>
    printResult (build (← snapshot (pathsOf invocation)) launch invocation.root options)
  | .functions sources scope =>
    printResult (functions (← snapshot (pathsOf invocation)) invocation.root sources scope)
  | .watch options => runWatch invocation options

end CallChart.Main

open CallChart CallChart.CommandLine in
/-- Reads the arguments and does what they ask for. Wrong arguments end with code 2. -/
def main (args : List String) : IO UInt32 := do
  match read args with
  | .run invocation => Main.run invocation
  | .help command =>
    (help command).forM IO.println
    return 0
  | .usage =>
    (help none).forM IO.eprintln
    return 2
