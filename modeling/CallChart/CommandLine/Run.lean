import CallChart.Build.Builder
import CallChart.CommandLine.Invocation
import CallChart.Config.Load
import CallChart.Drawing
import CallChart.Index.Load

/-! Carrying out what the command line asks for, given the files that are there and the drawing
programs that can be started. -/
namespace CallChart.CommandLine

/-- Why a command ends early. -/
inductive Failure where
  | rootMissing (root : Path)
  | indexNotLoaded (path : Path)
  | index (error : IndexError)
  | config (error : ConfigError)
  | build (error : BuildError)
  | unknownScope (text : String)
  | nothingToBuild
  | viewportShape (text : String)
  | viewportWidth
  | viewportHeight
  | viewportSize
  deriving Repr

def Failure.message : Failure → String
  | rootMissing root => "repository root " ++ root.text ++ " does not exist"
  | indexNotLoaded path => "failed to load index " ++ path.text
  | index error => error.message
  | config error => error.message
  | build error => error.message
  | unknownScope text => "unknown scope '" ++ text ++ "'"
  | nothingToBuild => "nothing to build: pass --seed or --scope"
  | viewportShape text => "viewport '" ++ text ++ "' is not WIDTHxHEIGHT"
  | viewportWidth => "invalid viewport width"
  | viewportHeight => "invalid viewport height"
  | viewportSize => "viewport must have a positive size"

/-- What a command prints. -/
inductive Printed where
  | lines (lines : List String)
  | drawing (drawing : Drawing)

abbrev Launcher := Path → Dot.Program

/-- The text before and after the first occurrence of a character. -/
def cut? (c : Char) (text : List Char) : Option (List Char × List Char) :=
  match text.dropWhile (· != c) with
  | [] => none
  | _ :: rest => some (text.takeWhile (· != c), rest)

/-- A scope as it is written on the command line. -/
def scopeOf (text : String) : Except Failure Scope :=
  match cut? ':' text.toList with
  | none =>
    if text == "project" then .ok (.project true)
    else if text == "project-no-tests" then .ok (.project false)
    else .error (.unknownScope text)
  | some (kind, name) =>
    if name.isEmpty then .error (.unknownScope text)
    else if kind == "module".toList then .ok (.module (String.ofList name))
    else if kind == "dir".toList then .ok (.directory ⟨String.ofList name⟩)
    else .error (.unknownScope text)

/-- A viewport as it is written on the command line: two positive numbers. -/
def viewportOf (text : String) : Except Failure (Viewport Float) := do
  match cut? 'x' text.toList with
  | none => throw (.viewportShape text)
  | some (width, height) =>
    match Number.real? (Text.trim width), Number.real? (Text.trim height) with
    | none, _ => throw .viewportWidth
    | some _, none => throw .viewportHeight
    | some width, some height =>
      if 0 < width && 0 < height then return ⟨width, height⟩ else throw .viewportSize

def manifestName : Path := ⟨"callscope.json"⟩

def manifestPath (root : Path) (sources : Sources) : Path :=
  sources.index.getD (root.join manifestName)

def loadCatalog (fs : Files) (root : Path) (sources : Sources) : Except Failure Catalog :=
  let path := manifestPath root sources
  (Catalog.load fs path).mapError fun _ => .indexNotLoaded path

def loadConfig (fs : Files) (root : Path) (sources : Sources) : Except Failure Config :=
  (match sources.config with
    | some path => Config.load fs path
    | none => Config.discover fs root).mapError .config

/-- The build that is asked for. Seeds are looked up in the catalog. -/
def buildRequest (catalog : Catalog) (options : BuildOptions) :
    Except Failure (BuildRequest SourceFunction) :=
  match options.scope with
  | some text => (scopeOf text).map fun scope => .scope scope options.limited
  | none =>
    if options.seeds.isEmpty then .error .nothingToBuild
    else
      match options.seeds.mapM catalog.lookup with
      | .ok seeds => .ok (.focus seeds options.direction)
      | .error error => .error (.index error)

def viewport? (options : BuildOptions) : Except Failure (Option (Viewport Float)) :=
  match options.viewport with
  | some text => (viewportOf text).map some
  | none => .ok none

/-- The index of a catalog and the drawing program of a configuration. -/
def servicesOf (fs : Files) (launch : Launcher) (config : Config) (catalog : Catalog) :
    Services Unit SourceFunction Float :=
  .answering (catalog.index fs.isDirectory) (Dot.draw config.dot (launch config.dot.path))

def builderOf (fs : Files) (launch : Launcher) (config : Config) (catalog : Catalog) :
    Builder Unit SourceFunction Float :=
  Builder.start (servicesOf fs launch config catalog) config.layout
    (.start (some catalog.root)) ()

def build (fs : Files) (launch : Launcher) (root : Path) (options : BuildOptions) :
    Except Failure Printed := do
  let catalog ← loadCatalog fs root options.sources
  let config ← loadConfig fs root options.sources
  let request ← buildRequest catalog options
  let viewport ← viewport? options
  match ((Builder.build request).run (builderOf fs launch config catalog)).1 with
  | .ok g => return .drawing (Drawing.ofGraph g viewport)
  | .error error => throw (.build error)

def functions (fs : Files) (root : Path) (sources : Sources) (scope : String) :
    Except Failure Printed := do
  let catalog ← loadCatalog fs root sources
  let scope ← scopeOf scope
  match catalog.inScope fs.isDirectory scope with
  | .ok found => return .lines (found.toList.map SourceFunction.label)
  | .error error => throw (.index error)

def versionLine : String := "Callscope v0.1.0"

end CallChart.CommandLine
