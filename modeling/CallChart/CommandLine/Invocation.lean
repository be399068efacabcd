import CallChart.CommandLine.Options

/-! What the command line asks for. -/
namespace CallChart.CommandLine

/-- Where the index and the configuration are, if not in their usual places. -/
structure Sources where
  index : Option Path
  config : Option Path
  deriving Repr

/-- What is to be built and how it is printed. -/
structure BuildOptions where
  sources : Sources
  seeds : List String
  direction : Direction
  scope : Option String
  limited : Bool
  viewport : Option String
  deriving Repr

inductive Command where
  | build (options : BuildOptions)
  | functions (sources : Sources) (scope : String)
  | watch (options : BuildOptions)
  | version
  deriving Repr

structure Invocation where
  verbose : Bool
  root : Path
  command : Command
  deriving Repr

/-- A command with its options and what help says about it. -/
structure CommandSpec where
  name : String
  options : List OptionSpec
  about : String

def commandSpecs : List CommandSpec :=
  [⟨"build", buildOptions, "Build one call graph and print it as JSON"⟩,
    ⟨"functions", functionsOptions, "List the functions of a scope"⟩,
    ⟨"watch", buildOptions, "Rebuild whenever a file under the root changes"⟩,
    ⟨"version", [], "Show version"⟩]

def helpCommand : CommandSpec :=
  ⟨"help", [], "Print this message or the help of the given subcommand(s)"⟩

/-- What is left to do once arguments have been read. -/
inductive Request where
  | run (invocation : Invocation)
  /-- Help on a command, or on all of them. -/
  | help (command : Option CommandSpec)
  /-- The arguments are wrong. -/
  | usage

def sources (given : Given) : Sources :=
  ⟨(given.value? "index").map Path.mk, (given.value? "config").map Path.mk⟩

/-- The options of a build. Seeds and a scope exclude each other, and a limit needs one of
them. -/
def buildOf (given : Given) : Option BuildOptions :=
  let hasScope := given.isGiven "scope"
  let hasSeeds := given.isGiven "seed"
  let limited := given.isGiven "limited"
  if (hasScope && hasSeeds) || (limited && !hasScope && !hasSeeds) then none
  else
    some
      { sources := sources given
        seeds := given.values "seed"
        direction := ((given.value? "direction").bind fun word => directions.lookup word).getD .both
        scope := given.value? "scope"
        limited := limited
        viewport := given.value? "viewport" }

def commandOf (name : String) (given : Given) : Option Command :=
  match name with
  | "build" => (buildOf given).map .build
  | "functions" => some (.functions (sources given) ((given.value? "scope").getD "project"))
  | "watch" => (buildOf given).map .watch
  | "version" => some .version
  | _ => none

def helpOn : List String → Request
  | [] => .help none
  | [name] =>
    match (helpCommand :: commandSpecs).find? fun spec => spec.name == name with
    | some spec => .help (some spec)
    | none => .usage
  | _ => .usage

/-- The invocation of a command. A global option behind the command wins over one before it. -/
def invoke (before : Given) (spec : CommandSpec) (args : List String) : Request :=
  let options := globalOptions ++ spec.options ++ [helpOption]
  match readOptions options [] (args.length + 1) args [] with
  | .error .help => .help (some spec)
  | .error .usage => .usage
  | .ok (after, _) =>
    match commandOf spec.name after with
    | none => .usage
    | some command =>
      let root := ((after.value? "root").orElse fun _ => before.value? "root").getD "."
      .run ⟨before.isGiven "verbose" || after.isGiven "verbose", ⟨root⟩, command⟩

def read (args : List String) : Request :=
  let names := (commandSpecs ++ [helpCommand]).map CommandSpec.name
  match readOptions (globalOptions ++ [helpOption]) names (args.length + 1) args [] with
  | .error .help => .help none
  | .error .usage => .usage
  | .ok (_, none) => .usage
  | .ok (before, some (name, rest)) =>
    match commandSpecs.find? fun spec => spec.name == name with
    | some spec => invoke before spec rest
    | none => helpOn rest

end CallChart.CommandLine
