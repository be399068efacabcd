import CallChart.Closure

/-! The options of the command line: their names, what they take, and how arguments are read. -/
namespace CallChart.CommandLine

/-- What an option takes. -/
inductive OptionKind where
  /-- Nothing. -/
  | flag
  /-- Nothing; it asks for help. -/
  | help
  /-- A text. -/
  | text
  /-- A text, and it may be given several times. -/
  | texts
  /-- A path, which is not empty. -/
  | path
  /-- One of some words. -/
  | choice (words : List String)
  deriving DecidableEq, Repr

/-- An option with its long name, its letter, and what help says about it. -/
structure OptionSpec where
  long : String
  letter : Option Char
  kind : OptionKind
  about : String
  deriving Repr

namespace OptionKind

def takesValue : OptionKind → Bool
  | flag => false
  | help => false
  | _ => true

def repeats : OptionKind → Bool
  | texts => true
  | _ => false

def accepts : OptionKind → String → Bool
  | path, value => value != ""
  | choice words, value => words.contains value
  | _, _ => true

end OptionKind

def verboseOption : OptionSpec := ⟨"verbose", some 'v', .flag, "Enable verbose logging"⟩

def rootOption : OptionSpec :=
  ⟨"root", some 'r', .path, "Repository root path (defaults to current directory) [default: .]"⟩

def helpOption : OptionSpec := ⟨"help", some 'h', .help, "Print help"⟩

/-- The options that may stand before and after the command. -/
def globalOptions : List OptionSpec := [verboseOption, rootOption]

def indexOptions : List OptionSpec :=
  [⟨"index", some 'i', .path, "Index manifest (defaults to <root>/callscope.json)"⟩,
    ⟨"config", some 'c', .path,
      "Config file (defaults to <root>/callscope.toml when present)"⟩]

def directions : List (String × Direction) :=
  [("upstream", .upstream), ("downstream", .downstream), ("both", .both)]

def buildOptions : List OptionSpec :=
  indexOptions ++
    [⟨"seed", some 's', .texts,
        "Focus on these functions (qualified or unambiguous short names)"⟩,
      ⟨"direction", some 'd', .choice (directions.map Prod.fst),
        "Which calls to follow from the seeds [default: both] " ++
          "[possible values: upstream, downstream, both]"⟩,
      ⟨"scope", none, .text,
        "Scope build: project, project-no-tests, module:<name> or dir:<path>"⟩,
      ⟨"limited", none, .flag, "Only keep calls with both ends inside the scope"⟩,
      ⟨"viewport", none, .text,
        "Also print device coordinates for a viewport of this size, e.g. 800x600"⟩]

def functionsOptions : List OptionSpec :=
  indexOptions ++
    [⟨"scope", none, .text,
      "project, project-no-tests, module:<name> or dir:<path> [default: project]"⟩]

/-- Why arguments are not carried out. -/
inductive Refusal where
  /-- They are wrong. -/
  | usage
  /-- They ask for help. -/
  | help
  deriving DecidableEq, Repr

abbrev Given := List (String × String)

namespace Given

def isGiven (given : Given) (name : String) : Bool := given.any fun entry => entry.1 == name

def values (given : Given) (name : String) : List String :=
  (given.filter fun entry => entry.1 == name).map Prod.snd

def value? (given : Given) (name : String) : Option String := given.lookup name

/-- Adds an option. Only some may be given again. -/
def add (given : Given) (spec : OptionSpec) (value : String) : Except Refusal Given :=
  if !spec.kind.repeats && given.isGiven spec.long then .error .usage
  else if !spec.kind.accepts value then .error .usage
  else .ok (given ++ [(spec.long, value)])

end Given

/-- Whether an argument is read as options and not as a value. A single dash is a value. -/
def looksLikeOption (arg : List Char) : Bool := arg.head? == some '-' && arg != ['-']

/-- The value that the next argument gives to an option, and the arguments after it. -/
def takeValue (args : List String) : Except Refusal (String × List String) :=
  match args with
  | [] => .error .usage
  | value :: rest =>
    if looksLikeOption value.toList then .error .usage else .ok (value, rest)

/-- Letters behind one dash. A letter that takes a value takes the rest of them or, if there is
none, the next argument. -/
def readLetters (specs : List OptionSpec) (args : List String) :
    List Char → Given → Except Refusal (Given × List String)
  | [], given => .ok (given, args)
  | c :: letters, given =>
    match specs.find? fun spec => spec.letter == some c with
    | none => .error .usage
    | some spec =>
      if spec.kind == .help then .error .help
      else if !spec.kind.takesValue then
        match given.add spec "" with
        | .ok given => readLetters specs args letters given
        | .error refusal => .error refusal
      else do
        match letters with
        | [] =>
          let (value, rest) ← takeValue args
          return (← given.add spec value, rest)
        | '=' :: value => return (← given.add spec (String.ofList value), args)
        | value => return (← given.add spec (String.ofList value), args)

/-- A name behind two dashes. A value stands behind an equals sign or is the next argument. -/
def readName (specs : List OptionSpec) (args : List String) (text : List Char) (given : Given) :
    Except Refusal (Given × List String) := do
  let name := String.ofList (text.takeWhile (· != '='))
  let attached :=
    match text.dropWhile (· != '=') with
    | _ :: value => some (String.ofList value)
    | [] => none
  match specs.find? fun spec => spec.long == name with
  | none => throw .usage
  | some spec =>
    match spec.kind.takesValue, attached with
    | false, some _ => throw .usage
    | false, none => if spec.kind == .help then throw .help else return (← given.add spec "", args)
    | true, some value => return (← given.add spec value, args)
    | true, none =>
      let (value, rest) ← takeValue args
      return (← given.add spec value, rest)

/-- Reads options up to a command. The bound is on the number of arguments. -/
def readOptions (specs : List OptionSpec) (commands : List String) :
    Nat → List String → Given → Except Refusal (Given × Option (String × List String))
  | 0, _, given => .ok (given, none)
  | _ + 1, [], given => .ok (given, none)
  | steps + 1, arg :: args, given =>
    if commands.contains arg then .ok (given, some (arg, args))
    else
      match arg.toList with
      | ['-', '-'] => if args.isEmpty then .ok (given, none) else .error .usage
      | '-' :: '-' :: text => do
        let (given, args) ← readName specs args text given
        readOptions specs commands steps args given
      | '-' :: c :: letters => do
        let (given, args) ← readLetters specs args (c :: letters) given
        readOptions specs commands steps args given
      | _ => .error .usage

end CallChart.CommandLine
