import CallChart.CommandLine.Invocation

/-! What the program says about its command line. -/
namespace CallChart.CommandLine

def programName : String := "callscope"

def about : String := "Call graph closure and layout for code bases"

/-- The spelling of an option with its letter and what it takes. -/
def signature (spec : OptionSpec) : String :=
  let letter :=
    match spec.letter with
    | some c => "-" ++ String.singleton c ++ ", "
    | none => "    "
  let value := if spec.kind.takesValue then " <" ++ (spec.long.map Char.toUpper) ++ ">" else ""
  letter ++ "--" ++ spec.long ++ value

/-- Two columns, the first one as wide as its widest entry. -/
def columns (rows : List (String × String)) : List String :=
  let width := rows.foldl (fun width row => max width row.1.length) 0
  rows.map fun row =>
    "  " ++ row.1 ++ String.ofList (List.replicate (width - row.1.length) ' ') ++ "  " ++ row.2

def optionLines (specs : List OptionSpec) : List String :=
  "Options:" :: columns (specs.map fun spec => (signature spec, spec.about))

def help : Option CommandSpec → List String
  | some spec =>
    [spec.about, "", "Usage: " ++ programName ++ " " ++ spec.name ++ " [OPTIONS]", ""] ++
      optionLines (globalOptions ++ spec.options ++ [helpOption])
  | none =>
    [about, "", "Usage: " ++ programName ++ " [OPTIONS] <COMMAND>", "", "Commands:"] ++
      columns ((commandSpecs ++ [helpCommand]).map fun spec => (spec.name, spec.about)) ++ [""] ++
      optionLines (globalOptions ++ [helpOption])

end CallChart.CommandLine
