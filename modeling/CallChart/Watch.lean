import CallChart.Versions

/-! What is made of reports that files have changed. A change counts as an edit of its file before
anyone hears of it, so that nobody acts on a change with an old version. -/
namespace CallChart

/-- How a file changed. -/
inductive ChangeKind where
  | created
  | modified
  | removed
  deriving DecidableEq, Repr

/-- A change that listeners hear of. -/
structure Change where
  kind : ChangeKind
  path : Path
  deriving Repr

/-- A report by the file system. Reports of no kind of change, such as reads, are not acted on. -/
structure FileReport where
  kind : Option ChangeKind
  paths : List Path
  deriving Repr

namespace Watch

def ignoredNames : List String := ["target", ".git", "node_modules"]

/-- Whether a name of the path is an ignored one. -/
def isIgnored (p : Path) : Bool :=
  p.components.any fun
    | .named name => ignoredNames.contains name
    | _ => false

def changes (report : FileReport) : List Change :=
  match report.kind with
  | some kind => (report.paths.filter fun p => !isIgnored p).map fun p => ⟨kind, p⟩
  | none => []

/-- The changes of a report, and the versions after them. -/
def notice (report : FileReport) (versions : FileVersions) : List Change × FileVersions :=
  let heard := changes report
  (heard, heard.foldl (fun versions change => versions.bump change.path) versions)

def noticeAll : List FileReport → FileVersions → List Change × FileVersions
  | [], versions => ([], versions)
  | report :: reports, versions =>
    let (heard, versions) := notice report versions
    let (more, versions) := noticeAll reports versions
    (heard ++ more, versions)

end Watch
end CallChart
