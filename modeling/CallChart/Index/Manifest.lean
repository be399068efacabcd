import CallChart.Function

/-! The list of functions from which an index is made. -/
namespace CallChart

/-- A function with the qualified names of the functions it calls. -/
structure FunctionEntry where
  name : String
  qualifiedName : String
  file : Path
  line : Option UInt32
  module : String
  test : Bool
  calls : List String
  deriving Repr, Inhabited

namespace FunctionEntry

def function (e : FunctionEntry) : SourceFunction := ⟨e.qualifiedName, e.name, e.file, e.line⟩

/-- A function is test code if it is marked so or stands below a directory of tests. -/
def isTest (e : FunctionEntry) : Bool :=
  e.test || e.file.components.contains (.named "tests")

end FunctionEntry

structure Manifest where
  functions : List FunctionEntry
  deriving Repr, Inhabited

end CallChart
