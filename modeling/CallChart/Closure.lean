import CallChart.Search

/-! What calls lead to, round by round. A round asks for the neighbours of all functions found in
the round before it. -/
namespace CallChart

/-- Which way calls are followed. -/
inductive Direction where
  /-- From callees to callers. -/
  | upstream
  /-- From callers to callees. -/
  | downstream
  /-- Either way, but never both ways along one path. -/
  | both
  deriving DecidableEq, Repr, Inhabited

def Direction.coverages : Direction → List Coverage
  | upstream => [.callers]
  | downstream => [.callees]
  | both => [.callers, .callees]

/-- Functions, the calls found between them, and how many functions have been asked about so far. -/
structure Resolution (F : Type) [Handle F] where
  functions : Std.TreeSet F
  calls : Std.TreeSet (Call F)
  processed : Nat

namespace Resolution

variable {F : Type} [Handle F]

/-- Adds a neighbour of `f` and the call between them. -/
def addNeighbour (coverage : Coverage) (f : F) (r : Resolution F) (neighbour : F) :
    Resolution F :=
  { r with
    functions := r.functions.insert neighbour
    calls := r.calls.insert (coverage.call f neighbour) }

def addAnswers (coverage : Coverage) (r : Resolution F) (answers : Answers F) : Resolution F :=
  answers.foldl (fun r answer => answer.2.foldl (addNeighbour coverage answer.1) r) r

/-- Adds those of the calls that begin and end among the functions at hand. -/
def addInner (coverage : Coverage) (r : Resolution F) (answers : Answers F) : Resolution F :=
  r.addAnswers coverage (answers.map fun answer => (answer.1, answer.2.filter r.functions.contains))

end Resolution

/-- What is asked round by round, and what is made of the answers. -/
inductive Inquiry (F α : Type) where
  | done (result : α)
  /-- There were more rounds than there can be. -/
  | unbounded
  /-- Asks about the functions of a round, which are counted or not. -/
  | ask (coverage : Coverage) (counted : Bool) (round : List F) (next : Answers F → Inquiry F α)

namespace Inquiry

def bind {F α β : Type} : Inquiry F α → (α → Inquiry F β) → Inquiry F β
  | done result, more => more result
  | unbounded, _ => unbounded
  | ask coverage counted round next, more =>
    ask coverage counted round fun answers => (next answers).bind more

variable {F : Type} [Handle F]

/-- The functions that answers name and that have not been asked about. -/
def nextRound (seen : Std.TreeSet F) (answers : Answers F) : Std.TreeSet F :=
  Std.TreeSet.ofList ((answers.flatMap Prod.snd).filter fun f => !seen.contains f)

/-- Follows calls in one direction until a round finds nothing new. Every round asks about a
function that no round before it asked about, which bounds their number. -/
def close (coverage : Coverage) :
    Nat → Std.TreeSet F → List F → Resolution F → Inquiry F (Resolution F)
  | _, _, [], found => done found
  | 0, _, _ :: _, _ => unbounded
  | rounds + 1, seen, f :: rest, found =>
    ask coverage true (f :: rest) fun answers =>
      let seen := (f :: rest).foldl Std.TreeSet.insert seen
      close coverage rounds seen (nextRound seen answers).toList (found.addAnswers coverage answers)

/-- Follows calls from the seeds in one direction after the other. -/
def closeAll (rounds : Nat) (seeds : List F) :
    List Coverage → Resolution F → Inquiry F (Resolution F)
  | [], found => done found
  | coverage :: rest, found =>
    (close coverage rounds ∅ (gather seeds).toList found).bind (closeAll rounds seeds rest)

end Inquiry

/-- What can be asked of a search. -/
inductive Question (F : Type) [Handle F] where
  /-- The seeds and all that calls lead to from them. -/
  | closure (seeds : List F) (direction : Direction)
  /-- The functions of a scope and the calls between them. -/
  | within (scope : Std.TreeSet F)
  /-- The functions of a scope and all calls that begin or end there. A function counts once its
  callers are known. -/
  | adjacent (scope : Std.TreeSet F)

namespace Question

variable {F : Type} [Handle F]

/-- Asks about a scope: for the calls inside of it, or for all that touch it. -/
def ofScope (limited : Bool) (scope : Std.TreeSet F) : Question F :=
  if limited then within scope else adjacent scope

def functions : Question F → List F
  | closure seeds _ => seeds
  | within scope => scope.toList
  | adjacent scope => scope.toList

/-- How a question is answered in so many rounds at most. -/
def inquiry (rounds : Nat) : Question F → Inquiry F (Resolution F)
  | closure seeds direction =>
    .closeAll rounds seeds direction.coverages ⟨Std.TreeSet.ofList seeds, ∅, 0⟩
  | within scope =>
    .ask .callers true scope.toList fun calling =>
      .done (Resolution.addInner .callers ⟨scope, ∅, 0⟩ calling)
  | adjacent scope =>
    .ask .callees false scope.toList fun called =>
      .ask .callers true scope.toList fun calling =>
        .done ((Resolution.addAnswers .callees ⟨scope, ∅, 0⟩ called).addAnswers .callers calling)

end Question

namespace Surroundings

variable {W F : Type} [Handle F] (s : Surroundings W F)

def pursue {α : Type} : Inquiry F α → Searching W F α
  | .done result => return result
  | .unbounded => throw .unbounded
  | .ask coverage counted round next => do
    let answers ← s.answerRound coverage counted round
    pursue (next answers)

/-- Answering a question takes no more rounds than there are functions to ask about: those that the
question begins with, and those that are named by the cache or by the index. -/
def limit (question : Question F) (search : Search W F) : Nat :=
  question.functions.length + 2 * search.cache.size + s.population

/-- Answers a question. The result tells how many functions have been asked about. -/
def answer (question : Question F) : Searching W F (Resolution F) := do
  let found ← s.pursue (question.inquiry (s.limit question (← get)))
  return { found with processed := (← get).processed }

def resolve (seeds : List F) (direction : Direction) : Searching W F (Resolution F) :=
  s.answer (.closure seeds direction)

def resolveWithin (scope : Std.TreeSet F) : Searching W F (Resolution F) :=
  s.answer (.within scope)

def resolveAdjacent (scope : Std.TreeSet F) : Searching W F (Resolution F) :=
  s.answer (.adjacent scope)

end Surroundings
end CallChart
