/-! TOML values and the tables of a document. A table may be opened once by a header, filled by
dotted keys, or written inline, and none of these may add to what another one wrote. -/
namespace CallChart

/-- How a table came to be. -/
inductive TableOrigin where
  /-- A header opened it. -/
  | header
  /-- A header names a table below it, and a later header may open it. -/
  | implied
  /-- A dotted key leads through it. -/
  | dotted
  /-- It is written between braces, which close it. -/
  | inline
  deriving DecidableEq, Repr

/-- A TOML value. -/
inductive Toml where
  | text (value : String)
  | integer (value : Int)
  | float (value : Float)
  | bool (value : Bool)
  /-- A date, a time or both. Which one is never used. -/
  | moment
  | array (items : List Toml)
  | table (origin : TableOrigin) (entries : List (String × Toml))
  /-- Tables opened one after the other under one header. The last one is still open. -/
  | tables (closed : List (List (String × Toml))) (last : List (String × Toml))

namespace Toml

/-- The entries of a table in the order in which they are written. -/
abbrev Entries := List (String × Toml)

namespace Entries

/-- Puts a value in the place of the one at a key. -/
def replace (key : String) (value : Toml) : Entries → Entries
  | [] => []
  | entry :: rest =>
    if entry.1 == key then (key, value) :: rest else entry :: replace key value rest

/-- Whether the keys of a path may lead through a table. Dotted keys lead only through tables that
no header has opened. -/
def passable (dotted : Bool) : TableOrigin → Bool
  | .header => !dotted
  | .inline => false
  | _ => true

/-- Changes the table at the end of a path and makes the tables on the way. -/
def modifyAt (dotted : Bool) (change : TableOrigin → Entries → Option Entries) :
    List String → TableOrigin → Entries → Option Entries
  | [], origin, entries => change origin entries
  | key :: path, _, entries =>
    match entries.lookup key with
    | none =>
      let origin := if dotted then TableOrigin.dotted else .implied
      (modifyAt dotted change path origin []).map fun inner =>
        entries ++ [(key, .table origin inner)]
    | some (.table origin inner) =>
      if passable dotted origin then
        (modifyAt dotted change path origin inner).map fun inner =>
          entries.replace key (.table origin inner)
      else none
    | some (.tables closed last) =>
      (modifyAt dotted change path .header last).map fun last =>
        entries.replace key (.tables closed last)
    | some _ => none

/-- Adds a value at a key. A dotted key ends in a table that only dotted keys fill. -/
def addAt (path : List String) (key : String) (value : Toml) : Entries → Option Entries :=
  modifyAt true
    (fun origin entries =>
      if (origin == .dotted) == path.isEmpty then none
      else if (entries.lookup key).isSome then none
      else some (entries ++ [(key, value)]))
    path .header

/-- Opens the table of a header. It must not have been opened or filled before. -/
def openTable (path : List String) (key : String) : Entries → Option Entries :=
  modifyAt false
    (fun _ entries =>
      match entries.lookup key with
      | none => some (entries ++ [(key, .table .header [])])
      | some (.table .implied inner) => some (entries.replace key (.table .header inner))
      | some _ => none)
    path .header

/-- Opens one more table under a header that is written in double brackets. -/
def openNext (path : List String) (key : String) : Entries → Option Entries :=
  modifyAt false
    (fun _ entries =>
      match entries.lookup key with
      | none => some (entries ++ [(key, .tables [] [])])
      | some (.tables closed last) =>
        some (entries.replace key (.tables (closed ++ [last]) []))
      | some _ => none)
    path .header

/-- Adds a value to the table that a header has opened. -/
def addUnder (header path : List String) (key : String) (value : Toml) :
    Entries → Option Entries :=
  modifyAt false (fun _ entries => entries.addAt path key value) header .header

end Entries
end Toml
end CallChart
