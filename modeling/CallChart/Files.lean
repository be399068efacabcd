import CallChart.Path
import Std.Data.TreeMap

/-! Files and directories as a value, and how paths are followed through them. -/
namespace CallChart

/-- Why a file cannot be read. -/
inductive ReadFault where
  | notFound
  | isDirectory
  | notADirectory
  | notText
  deriving DecidableEq, Repr

def ReadFault.message : ReadFault → String
  | notFound => "No such file or directory (os error 2)"
  | isDirectory => "Is a directory (os error 21)"
  | notADirectory => "Not a directory (os error 20)"
  | notText => "stream did not contain valid UTF-8"

/-- What stands at a place. -/
inductive FileEntry where
  | file (content : ByteArray)
  | directory

/-- A file system by the names that lead from the root to each file and directory, and the
directory in which relative paths begin. The root itself is always there. -/
structure Files where
  entries : Std.TreeMap (List String) FileEntry
  current : List String

namespace Files

def entry? (fs : Files) (place : List String) : Option FileEntry :=
  if place.isEmpty then some .directory else fs.entries[place]?

def namesOf (p : Path) : List String :=
  p.components.filterMap fun
    | .named name => some name
    | _ => none

/-- Follows the pieces of a path from a place that is there. Whatever is gone through has to be a
directory. -/
def follow (fs : Files) (place : List String) : List String → Except ReadFault (List String)
  | [] => .ok place
  | piece :: rest =>
    match fs.entry? place with
    | some .directory =>
      if Path.isBlank piece then fs.follow place rest
      else if piece == ".." then fs.follow place.dropLast rest
      else
        match fs.entry? (place ++ [piece]) with
        | some _ => fs.follow (place ++ [piece]) rest
        | none => .error .notFound
    | _ => .error .notADirectory

/-- The place that a path leads to. The empty path leads nowhere. -/
def resolve (fs : Files) (p : Path) : Except ReadFault (List String) :=
  if p.text == "" then .error .notFound
  else fs.follow (if p.isAbsolute then [] else fs.current) p.pieces

/-- Where a path leads if everything on its way is a directory. -/
def placeOf (fs : Files) (p : Path) : List String :=
  p.pieces.foldl
    (fun place piece =>
      if Path.isBlank piece then place
      else if piece == ".." then place.dropLast
      else place ++ [piece])
    (if p.isAbsolute then [] else fs.current)

def read (fs : Files) (p : Path) : Except ReadFault String := do
  match fs.entry? (← fs.resolve p) with
  | some (.file content) =>
    match String.fromUTF8? content with
    | some text => return text
    | none => throw .notText
  | some .directory => throw .isDirectory
  | none => throw .notFound

def isFile (fs : Files) (p : Path) : Bool :=
  match fs.resolve p with
  | .ok place =>
    match fs.entry? place with
    | some (.file _) => true
    | _ => false
  | .error _ => false

def isDirectory (fs : Files) (p : Path) : Bool :=
  match fs.resolve p with
  | .ok place =>
    match fs.entry? place with
    | some .directory => true
    | _ => false
  | .error _ => false

/-- The absolute path with nothing superfluous in it of what a path leads to. -/
def canonical? (fs : Files) (p : Path) : Option Path :=
  match fs.resolve p with
  | .ok place => some ⟨"/" ++ String.intercalate "/" place⟩
  | .error _ => none

/-- Puts something at a place and makes the directories above it. -/
def put (fs : Files) (place : List String) (entry : FileEntry) : Files :=
  let above := (List.range (place.length - 1)).map fun n => place.take (n + 1)
  let entries := above.foldl (fun entries place => entries.insertIfNew place .directory) fs.entries
  { fs with entries := entries.insert place entry }

/-- Takes away what stands at a place and everything below it. -/
def delete (fs : Files) (place : List String) : Files :=
  { fs with entries := fs.entries.filter fun other _ => !place.isPrefixOf other }

/-- Nothing but the directory in which relative paths begin. -/
def emptyAt (current : List String) : Files :=
  { (put ⟨∅, []⟩ current .directory) with current := current }

end Files
end CallChart
