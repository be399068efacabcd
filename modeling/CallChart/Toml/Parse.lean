import CallChart.Toml.Lexical
import CallChart.Toml.Number

/-! Reading TOML documents. -/
namespace CallChart.Toml

/-- Values may be nested this deep, and keys may have this many parts. -/
def depthLimit : Nat := 79

/-- The text after a word that has to be here. -/
def dropWord (word : String) (cs : List Char) : Option (List Char) :=
  if word.toList.isPrefixOf cs then some (cs.drop word.length) else none

def readScalar (cs : List Char) : Option (Toml × List Char) :=
  match cs with
  | [] => none
  | c :: _ =>
    if c == '"' || c == '\'' then (readString cs).map fun (s, rest) => (text s, rest)
    else if c == 't' then (dropWord "true" cs).map fun rest => (bool true, rest)
    else if c == 'f' then (dropWord "false" cs).map fun rest => (bool false, rest)
    else
      match dropMoment cs with
      | some rest => some (moment, rest)
      | none => readNumber cs

mutual

/-- Reads a value. The first bound is on the depth of nesting; the second one is on the number of
steps, of which each item and each entry costs one and at least one character. -/
def readValue (depth : Nat) : Nat → List Char → Option (Toml × List Char)
  | 0, _ => none
  | steps + 1, cs =>
    match cs with
    | '[' :: rest =>
      if depth = 0 then none
      else
        (readItems (depth - 1) steps (skipLines steps rest)).map fun (items, rest) =>
          (array items, rest)
    | '{' :: rest =>
      if depth = 0 then none
      else
        match skipBlank rest with
        | '}' :: rest => some (table .inline [], rest)
        | rest =>
          (readEntries (depth - 1) steps [] rest).map fun (entries, rest) =>
            (table .inline entries, rest)
    | cs => readScalar cs

/-- Reads the items of an array up to its end. Line ends and comments may stand between them, and a
comma may follow the last one. -/
def readItems (depth : Nat) : Nat → List Char → Option (List Toml × List Char)
  | 0, _ => none
  | steps + 1, cs =>
    match cs with
    | ']' :: rest => some ([], rest)
    | cs =>
      match readValue depth steps cs with
      | none => none
      | some (item, rest) =>
        match skipLines steps rest with
        | ']' :: rest => some ([item], rest)
        | ',' :: rest =>
          (readItems depth steps (skipLines steps rest)).map fun (items, rest) =>
            (item :: items, rest)
        | _ => none

/-- Reads the entries of an inline table up to its end. -/
def readEntries (depth : Nat) : Nat → Entries → List Char → Option (Entries × List Char)
  | 0, _, _ => none
  | steps + 1, entries, cs =>
    match readKey depthLimit cs with
    | some ((path, key), '=' :: rest) =>
      match readValue depth steps (skipBlank rest) with
      | none => none
      | some (value, rest) =>
        match entries.addAt path key value with
        | none => none
        | some entries =>
          match skipBlank rest with
          | '}' :: rest => some (entries, rest)
          | ',' :: rest => readEntries depth steps entries rest
          | _ => none
    | _ => none

end

/-- The tables of a document as far as it has been read, and the header that values go under. -/
structure Draft where
  root : Entries
  header : List String

namespace Draft

/-- Reads a header, whose opening bracket has been read, and opens its table. -/
def readHeader (draft : Draft) (cs : List Char) : Option (Draft × List Char) := do
  match cs with
  | '[' :: cs =>
    let ((path, key), rest) ← readKey depthLimit cs
    let rest ← dropWord "]]" rest
    return (⟨← draft.root.openNext path key, path ++ [key]⟩, ← endLine rest)
  | cs =>
    let ((path, key), rest) ← readKey depthLimit cs
    let rest ← dropWord "]" rest
    return (⟨← draft.root.openTable path key, path ++ [key]⟩, ← endLine rest)

def readPair (draft : Draft) (cs : List Char) : Option (Draft × List Char) := do
  let ((path, key), rest) ← readKey depthLimit cs
  let rest ← dropWord "=" rest
  let (value, rest) ← readValue depthLimit (cs.length + 1) (skipBlank rest)
  return (⟨← draft.root.addUnder draft.header path key value, draft.header⟩, ← endLine rest)

def readLines : Nat → Draft → List Char → Option Draft
  | 0, _, _ => none
  | steps + 1, draft, cs =>
    match skipBlank cs with
    | [] => some draft
    | '#' :: rest => (endLine ('#' :: rest)).bind (readLines steps draft)
    | '[' :: rest => (draft.readHeader rest).bind fun (draft, rest) => readLines steps draft rest
    | c :: rest =>
      if c == '\n' || c == '\r' then (dropNewline (c :: rest)).bind (readLines steps draft)
      else (draft.readPair (c :: rest)).bind fun (draft, rest) => readLines steps draft rest

end Draft

/-- The text after a byte order mark, if it begins with one. -/
def dropMark : List Char → List Char
  | '\ufeff' :: rest => rest
  | cs => cs

def parse (s : String) : Option Toml :=
  let cs := dropMark s.toList
  (Draft.readLines (cs.length + 1) ⟨[], []⟩ cs).map fun draft => table .header draft.root

end CallChart.Toml
