import CallChart.Json.Basic

/-! Taking values out of JSON. A record may be written as an object, whose members that are no
fields are passed over, or as an array of its fields in their order. -/
namespace CallChart.Json

def text? : Json → Option String
  | text s => s
  | _ => none

def bool? : Json → Option Bool
  | bool b => some b
  | _ => none

def natBelow? (bound : Nat) : Json → Option Nat
  | integer n => if 0 ≤ n && n < bound then some n.toNat else none
  | _ => none

/-- The items of an array, each of which has to be readable. -/
def list? {α : Type} (read : Json → Option α) : Json → Option (List α)
  | array items => items.mapM read
  | _ => none

def orNull? {α : Type} (read : Json → Option α) : Json → Option (Option α)
  | null => some none
  | j => (read j).map some

/-- The fields found in a record. In an array, fields are not found by name, and only those at its
end may be left out. -/
structure Fields where
  byName : Bool
  found : List (String × Json)

/-- Whether a name is listed twice. -/
def hasRepeated : List String → Bool
  | [] => false
  | name :: rest => rest.contains name || hasRepeated rest

/-- The members of an object that are fields. Every key has to be a text. -/
def members? (names : List String) : List (Option String × Json) → Option (List (String × Json))
  | [] => some []
  | (none, _) :: _ => none
  | (some key, value) :: rest =>
    (members? names rest).map fun found =>
      if names.contains key then (key, value) :: found else found

def fields? (names : List String) : Json → Option Fields
  | object members =>
    (members? names members).bind fun found =>
      if hasRepeated (found.map Prod.fst) then none else some ⟨true, found⟩
  | array items => if items.length ≤ names.length then some ⟨false, names.zip items⟩ else none
  | _ => none

namespace Fields

variable {α : Type}

def find? (fields : Fields) (name : String) : Option Json := fields.found.lookup name

def required (fields : Fields) (name : String) (read : Json → Option α) : Option α :=
  (fields.find? name).bind read

def defaulted (fields : Fields) (name : String) (read : Json → Option α) (default : α) :
    Option α :=
  match fields.find? name with
  | some j => read j
  | none => some default

/-- A field that may be null, and that may be left out of an object. -/
def nullable (fields : Fields) (name : String) (read : Json → Option α) : Option (Option α) :=
  match fields.find? name with
  | some j => orNull? read j
  | none => if fields.byName then some none else none

end Fields

/-- One choice of several: an object with a single member, whose key says which. -/
def choice? : Json → Option (String × Json)
  | object [(some key, value)] => some (key, value)
  | _ => none

end CallChart.Json
