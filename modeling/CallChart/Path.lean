import CallChart.Text.Split

/-! File paths as they are spelled, compared by their components. -/
namespace CallChart

/-- One step of a path. -/
inductive PathComponent where
  | root
  | here
  | parent
  | named (name : String)
  deriving DecidableEq, Repr

namespace PathComponent

/-- The root comes first, then the current directory, the parent directory and all names. -/
def rank : PathComponent → Nat
  | root => 0
  | here => 1
  | parent => 2
  | named _ => 3

def name : PathComponent → String
  | named name => name
  | _ => ""

instance : Ord PathComponent where
  compare := compareLex (compareOn rank) (compareOn name)

instance : Std.TransOrd PathComponent :=
  inferInstanceAs (Std.TransCmp (compareLex (compareOn rank) (compareOn name)))

instance : Std.LawfulEqOrd PathComponent where
  eq_of_compare {a b} h := by
    have hr : compare a.rank b.rank = .eq ∧ compare a.name b.name = .eq := by
      have hlex : compareLex (compareOn rank) (compareOn name) a b = .eq := h
      simpa only [compareLex, compareOn, Ordering.then_eq_eq] using hlex
    have h1 := Std.LawfulEqOrd.eq_of_compare hr.1
    have h2 := Std.LawfulEqOrd.eq_of_compare hr.2
    cases a <;> cases b <;> simp_all [rank, name]

end PathComponent

/-- A path is its spelling. Repeated and trailing slashes and inner dots do not change what it
names; they are kept because the path is printed as it was given. -/
structure Path where
  text : String
  deriving Repr, Inhabited

namespace Path

def pieces (p : Path) : List String := (Text.split '/' p.text.toList).map String.ofList

def ofPieces (ps : List String) : Path :=
  ⟨String.ofList (Text.join '/' (ps.map String.toList))⟩

/-- A piece that names no step: nothing between two slashes, or a dot. -/
def isBlank (piece : String) : Bool := piece == "" || piece == "."

def component (piece : String) : PathComponent :=
  if piece == ".." then .parent else .named piece

/-- What comes before the body of a path: the root or a leading dot, and the pieces after it. -/
def opening : List String → Option PathComponent × List String
  | "" :: next :: rest => (some .root, next :: rest)
  | "." :: rest => (some .here, rest)
  | ps => (none, ps)

def body (ps : List String) : List PathComponent :=
  (ps.filter fun piece => !isBlank piece).map component

/-- The steps that the path names, from left to right. -/
def components (p : Path) : List PathComponent :=
  let (first, rest) := opening p.pieces
  first.toList ++ body rest

instance : Ord Path where
  compare := compareOn components

instance : Std.TransOrd Path :=
  inferInstanceAs (Std.TransCmp (compareOn components))

theorem compare_eq_iff {p q : Path} : compare p q = .eq ↔ p.components = q.components :=
  Std.compare_eq_iff_eq (α := List PathComponent)

/-- Two spellings name one path when their components agree. -/
def same (p q : Path) : Bool := p.components == q.components

def isAbsolute (p : Path) : Bool := p.text.toList.head? == some '/'

/-- The path `p` taken from the directory `base`. An absolute path replaces the base. -/
def join (base p : Path) : Path :=
  if p.isAbsolute then p
  else if base.text == "" || base.text.toList.getLast? == some '/' then ⟨base.text ++ p.text⟩
  else ⟨base.text ++ "/" ++ p.text⟩

/-- Component by component, `p` begins with `base`. -/
def startsWith (p base : Path) : Bool := base.components.isPrefixOf p.components

/-- Without the blank pieces at the end. -/
def trimRight (ps : List String) : List String := (ps.reverse.dropWhile isBlank).reverse

/-- The pieces left after the first `n` named steps, and the blanks that follow them. -/
def dropSteps : Nat → List String → List String
  | _, [] => []
  | n, piece :: rest =>
    if isBlank piece then dropSteps n rest
    else
      match n with
      | 0 => piece :: rest
      | n + 1 => dropSteps n rest

/-- A path spelled by its opening and the pieces of its body. -/
def spell (first : Option PathComponent) (rest : List String) : Path :=
  match first with
  | none => ofPieces rest
  | some .root => ⟨"/" ++ (ofPieces rest).text⟩
  | some _ => ofPieces ("." :: rest)

/-- What remains of `p` after the components of `base`, if it begins with them. -/
def relativeTo? (p base : Path) : Option Path :=
  if !p.startsWith base then none
  else
    let (first, rest) := opening p.pieces
    match base.components.length, first with
    | 0, _ => some (spell first (trimRight rest))
    | n + 1, some _ => some (ofPieces (trimRight (dropSteps n rest)))
    | n + 1, none => some (ofPieces (trimRight (dropSteps (n + 1) rest)))

/-- `p` as seen from `base`; a path outside of `base` is left alone. -/
def relativeTo (p base : Path) : Path := (p.relativeTo? base).getD p

/-- The path without its last component. The root and the empty path have no parent. -/
def parent? (p : Path) : Option Path :=
  let (first, rest) := opening p.pieces
  match trimRight rest, first with
  | [], some .here => some ⟨""⟩
  | [], _ => none
  | ps, _ => some (spell first (trimRight ps.dropLast))

end Path
end CallChart
