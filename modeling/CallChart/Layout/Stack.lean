import CallChart.Layout.Bounds

/-! Stacking components below each other, the tallest first. -/
namespace CallChart

/-- A component with its box and its size, which includes one grid step on each axis. -/
structure SizedBlueprint (α : Type) where
  blueprint : Blueprint α
  bounds : Bounds α
  height : α
  width : α

namespace SizedBlueprint

variable {α : Type} [Scalar α]

def ofBlueprint? (gridSize : α) (b : Blueprint α) : Option (SizedBlueprint α) :=
  (Bounds.ofPoints? (b.map Prod.snd)).map fun box =>
    ⟨b, box, box.maxY - box.minY + gridSize, box.maxX - box.minX + gridSize⟩

/-- Whether `a` may stand above `b`: it is higher, or as high and no narrower. -/
def above (a b : SizedBlueprint α) : Bool :=
  ((Scalar.order b.height a.height).then (Scalar.order b.width a.width)).isLE

/-- The first of the leftmost points, the upper one of those that are equally far left. -/
def anchor? (b : Blueprint α) : Option (Point α) :=
  match b.map Prod.snd with
  | [] => none
  | p :: rest =>
    some (rest.foldl
      (fun best q =>
        if ((Scalar.order q.x best.x).then (Scalar.order q.y best.y)).isLT then q else best) p)

/-- How far below its upper border the anchor of the first component lies. -/
def centralLine : List (SizedBlueprint α) → α
  | [] => Scalar.zero
  | first :: _ =>
    match anchor? first.blueprint with
    | some p => p.y - first.bounds.minY
    | none => Scalar.zero

/-- The points of components placed below each other, from `offset` downwards. -/
def placeFrom (central offset : α) : List (SizedBlueprint α) → Blueprint α
  | [] => []
  | s :: rest =>
    (s.blueprint.map fun entry =>
      (entry.1,
        (⟨entry.2.x - s.bounds.minX + Scalar.half,
          entry.2.y - s.bounds.minY + offset - central + Scalar.half⟩ : Point α))) ++
      placeFrom central (offset + s.height) rest

end SizedBlueprint

namespace Blueprint

variable {α : Type} [Scalar α]

/-- The components that have points, the tallest first and of equally tall ones the widest. -/
def sized (gridSize : α) (bs : List (Blueprint α)) : List (SizedBlueprint α) :=
  (bs.filterMap (SizedBlueprint.ofBlueprint? gridSize)).mergeSort SizedBlueprint.above

/-- One drawing of all components. Each is left-aligned and begins one grid step below the one
before it, and the anchor of the first lies on the line y = 1/2. -/
def stack (gridSize : α) (bs : List (Blueprint α)) : Blueprint α :=
  let ordered := sized gridSize bs
  SizedBlueprint.placeFrom (SizedBlueprint.centralLine ordered) Scalar.zero ordered

end Blueprint
end CallChart
