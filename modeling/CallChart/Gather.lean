import Std.Data.TreeSet

/-! Sets made from lists, and what it means that a list names an element. -/
namespace CallChart

variable {α : Type} [Ord α]

/-- A list names an element if it holds one that compares as equal. -/
def Listed (xs : List α) (x : α) : Prop := ∃ y ∈ xs, compare y x = .eq

/-- The set of the listed elements. Of elements that are equal the last one is kept. -/
def gather (xs : List α) : Std.TreeSet α := Std.TreeSet.ofList xs.reverse

/-- Elements taken as equal if they compare so. -/
@[reducible] def comparing : BEq α := ⟨fun a b => compare a b == .eq⟩

theorem lawful_comparing : @Std.LawfulBEqCmp α comparing compare :=
  let := comparing (α := α)
  ⟨fun {a b} => (beq_iff_eq (a := compare a b)).symm⟩

variable [Std.TransOrd α]

theorem contains_iff_listed {xs : List α} {x : α} :
    @List.contains α comparing xs x = true ↔ Listed xs x := by
  rw [@List.contains_eq_any_beq α comparing, List.any_eq_true]
  refine exists_congr fun y => and_congr_right fun _ => ?_
  rw [Std.OrientedCmp.eq_comm (a := y)]
  exact beq_iff_eq (a := compare x y)

theorem mem_ofList_iff {xs : List α} {x : α} : x ∈ Std.TreeSet.ofList xs ↔ Listed xs x := by
  let := comparing (α := α)
  have := lawful_comparing (α := α)
  rw [Std.TreeSet.mem_ofList, contains_iff_listed]

theorem mem_gather_iff {xs : List α} {x : α} : x ∈ gather xs ↔ Listed xs x := by
  rw [gather, mem_ofList_iff]
  simp [Listed]

theorem listed_toList_iff {s : Std.TreeSet α} {x : α} : Listed s.toList x ↔ x ∈ s := by
  let := comparing (α := α)
  have := lawful_comparing (α := α)
  rw [← contains_iff_listed, Std.TreeSet.contains_toList, Std.TreeSet.contains_iff_mem]

end CallChart
