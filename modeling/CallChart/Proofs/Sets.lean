import CallChart.Gather
import CallChart.Cache

/-! Sets of handles. Two handles of one function need not be equal, so a set is known by the handles
that compare as equal to one of its own, and its size by how many of them differ. -/
namespace CallChart

variable {α : Type} [Ord α] [Std.TransOrd α]

theorem compare_symm {a b : α} (h : compare a b = .eq) : compare b a = .eq := Std.OrientedCmp.eq_symm h

theorem compare_trans {a b c : α} (hab : compare a b = .eq) (hbc : compare b c = .eq) :
    compare a c = .eq := Std.TransCmp.eq_trans hab hbc

theorem compare_refl (a : α) : compare a a = .eq := Std.ReflCmp.compare_self

namespace Listed

theorem of_mem {xs : List α} {x : α} (h : x ∈ xs) : Listed xs x := ⟨x, h, compare_refl x⟩

theorem congr {xs : List α} {x y : α} (h : Listed xs x) (hxy : compare x y = .eq) : Listed xs y :=
  let ⟨z, hz, hzx⟩ := h
  ⟨z, hz, compare_trans hzx hxy⟩

omit [Std.TransOrd α] in
@[simp] theorem nil (x : α) : ¬ Listed [] x := by simp [Listed]

omit [Std.TransOrd α] in
theorem cons {xs : List α} {x y : α} :
    Listed (y :: xs) x ↔ compare y x = .eq ∨ Listed xs x := by simp [Listed]

omit [Std.TransOrd α] in
theorem append {xs ys : List α} {x : α} :
    Listed (xs ++ ys) x ↔ Listed xs x ∨ Listed ys x := by
  simp only [Listed, List.mem_append, or_and_right, exists_or]

omit [Std.TransOrd α] in
theorem perm {xs ys : List α} (h : xs.Perm ys) {x : α} : Listed xs x ↔ Listed ys x := by
  simp only [Listed, h.mem_iff]

theorem filter_contains {xs : List α} {s : Std.TreeSet α} {x : α} :
    Listed (xs.filter s.contains) x ↔ Listed xs x ∧ x ∈ s := by
  constructor
  · rintro ⟨y, hy, hyx⟩
    obtain ⟨hmem, hs⟩ := List.mem_filter.mp hy
    exact ⟨⟨y, hmem, hyx⟩, (Std.TreeSet.mem_congr hyx).mp hs⟩
  · rintro ⟨⟨y, hy, hyx⟩, hs⟩
    exact ⟨y, List.mem_filter.mpr ⟨hy, (Std.TreeSet.mem_congr hyx).mpr hs⟩, hyx⟩

end Listed

theorem mem_foldl_insert (xs : List α) (s : Std.TreeSet α) (x : α) :
    x ∈ xs.foldl Std.TreeSet.insert s ↔ x ∈ s ∨ Listed xs x := by
  induction xs generalizing s with
  | nil => simp
  | cons y ys ih => rw [List.foldl_cons, ih, Std.TreeSet.mem_insert, Listed.cons]; grind

/-- A set keeps elements of the list it is made of, as they stand there. -/
theorem mem_of_mem_toList_ofList {xs : List α} {x : α} (h : x ∈ (Std.TreeSet.ofList xs).toList) : x ∈ xs := by
  suffices hinsert : ∀ (ys : List α) (s : Std.TreeSet α), x ∈ (s.insertMany ys).toList → x ∈ s.toList ∨ x ∈ ys by
    rw [Std.TreeSet.ofList_eq_insertMany_empty] at h
    exact (hinsert xs ∅ h).resolve_left List.not_mem_nil
  intro ys
  induction ys with
  | nil =>
    intro s hs
    exact .inl hs
  | cons y ys ih =>
    intro s hs
    rw [Std.TreeSet.insertMany_cons] at hs
    rcases ih _ hs with hins | hys
    · let := comparing (α := α)
      have := lawful_comparing (α := α)
      have hmem := Std.TreeSet.toList_insert_perm.mem_iff.mp hins
      split at hmem
      · exact .inl hmem
      · rcases List.mem_cons.mp hmem with rfl | hold
        · exact .inr List.mem_cons_self
        · exact .inl hold
    · exact .inr (List.mem_cons_of_mem y hys)

/-- Differing elements that are new are counted one by one. -/
theorem size_foldl_insert {xs : List α} {s : Std.TreeSet α}
    (hd : xs.Pairwise fun a b => compare a b ≠ .eq) (hnew : ∀ x ∈ xs, x ∉ s) :
    (xs.foldl Std.TreeSet.insert s).size = s.size + xs.length := by
  induction xs generalizing s with
  | nil => simp
  | cons y ys ih =>
    obtain ⟨hy, hys⟩ := List.pairwise_cons.mp hd
    have hnew' : ∀ x ∈ ys, x ∉ s.insert y := fun x hx hm =>
      (Std.TreeSet.mem_insert.mp hm).elim (hy x hx) (hnew x (List.mem_cons_of_mem y hx))
    have hsize : (s.insert y).size = s.size + 1 := by
      have hy' : ¬ s.contains y = true := hnew y List.mem_cons_self
      rw [Std.TreeSet.size_insert, if_neg hy']
    rw [List.foldl_cons, ih hys hnew', hsize, List.length_cons]
    omega

/-- Differing elements of a set are no more than the set has. -/
theorem length_le_size {xs : List α} {s : Std.TreeSet α}
    (hd : xs.Pairwise fun a b => compare a b ≠ .eq) (h : ∀ x ∈ xs, x ∈ s) :
    xs.length ≤ s.size := by
  induction xs generalizing s with
  | nil => simp
  | cons y ys ih =>
    obtain ⟨hy, hys⟩ := List.pairwise_cons.mp hd
    have hmem : s.contains y := h y List.mem_cons_self
    have hrest := ih hys (s := s.erase y) fun x hx =>
      Std.TreeSet.mem_erase.mpr ⟨hy x hx, h x (List.mem_cons_of_mem y hx)⟩
    have hpos := Std.TreeSet.isEmpty_eq_false_of_contains hmem
    rw [Std.TreeSet.size_erase, if_pos hmem] at hrest
    rw [Std.TreeSet.isEmpty_eq_size_eq_zero, beq_eq_false_iff_ne] at hpos
    rw [List.length_cons]
    omega

theorem size_le_of_subset {s t : Std.TreeSet α} (h : ∀ x ∈ s, x ∈ t) : s.size ≤ t.size := by
  rw [← Std.TreeSet.length_toList]
  exact length_le_size Std.TreeSet.distinct_toList fun x hx => h x (Std.TreeSet.mem_of_mem_toList hx)

theorem size_eq_of_mem_iff {s t : Std.TreeSet α} (h : ∀ x, x ∈ s ↔ x ∈ t) : s.size = t.size :=
  Nat.le_antisymm (size_le_of_subset fun x => (h x).mp) (size_le_of_subset fun x => (h x).mpr)

/-- Differing elements that a list names are no more than its entries. -/
theorem length_le_of_listed {xs ys : List α} (hd : xs.Pairwise fun a b => compare a b ≠ .eq)
    (h : ∀ x ∈ xs, Listed ys x) : xs.length ≤ ys.length :=
  Nat.le_trans (length_le_size hd fun x hx => mem_ofList_iff.mpr (h x hx))
    Std.TreeSet.size_ofList_le

end CallChart
