import CallChart.Layout.Request
import CallChart.Proofs.Components

/-! What is asked about components. A request names the nodes of its component in an order that depends on
nothing but their names and ids, and no two components have one request. -/
namespace CallChart

variable {F α : Type}

/-! ### Labels tell nodes apart -/

namespace Text

/-- What a hexadecimal digit stands for. -/
def digitValue (c : Char) : Nat := if c.isDigit then c.toNat - 48 else c.toNat - 87

/-- The number that digits spell. -/
def valueOf (digits : List Char) : Nat := digits.foldl (fun n c => 16 * n + digitValue c) 0

theorem digitValue_digitChar {n : Nat} (h : n < 16) : digitValue n.digitChar = n := by
  have hall : ∀ k : Fin 16, digitValue k.val.digitChar = k.val := by decide
  exact hall ⟨n, h⟩

theorem valueOf_concat (digits : List Char) (c : Char) :
    valueOf (digits ++ [c]) = 16 * valueOf digits + digitValue c := by
  rw [valueOf, List.foldl_append]
  rfl

theorem valueOf_hexDigits (n : Nat) : valueOf (hexDigits n) = n := by
  induction n using Nat.strongRecOn with
  | ind n ih =>
    unfold hexDigits at ih ⊢
    rw [Nat.toDigits_eq_if (by decide)]
    split
    · next hsmall =>
      rw [← List.nil_append [n.digitChar], valueOf_concat, digitValue_digitChar hsmall]
      exact Nat.zero_add n
    · next hlarge =>
      have hmod : n % 16 < 16 := Nat.mod_lt _ (by decide)
      rw [valueOf_concat, ih (n / 16) (by omega), digitValue_digitChar hmod]
      exact Nat.div_add_mod n 16

theorem valueOf_hex (width n : Nat) : valueOf (hex width n).toList = n := by
  have hzeros (k : Nat) : (List.replicate k '0').foldl (fun n c => 16 * n + digitValue c) 0 = 0 := by
    induction k with
    | zero => rfl
    | succ k ih => exact ih
  rw [hex, String.toList_ofList, valueOf, List.foldl_append, hzeros]
  exact valueOf_hexDigits n

end Text

theorem NodeId.label_injective : Function.Injective NodeId.label := by
  intro a b h
  have hlabel := congrArg String.toList h
  rw [label, label, String.toList_append, String.toList_append] at hlabel
  have hvalue := congrArg Text.valueOf (List.append_cancel_left hlabel)
  rw [Text.valueOf_hex, Text.valueOf_hex] at hvalue
  obtain ⟨a⟩ := a
  obtain ⟨b⟩ := b
  exact congrArg NodeId.mk (UInt64.toNat_inj.mp hvalue)

/-! ### Nodes in order -/

theorem pairwise_isLE_mergeSort {β : Type} (cmp : β → β → Ordering) [Std.TransCmp cmp] (xs : List β) :
    (xs.mergeSort fun a b => (cmp a b).isLE).Pairwise fun a b => (cmp a b).isLE = true := by
  refine List.pairwise_mergeSort (fun _ _ _ => Std.TransCmp.isLE_trans) (fun a b => ?_) xs
  have hswap : cmp b a = (cmp a b).swap := Std.OrientedCmp.eq_swap
  rw [hswap]
  cases cmp a b <;> rfl

/-- Sorting leaves no choice if elements that may stand in either order are the same. -/
theorem mergeSort_eq_of_perm {β : Type} {cmp : β → β → Ordering} [Std.TransCmp cmp] {xs ys : List β}
    (hsame : ∀ a ∈ xs, ∀ b ∈ xs, cmp a b = .eq → a = b) (h : xs.Perm ys) :
    xs.mergeSort (fun a b => (cmp a b).isLE) = ys.mergeSort fun a b => (cmp a b).isLE := by
  have hx := List.mergeSort_perm xs fun a b => (cmp a b).isLE
  have hy := List.mergeSort_perm ys fun a b => (cmp a b).isLE
  refine List.Perm.eq_of_pairwise (fun a b ha hb hab hba => ?_) (pairwise_isLE_mergeSort cmp xs)
    (pairwise_isLE_mergeSort cmp ys) ((hx.trans h).trans hy.symm)
  exact hsame a (hx.mem_iff.mp ha) b (h.mem_iff.mpr (hy.mem_iff.mp hb)) (Std.OrientedCmp.isLE_antisymm hab hba)

namespace LayoutRequest

instance : Std.LawfulEqOrd SortKey where
  eq_of_compare {a b} h := by
    have hlex : compareLex (compareOn SortKey.name) (compareOn SortKey.id) a b = .eq := h
    have hboth : compare a.name b.name = .eq ∧ compare a.id b.id = .eq := by
      simpa only [compareLex, compareOn, Ordering.then_eq_eq] using hlex
    have hname := Std.LawfulEqOrd.eq_of_compare hboth.1
    have hid := Std.LawfulEqOrd.eq_of_compare hboth.2
    cases a
    cases b
    simp_all

variable [Handle F] {g g' : Graph F α}

theorem perm_sorted (g : Graph F α) (ids : List NodeId) : (sorted g ids).Perm ids := by
  have hkeys := (List.mergeSort_perm (ids.map (sortKey g)) fun a b => (compare a b).isLE).map SortKey.id
  have hids : (ids.map (sortKey g)).map SortKey.id = ids := by
    rw [List.map_map]
    exact List.map_id ids
  exact hkeys.trans (.of_eq hids)

/-- The order of nodes depends on the nodes and on their keys. -/
theorem sorted_congr {ids ids' : List NodeId} (h : ids.Perm ids')
    (hkey : ∀ id ∈ ids, sortKey g id = sortKey g' id) : sorted g ids = sorted g' ids' := by
  have hsorted : (ids.map (sortKey g')).mergeSort (fun a b => (compare a b).isLE) =
      (ids'.map (sortKey g')).mergeSort fun a b => (compare a b).isLE :=
    mergeSort_eq_of_perm (fun _ _ _ _ => Std.LawfulEqOrd.eq_of_compare) (h.map (sortKey g'))
  rw [sorted, sorted, List.map_congr_left hkey, hsorted]

theorem perm_order (g : Graph F α) (c : Component) : (order g c).Perm c.nodes := perm_sorted g c.nodes

/-- Components with the same request have the same nodes. -/
theorem perm_of_ofComponent_eq {c d : Component} (h : ofComponent g c = ofComponent g d) : c.nodes.Perm d.nodes := by
  have hlabels : (order g c).map NodeId.label = (order g d).map NodeId.label := congrArg LayoutRequest.nodes h
  have horder := List.map_injective_iff.mpr NodeId.label_injective hlabels
  exact ((perm_order g c).symm.trans (.of_eq horder)).trans (perm_order g d)

/-- Every component has a request of its own. -/
theorem nodup_requests (hg : g.Sound) : (g.components.map (ofComponent g)).Nodup := by
  refine List.pairwise_map.mpr (hg.components_disjoint.imp_of_mem fun {c d} hc _ hdisjoint heq => ?_)
  obtain ⟨id, hid⟩ := List.exists_mem_of_ne_nil _ (hg.component_ne_nil hc)
  exact hdisjoint hid ((perm_of_ofComponent_eq heq).mem_iff.mp hid)

end LayoutRequest
end CallChart
