import CallChart.Proofs.Rounds

/-! The smallest index: a list of calls, which knows every function. With it stand surroundings in
which nothing happens but that questions are answered. -/
namespace CallChart

variable {F : Type} [Handle F]

/-- A function that stands alone in its file. -/
def SourceFunction.named (name : String) : SourceFunction := ⟨name, name, ⟨name⟩, none⟩

namespace CallIndex

/-- The calls of a list that a function takes part in at one end. -/
def callsAt (coverage : Coverage) (f : F) (calls : List (Call F)) : List (Call F) :=
  calls.filter fun call => (compare (coverage.near call) f).isEq

theorem mem_ofList_callsAt {coverage : Coverage} {f g : F} {calls : List (Call F)} :
    g ∈ Std.TreeSet.ofList ((callsAt coverage f calls).map coverage.far) ↔
      Listed calls (coverage.call f g) := by
  rw [mem_ofList_iff]
  simp only [Listed, callsAt, List.mem_map, List.mem_filter, coverage.compare_iff, Coverage.near_call,
    Coverage.far_call, Ordering.isEq_iff_eq_eq]
  constructor
  · rintro ⟨_, ⟨call, ⟨hcall, hnear⟩, rfl⟩, hfar⟩
    exact ⟨call, hcall, hnear, hfar⟩
  · rintro ⟨call, hcall, hnear, hfar⟩
    exact ⟨_, ⟨call, ⟨hcall, hnear⟩, rfl⟩, hfar⟩

/-- The functions that take part in the calls of a list. -/
def ends (calls : List (Call F)) : List F := calls.map Call.caller ++ calls.map Call.callee

theorem exists_ends {calls : List (Call F)} {coverage : Coverage} {f g : F}
    (h : Listed calls (coverage.call f g)) : ∃ g' ∈ ends calls, compare g' g = .eq := by
  obtain ⟨call, hcall, hends⟩ := h
  have hfar := (coverage.compare_iff.mp hends).2
  rw [Coverage.far_call] at hfar
  refine ⟨coverage.far call, ?_, hfar⟩
  cases coverage with
  | callers => exact List.mem_append_left _ (List.mem_map_of_mem hcall)
  | callees => exact List.mem_append_right _ (List.mem_map_of_mem hcall)

/-- The index of a list of calls. Its functions are the ends of the calls. -/
def ofCalls (calls : List (Call F)) : CallIndex F where
  functions _ := .ok (Std.TreeSet.ofList (ends calls))
  neighbours coverage f := .ok (Std.TreeSet.ofList ((callsAt coverage f calls).map coverage.far))
  population := calls.length + calls.length
  neighbours_congr {coverage f g _} hfg hfound := by
    obtain rfl := Except.ok.inj hfound
    refine ⟨_, rfl, fun h => ?_⟩
    rw [mem_ofList_callsAt, mem_ofList_callsAt]
    have hcall : compare (coverage.call f h) (coverage.call g h) = .eq :=
      coverage.compare_call.mpr ⟨hfg, compare_refl h⟩
    exact ⟨fun hl => hl.congr hcall, fun hl => hl.congr (compare_symm hcall)⟩
  listed := by
    refine ⟨ends calls, by simp [ends], ?_⟩
    intro coverage f _ hfound g hg
    obtain rfl := Except.ok.inj hfound
    exact exists_ends (mem_ofList_callsAt.mp hg)

theorem names_ofCalls {calls : List (Call F)} {coverage : Coverage} {f g : F} :
    (ofCalls calls).Names coverage f g ↔ Listed calls (coverage.call f g) := by
  rw [← mem_ofList_callsAt]
  constructor
  · rintro ⟨found, hfound, hg⟩
    exact Except.ok.inj hfound ▸ hg
  · exact fun hg => ⟨_, rfl, hg⟩

theorem knows_ofCalls (calls : List (Call F)) (f : F) : (ofCalls calls).Knows f := fun _ => ⟨_, rfl⟩

theorem coherent_ofCalls (calls : List (Call F)) : (ofCalls calls).Coherent where
  mirrored := by
    intro f g
    rw [names_ofCalls, names_ofCalls]
    rfl
  closed _ := knows_ofCalls calls _

/-- Nothing is cancelled, nobody listens, and the index answers in the order of the questions. -/
def quiet (index : CallIndex F) (v : Versions) : Surroundings Unit F where
  cancelled := pure false
  versions := pure v
  ask coverage f := pure (index.neighbours coverage f)
  progress _ := pure ()
  schedule := id
  population := index.population

theorem calm_quiet (index : CallIndex F) (v : Versions) :
    (index.quiet v).Calm (fun _ => True) index where
  cancelled := id
  versions := id
  ask _ _ := id
  progress _ := id
  quiet _ := rfl
  answers _ _ _ := rfl
  schedule fs := .refl fs
  population := Nat.le_refl _

end CallIndex
end CallChart
