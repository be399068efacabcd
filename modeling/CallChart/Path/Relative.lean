import CallChart.Path

/-! What remains of a path below a directory, in steps: how a path is spelled does not matter. -/
namespace CallChart.Path

/-- The pieces of a spelling hold no slash. -/
def Clean (ps : List String) : Prop := ∀ piece ∈ ps, '/' ∉ piece.toList

theorem clean_pieces (p : Path) : Clean p.pieces := by
  intro piece hp
  obtain ⟨chars, hc, rfl⟩ := List.mem_map.mp hp
  simpa using Text.separator_notMem_of_mem_split '/' p.text.toList chars hc

theorem pieces_ofPieces {ps : List String} (hne : ps ≠ []) (h : Clean ps) :
    (ofPieces ps).pieces = ps := by
  have hsplit : Text.split '/' (Text.join '/' (ps.map String.toList)) = ps.map String.toList :=
    Text.split_join '/' (by simpa using hne) (by simpa [Clean] using h)
  simp [pieces, ofPieces, hsplit]

theorem clean_of_sublist {ps qs : List String} (h : ps.Sublist qs) (hq : Clean qs) : Clean ps :=
  fun piece hp => hq piece (h.subset hp)

theorem trimRight_sublist (ps : List String) : (trimRight ps).Sublist ps := by
  have h := (List.dropWhile_sublist (l := ps.reverse) isBlank).reverse
  simpa [trimRight] using h

theorem body_append (ps qs : List String) : body (ps ++ qs) = body ps ++ body qs := by
  simp [body]

theorem body_of_blank {ps : List String} (h : ∀ piece ∈ ps, isBlank piece) : body ps = [] := by
  simpa [body] using h

/-- Blank pieces at the end name no steps. -/
theorem body_trimRight (ps : List String) : body (trimRight ps) = body ps := by
  have hsplit : trimRight ps ++ (ps.reverse.takeWhile isBlank).reverse = ps := by
    rw [trimRight, ← List.reverse_append, List.takeWhile_append_dropWhile, List.reverse_reverse]
  have hblank : body (ps.reverse.takeWhile isBlank).reverse = [] :=
    body_of_blank fun piece hp =>
      List.all_eq_true.mp List.all_takeWhile piece (List.mem_reverse.mp hp)
  calc body (trimRight ps) = body (trimRight ps) ++ body (ps.reverse.takeWhile isBlank).reverse := by
        rw [hblank, List.append_nil]
    _ = body ps := by rw [← body_append, hsplit]

theorem dropSteps_blank {piece : String} (h : isBlank piece) (n : Nat) (rest : List String) :
    dropSteps n (piece :: rest) = dropSteps n rest := by
  cases n <;> simp [dropSteps, h]

theorem dropSteps_zero {piece : String} (h : ¬ isBlank piece) (rest : List String) :
    dropSteps 0 (piece :: rest) = piece :: rest := by
  simp [dropSteps, h]

theorem dropSteps_succ {piece : String} (h : ¬ isBlank piece) (n : Nat) (rest : List String) :
    dropSteps (n + 1) (piece :: rest) = dropSteps n rest := by
  simp [dropSteps, h]

theorem body_dropSteps (n : Nat) (ps : List String) : body (dropSteps n ps) = (body ps).drop n := by
  induction ps generalizing n with
  | nil => simp [dropSteps, body]
  | cons piece rest ih =>
    by_cases hb : isBlank piece
    · have hbody : body (piece :: rest) = body rest := by simp [body, hb]
      rw [dropSteps_blank hb, ih, hbody]
    · have hbody : body (piece :: rest) = component piece :: body rest := by simp [body, hb]
      cases n with
      | zero => rw [dropSteps_zero hb, List.drop_zero]
      | succ n => rw [dropSteps_succ hb, ih, hbody, List.drop_succ_cons]

theorem dropSteps_sublist (n : Nat) (ps : List String) : (dropSteps n ps).Sublist ps := by
  induction ps generalizing n with
  | nil => simp [dropSteps]
  | cons piece rest ih =>
    by_cases hb : isBlank piece
    · rw [dropSteps_blank hb]
      exact (ih n).trans (List.sublist_cons_self piece rest)
    · cases n with
      | zero => simp only [dropSteps_zero hb, List.Sublist.refl]
      | succ n => rw [dropSteps_succ hb]; exact (ih n).trans (List.sublist_cons_self piece rest)

/-- The pieces begin with a step, if there are any. -/
def Begun (ps : List String) : Prop := ∀ piece ∈ ps.head?, ¬ isBlank piece

theorem begun_dropSteps (n : Nat) (ps : List String) : Begun (dropSteps n ps) := by
  induction ps generalizing n with
  | nil => simp [dropSteps, Begun]
  | cons piece rest ih =>
    by_cases hb : isBlank piece
    · rw [dropSteps_blank hb]; exact ih n
    · cases n with
      | zero => rw [dropSteps_zero hb]; simpa [Begun] using hb
      | succ n => rw [dropSteps_succ hb]; exact ih n

theorem trimRight_cons {piece : String} (h : ¬ isBlank piece) (rest : List String) :
    trimRight (piece :: rest) = piece :: trimRight rest := by
  unfold trimRight
  rw [List.reverse_cons, List.dropWhile_append]
  split
  · simp_all [List.dropWhile]
  · simp

theorem begun_trimRight {ps : List String} (h : Begun ps) : Begun (trimRight ps) := by
  cases ps with
  | nil => simpa [trimRight] using h
  | cons piece rest =>
    have hp : ¬ isBlank piece := h piece (by simp)
    rw [trimRight_cons hp]
    exact h

theorem opening_of_begun {ps : List String} (h : Begun ps) : opening ps = (none, ps) := by
  unfold opening
  split
  · exact absurd (h "" (by simp)) (by simp [isBlank])
  · exact absurd (h "." (by simp)) (by simp [isBlank])
  · rfl

/-- Pieces that begin with a step spell the path of their steps. -/
theorem components_ofPieces {ps : List String} (hc : Clean ps) (hb : Begun ps) :
    (ofPieces ps).components = body ps := by
  by_cases hne : ps = []
  · subst hne; rfl
  · simp [components, pieces_ofPieces hne hc, opening_of_begun hb]

theorem body_pieces_ofPieces {ps : List String} (h : Clean ps) : body (ofPieces ps).pieces = body ps := by
  by_cases hne : ps = []
  · subst hne; rfl
  · rw [pieces_ofPieces hne h]

theorem pieces_slash (q : Path) : (Path.mk ("/" ++ q.text)).pieces = "" :: q.pieces := by
  simp [pieces, Text.split]

theorem pieces_ne_nil (p : Path) : p.pieces ≠ [] := by
  simpa [pieces] using Text.split_ne_nil '/' p.text.toList

/-- The three ways in which the pieces of a path open. -/
theorem opening_cases (p : Path) :
    (∃ rest, rest ≠ [] ∧ p.pieces = "" :: rest ∧ opening p.pieces = (some .root, rest)) ∨
      (∃ rest, p.pieces = "." :: rest ∧ opening p.pieces = (some .here, rest)) ∨
      (Begun (trimRight p.pieces) ∧ opening p.pieces = (none, p.pieces)) := by
  rcases hp : p.pieces with _ | ⟨piece, rest⟩
  · exact absurd hp (pieces_ne_nil p)
  · by_cases hempty : piece = ""
    · subst hempty
      cases rest with
      | nil => exact .inr (.inr ⟨by simp [trimRight, Begun, isBlank], rfl⟩)
      | cons next more => exact .inl ⟨next :: more, by simp, rfl, rfl⟩
    · by_cases hdot : piece = "."
      · subst hdot
        exact .inr (.inl ⟨rest, rfl, rfl⟩)
      · have hb : Begun (piece :: rest) := by simp [Begun, isBlank, hempty, hdot]
        exact .inr (.inr ⟨begun_trimRight hb, opening_of_begun hb⟩)

theorem components_of_opening {p : Path} {first : Option PathComponent} {rest : List String}
    (h : opening p.pieces = (first, rest)) : p.components = first.toList ++ body rest := by
  rw [components, h]

/-- What an opening leaves is spelled again with it. -/
theorem components_spell {p : Path} {first : Option PathComponent} {rest : List String}
    (h : opening p.pieces = (first, rest)) :
    (spell first (trimRight rest)).components = p.components := by
  have hclean := clean_pieces p
  rw [components_of_opening h]
  rcases opening_cases p with ⟨ps, hne, hp, ho⟩ | ⟨ps, hp, ho⟩ | ⟨hb, ho⟩
  · obtain ⟨rfl, rfl⟩ := Prod.mk.inj (h.symm.trans ho)
    have hc : Clean (trimRight rest) := clean_of_sublist (trimRight_sublist rest) fun piece hm =>
      hclean piece (by simp [hp, hm])
    have hopen : opening (spell (some .root) (trimRight rest)).pieces =
        (some .root, (ofPieces (trimRight rest)).pieces) := by
      rw [spell, pieces_slash]
      cases hq : (ofPieces (trimRight rest)).pieces with
      | nil => exact absurd hq (pieces_ne_nil _)
      | cons => rfl
    rw [components_of_opening hopen, body_pieces_ofPieces hc, body_trimRight]
  · obtain ⟨rfl, rfl⟩ := Prod.mk.inj (h.symm.trans ho)
    have hc : Clean ("." :: trimRight rest) := by
      refine List.forall_mem_cons.mpr ⟨by decide, ?_⟩
      exact clean_of_sublist (trimRight_sublist rest) fun piece hm => hclean piece (by simp [hp, hm])
    have hopen : opening (spell (some .here) (trimRight rest)).pieces =
        (some .here, trimRight rest) := by
      change opening (ofPieces ("." :: trimRight rest)).pieces = _
      rw [pieces_ofPieces (List.cons_ne_nil _ _) hc]
      rfl
    rw [components_of_opening hopen, body_trimRight]
  · obtain ⟨rfl, rfl⟩ := Prod.mk.inj (h.symm.trans ho)
    have hc : Clean (trimRight p.pieces) := clean_of_sublist (trimRight_sublist _) hclean
    rw [spell, components_ofPieces hc hb, body_trimRight]
    rfl

/-- What remains of a path below a directory names the steps after those of the directory. -/
theorem components_relativeTo? {p base q : Path} (h : p.relativeTo? base = some q) :
    q.components = p.components.drop base.components.length := by
  rcases hopen : opening p.pieces with ⟨first, rest⟩
  have hsub : rest.Sublist p.pieces := by
    rcases opening_cases p with ⟨ps, -, hp, ho⟩ | ⟨ps, hp, ho⟩ | ⟨-, ho⟩
    all_goals obtain ⟨-, rfl⟩ := Prod.mk.inj (hopen.symm.trans ho)
    · rw [hp]; exact List.sublist_cons_self _ _
    · rw [hp]; exact List.sublist_cons_self _ _
    · exact List.Sublist.refl _
  have hdrop (n : Nat) : (ofPieces (trimRight (dropSteps n rest))).components = (body rest).drop n := by
    have hc := clean_of_sublist
      (((trimRight_sublist _).trans (dropSteps_sublist n _)).trans hsub) (clean_pieces p)
    rw [components_ofPieces hc (begun_trimRight (begun_dropSteps n _)), body_trimRight,
      body_dropSteps]
  unfold relativeTo? at h
  split at h
  · cases h
  · rw [hopen] at h
    rcases hn : base.components.length with _ | n
    · simp only [hn, Option.some.injEq] at h
      rw [← h, components_spell hopen, List.drop_zero]
    · cases first with
      | none =>
        simp only [hn, Option.some.injEq] at h
        rw [← h, hdrop, components_of_opening hopen, Option.toList_none, List.nil_append]
      | some step =>
        simp only [hn, Option.some.injEq] at h
        rw [← h, hdrop, components_of_opening hopen, Option.toList_some, List.singleton_append,
          List.drop_succ_cons]

theorem isSome_relativeTo? (p base : Path) : (p.relativeTo? base).isSome = p.startsWith base := by
  unfold relativeTo?
  split <;> simp_all
  split <;> rfl

/-- Paths that name the same steps still do so when seen from a directory. -/
theorem relativeTo_congr {p q : Path} (h : compare p q = .eq) (base : Path) :
    compare (p.relativeTo base) (q.relativeTo base) = .eq := by
  have hc := compare_eq_iff.mp h
  rw [compare_eq_iff, relativeTo, relativeTo]
  have hs : (p.relativeTo? base).isSome = (q.relativeTo? base).isSome := by
    rw [isSome_relativeTo?, isSome_relativeTo?, startsWith, startsWith, hc]
  cases hp : p.relativeTo? base with
  | none =>
    cases hq : q.relativeTo? base with
    | none => exact hc
    | some b => simp [hp, hq] at hs
  | some a =>
    cases hq : q.relativeTo? base with
    | none => simp [hp, hq] at hs
    | some b =>
      rw [Option.getD_some, Option.getD_some, components_relativeTo? hp, components_relativeTo? hq, hc]

end CallChart.Path
