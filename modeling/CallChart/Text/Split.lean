/-! Cutting text at a separator and rejoining the pieces. -/
namespace CallChart.Text

/-- The pieces between separators; a text without one is a single piece. -/
def split (separator : Char) : List Char → List (List Char)
  | [] => [[]]
  | c :: rest =>
    if c = separator then [] :: split separator rest
    else
      match split separator rest with
      | [] => [[c]]
      | piece :: pieces => (c :: piece) :: pieces

/-- The pieces with one separator between neighbours. -/
def join (separator : Char) : List (List Char) → List Char
  | [] => []
  | [piece] => piece
  | piece :: pieces => piece ++ separator :: join separator pieces

theorem split_ne_nil (separator : Char) (text : List Char) : split separator text ≠ [] := by
  cases text with
  | nil => simp [split]
  | cons c rest =>
    unfold split
    split
    · simp
    · split <;> simp

/-- No character is lost: joining the pieces gives the text back. -/
theorem join_split (separator : Char) (text : List Char) :
    join separator (split separator text) = text := by
  induction text with
  | nil => rfl
  | cons c rest ih =>
    unfold split
    have hne := split_ne_nil separator rest
    by_cases hc : c = separator
    · subst hc
      cases hs : split c rest with
      | nil => exact absurd hs hne
      | cons piece pieces =>
        rw [hs] at ih
        simp [join, ih]
    · cases hs : split separator rest with
      | nil => exact absurd hs hne
      | cons piece pieces =>
        rw [hs] at ih
        cases pieces with
        | nil => simpa [hc, join] using ih
        | cons next more => simpa [hc, join] using ih

/-- A piece holds no separator. -/
theorem separator_notMem_of_mem_split (separator : Char) (text : List Char) :
    ∀ piece ∈ split separator text, separator ∉ piece := by
  induction text with
  | nil => simp [split]
  | cons c rest ih =>
    unfold split
    by_cases hc : c = separator
    · simpa [hc] using ih
    · cases hs : split separator rest with
      | nil => exact absurd hs (split_ne_nil separator rest)
      | cons piece pieces =>
        rw [hs] at ih
        have hne : separator ≠ c := fun h => hc h.symm
        simp only [hc, if_false, List.mem_cons, forall_eq_or_imp] at ih ⊢
        exact ⟨fun h => h.elim hne ih.1, ih.2⟩

theorem split_of_notMem (separator : Char) {text : List Char} (h : separator ∉ text) :
    split separator text = [text] := by
  induction text with
  | nil => rfl
  | cons c rest ih =>
    have hne : c ≠ separator := fun hc => h (by simp [hc])
    rw [split, if_neg hne, ih fun hm => h (List.mem_cons_of_mem c hm)]

/-- Texts on the two sides of a separator are cut on their own. -/
theorem split_append_separator (separator : Char) (before after : List Char) :
    split separator (before ++ separator :: after) = split separator before ++ split separator after := by
  induction before with
  | nil => simp [split]
  | cons c rest ih =>
    rw [List.cons_append, split, split, ih]
    by_cases hc : c = separator
    · simp [hc]
    · rcases hs : split separator rest with _ | ⟨piece, pieces⟩
      · exact absurd hs (split_ne_nil separator rest)
      · simp [hc]

theorem split_append (separator : Char) {piece : List Char} (h : separator ∉ piece)
    (text : List Char) :
    split separator (piece ++ separator :: text) = piece :: split separator text := by
  rw [split_append_separator, split_of_notMem separator h, List.singleton_append]

/-- Pieces without separators are found again in the joined text. -/
theorem split_join (separator : Char) {pieces : List (List Char)} (hne : pieces ≠ [])
    (h : ∀ piece ∈ pieces, separator ∉ piece) :
    split separator (join separator pieces) = pieces := by
  induction pieces with
  | nil => exact absurd rfl hne
  | cons piece rest ih =>
    obtain ⟨hpiece, hrest⟩ := List.forall_mem_cons.mp h
    cases rest with
    | nil => exact split_of_notMem separator hpiece
    | cons next more =>
      rw [join, split_append separator hpiece, ih (by simp) hrest]
      simp

end CallChart.Text
