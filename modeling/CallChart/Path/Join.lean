import CallChart.Path.Relative

/-! A path taken from a directory, in steps. -/
namespace CallChart.Path

/-- The path begins with the current directory. It is then relative, and no other step of it is a dot. -/
def isDotted (p : Path) : Bool := p.components.head? == some .here

/-- The steps that pieces name. -/
def steps (ps : List String) : List PathComponent := (opening ps).1.toList ++ body (opening ps).2

theorem components_eq_steps (p : Path) : p.components = steps p.pieces := rfl

theorem notMem_body (ps : List String) : .root ∉ body ps ∧ .here ∉ body ps := by
  simp only [body, List.mem_map, component]
  constructor
  · rintro ⟨piece, -, h⟩
    split at h <;> cases h
  · rintro ⟨piece, -, h⟩
    split at h <;> cases h

theorem steps_root {rest : List String} (h : rest ≠ []) : steps ("" :: rest) = .root :: body rest := by
  cases rest with
  | nil => exact absurd rfl h
  | cons next more => rfl

theorem steps_here (rest : List String) : steps ("." :: rest) = .here :: body rest := rfl

theorem steps_of_begun {ps : List String} (h : Begun ps) : steps ps = body ps := by
  rw [steps, opening_of_begun h]
  rfl

/-- The first piece alone decides how pieces open, if it is not the only one. -/
theorem steps_append (ps qs : List String) (hps : ps ≠ []) (hqs : qs ≠ []) :
    steps (ps ++ qs) = steps (ps ++ [""]) ++ body qs := by
  have hblank : body [""] = [] := rfl
  rcases ps with _ | ⟨piece, rest⟩
  · exact absurd rfl hps
  · by_cases hroot : piece = ""
    · subst hroot
      rw [List.cons_append, steps_root (by simp [hqs]), List.cons_append, steps_root (by simp), body_append,
        body_append, hblank, List.append_nil, List.cons_append]
    · by_cases hdot : piece = "."
      · subst hdot
        rw [List.cons_append, steps_here, List.cons_append, steps_here, body_append, body_append, hblank,
          List.append_nil, List.cons_append]
      · have hbegun (more : List String) : Begun (piece :: rest ++ more) := by simp [Begun, isBlank, hroot, hdot]
        rw [steps_of_begun (hbegun qs), steps_of_begun (hbegun [""]), body_append, body_append, hblank, List.append_nil]

/-- A slash at the end names no step, but for the one that makes a path absolute. -/
theorem steps_append_blank {ps : List String} (hne : ps ≠ []) (hempty : ps ≠ [""]) : steps (ps ++ [""]) = steps ps := by
  rcases ps with _ | ⟨piece, rest⟩
  · exact absurd rfl hne
  · by_cases hrest : rest = []
    · subst hrest
      by_cases hdot : piece = "."
      · subst hdot
        rfl
      · have hroot : piece ≠ "" := fun h => hempty (by rw [h])
        have hbegun (more : List String) : Begun (piece :: more) := by simp [Begun, isBlank, hroot, hdot]
        rw [List.singleton_append, steps_of_begun (hbegun [""]), steps_of_begun (hbegun [])]
        exact (body_append [piece] [""]).trans (List.append_nil _)
    · have hmore := steps_append [piece] rest (by simp) hrest
      have hblank := steps_append [piece] (rest ++ [""]) (by simp) (by simp)
      rw [body_append] at hblank
      exact hblank.trans ((congrArg _ (List.append_nil _)).trans hmore.symm)

theorem pieces_of_append {p : Path} (before after : List Char) (h : p.text.toList = before ++ '/' :: after) :
    p.pieces = (Text.split '/' before).map String.ofList ++ (Text.split '/' after).map String.ofList := by
  rw [pieces, h, Text.split_append_separator, List.map_append]

theorem join_pieces (p : Path) : Text.join '/' (p.pieces.map String.toList) = p.text.toList := by
  simp [pieces, Text.join_split]

theorem map_split_ne_nil (text : List Char) : (Text.split '/' text).map String.ofList ≠ [] := by
  simpa using Text.split_ne_nil '/' text

theorem isAbsolute_iff {p : Path} : p.isAbsolute = true ↔ p.components.head? = some .root := by
  rw [isAbsolute, beq_iff_eq]
  constructor
  · intro h
    obtain ⟨rest, hrest⟩ := List.head?_eq_some_iff.mp h
    rw [components_eq_steps, pieces_of_append [] rest hrest]
    exact congrArg List.head? (steps_root (map_split_ne_nil rest))
  · intro h
    rcases opening_cases p with ⟨rest, hne, hp, -⟩ | ⟨rest, hp, -⟩ | ⟨-, ho⟩
    · rw [← join_pieces, hp]
      rcases rest with _ | ⟨next, more⟩
      · exact absurd rfl hne
      · rfl
    · rw [components_eq_steps, hp, steps_here] at h
      cases h
    · rw [components, ho] at h
      exact absurd (List.mem_of_head? h) (notMem_body _).1

/-- Only the first step of a path can be the root or a dot. -/
theorem notMem_tail (p : Path) : .root ∉ p.components.tail ∧ .here ∉ p.components.tail := by
  rw [components_eq_steps, steps]
  cases (opening p.pieces).1 with
  | none =>
    obtain ⟨hroot, hhere⟩ := notMem_body (opening p.pieces).2
    exact ⟨fun h => hroot (List.mem_of_mem_tail h), fun h => hhere (List.mem_of_mem_tail h)⟩
  | some first => exact notMem_body _

theorem here_notMem_of_absolute {p : Path} (h : p.isAbsolute = true) : .here ∉ p.components := by
  obtain ⟨rest, hrest⟩ := List.head?_eq_some_iff.mp (isAbsolute_iff.mp h)
  have htail := (notMem_tail p).2
  rw [hrest] at htail ⊢
  intro hmem
  rcases List.mem_cons.mp hmem with hroot | hmore
  · cases hroot
  · exact htail hmore

theorem isDotted_of_absolute {p : Path} (h : p.isAbsolute = true) : p.isDotted = false := by
  rw [isDotted, isAbsolute_iff.mp h]
  rfl

/-- A relative path is its body, which a dot may stand before. -/
theorem components_of_relative {p : Path} (h : p.isAbsolute = false) :
    p.components = (if p.isDotted then [.here] else []) ++ body p.pieces := by
  rcases opening_cases p with ⟨rest, hne, hp, -⟩ | ⟨rest, hp, -⟩ | ⟨-, ho⟩
  · have habsolute : p.isAbsolute = true := by
      rw [isAbsolute_iff, components_eq_steps, hp, steps_root hne]
      rfl
    rw [habsolute] at h
    cases h
  · have hsteps : p.components = .here :: body rest := by rw [components_eq_steps, hp, steps_here]
    have hdotted : p.isDotted = true := by rw [isDotted, hsteps]; rfl
    rw [hdotted, hsteps, hp]
    rfl
  · have hsteps : p.components = body p.pieces := by rw [components, ho]; rfl
    have hdotted : p.isDotted = false := by
      rw [isDotted, hsteps, beq_eq_false_iff_ne]
      exact fun hhead => (notMem_body _).2 (List.mem_of_head? hhead)
    rw [hdotted, hsteps]
    rfl

theorem join_of_absolute {base p : Path} (h : p.isAbsolute = true) : base.join p = p := if_pos h

theorem join_of_empty {base : Path} (h : base.text = "") (p : Path) : base.join p = p := by
  rw [join, h]
  split
  · rfl
  · simp

/-- The steps of a relative path follow those of the directory, and its dot is left out. -/
theorem components_join {base p : Path} (hbase : base.text ≠ "") (hp : p.isAbsolute = false) :
    (base.join p).components = base.components ++ body p.pieces := by
  have hpieces : p.pieces ≠ [] := pieces_ne_nil p
  rw [join, hp, if_neg Bool.false_ne_true]
  by_cases hslash : base.text.toList.getLast? = some '/'
  · obtain ⟨before, hbefore⟩ := List.getLast?_eq_some_iff.mp hslash
    have hjoined : (⟨base.text ++ p.text⟩ : Path).text.toList = before ++ '/' :: p.text.toList := by
      simp [hbefore]
    rw [hslash, beq_self_eq_true, Bool.or_true, if_pos rfl, components_eq_steps, pieces_of_append _ _ hjoined,
      components_eq_steps, pieces_of_append _ _ hbefore]
    exact steps_append _ _ (map_split_ne_nil _) hpieces
  · have hjoined : (⟨base.text ++ "/" ++ p.text⟩ : Path).text.toList = base.text.toList ++ '/' :: p.text.toList := by
      simp
    have hone : base.pieces ≠ [""] := by
      intro h
      have htext := join_pieces base
      rw [h] at htext
      exact hbase (String.toList_eq_nil_iff.mp htext.symm)
    rw [if_neg (by simp [hbase, hslash]), components_eq_steps, pieces_of_append _ _ hjoined, components_eq_steps,
      ← steps_append_blank (pieces_ne_nil base) hone]
    exact steps_append _ _ (map_split_ne_nil _) hpieces

end CallChart.Path
