import CallChart.Path.Join

/-! What is left of a path below a directory, as the path is spelled, and the file that the path names there. Files are
told apart by what is left of them, but for the dot that a relative path may begin with: it stays. -/
namespace CallChart.Path

/-- The steps that come after those of a directory, if they begin with them. -/
def below (base steps : List PathComponent) : List PathComponent :=
  if base.isPrefixOf steps then steps.drop base.length else steps

theorem below_append (base steps : List PathComponent) : below base (base ++ steps) = steps := by
  rw [below, if_pos (List.isPrefixOf_iff_prefix.mpr (List.prefix_append _ _)), List.drop_left]

theorem below_of_outside {base steps : List PathComponent} (h : ¬ base <+: steps) : below base steps = steps :=
  if_neg fun houtside => h (List.isPrefixOf_iff_prefix.mp houtside)

variable {base p q : Path}

theorem components_relativeTo (p base : Path) :
    (p.relativeTo base).components = below base.components p.components := by
  have hsome := isSome_relativeTo? p base
  rw [relativeTo, below, ← startsWith, ← hsome]
  cases h : p.relativeTo? base with
  | none => rfl
  | some q => exact components_relativeTo? h

/-- The file that a path names next to a directory. A path that begins like the directory lies below it already. -/
def located (p base : Path) : Path := if p.startsWith base then p else base.join p

/-- The path begins with a dot, and the dot stays in what is left of it. -/
def keepsDot (p base : Path) : Bool := p.isDotted && !p.startsWith base

theorem components_of_text_eq_empty (h : base.text = "") : base.components = [] := by
  rw [show base = ⟨""⟩ by rw [← h]]
  rfl

theorem startsWith_iff : p.startsWith base = true ↔ base.components <+: p.components := List.isPrefixOf_iff_prefix

/-- Only a file with an absolute path does not lie below the directory. -/
theorem absolute_of_outside (h : ¬ base.components <+: (p.located base).components) :
    p.isAbsolute = true ∧ p.located base = p := by
  rw [located] at h ⊢
  split at h
  · next hstarts => exact absurd (startsWith_iff.mp hstarts) h
  · next hstarts =>
    rw [if_neg hstarts]
    cases hp : p.isAbsolute with
    | true => exact ⟨rfl, join_of_absolute hp⟩
    | false =>
      refine absurd ?_ h
      by_cases hempty : base.text = ""
      · rw [components_of_text_eq_empty hempty]
        exact List.nil_prefix
      · rw [components_join hempty hp]
        exact List.prefix_append _ _

/-- What is left of a file begins neither with the root nor with a dot, unless nothing was taken away from it. -/
theorem notMem_below (hbase : base.components ≠ []) (h : base.components <+: (p.located base).components) :
    .root ∉ below base.components (p.located base).components ∧
      .here ∉ below base.components (p.located base).components := by
  obtain ⟨rest, hrest⟩ := h
  have htail := notMem_tail (p.located base)
  rw [← hrest] at htail ⊢
  rw [below_append]
  cases hsteps : base.components with
  | nil => exact absurd hsteps hbase
  | cons step more =>
    rw [hsteps] at htail
    exact ⟨fun h => htail.1 (List.mem_append_right more h), fun h => htail.2 (List.mem_append_right more h)⟩

private theorem below_ne (hp : base.components <+: (p.located base).components)
    (hq : ¬ base.components <+: (q.located base).components) :
    below base.components (p.located base).components ≠ below base.components (q.located base).components := by
  intro h
  obtain ⟨habsolute, hlocated⟩ := absolute_of_outside hq
  have hbase : base.components ≠ [] := by
    intro hnil
    rw [hnil] at hq
    exact hq List.nil_prefix
  refine (notMem_below hbase hp).1 ?_
  rw [h, below_of_outside hq, hlocated]
  exact List.mem_of_head? (isAbsolute_iff.mp habsolute)

/-- Files are told apart by what is left of them. -/
theorem below_located_inj
    (h : below base.components (p.located base).components = below base.components (q.located base).components) :
    (p.located base).components = (q.located base).components := by
  by_cases hp : base.components <+: (p.located base).components
  · by_cases hq : base.components <+: (q.located base).components
    · obtain ⟨rest, hrest⟩ := hp
      obtain ⟨more, hmore⟩ := hq
      rw [← hrest, ← hmore, below_append, below_append] at h
      rw [← hrest, ← hmore, h]
    · exact absurd h (below_ne hp hq)
  · by_cases hq : base.components <+: (q.located base).components
    · exact absurd h.symm (below_ne hq hp)
    · rwa [below_of_outside hp, below_of_outside hq] at h

/-- What is left of a path is what is left of its file, and the dot that is kept. -/
theorem below_eq (p base : Path) :
    below base.components p.components =
      (if p.keepsDot base then [.here] else []) ++ below base.components (p.located base).components := by
  rw [located, keepsDot]
  cases hstarts : p.startsWith base with
  | true =>
    rw [Bool.not_true, Bool.and_false]
    rfl
  | false =>
    have houtside : ¬ base.components <+: p.components := fun h => by
      rw [← startsWith_iff, hstarts] at h
      cases h
    rw [Bool.not_false, Bool.and_true, if_neg Bool.false_ne_true, below_of_outside houtside]
    cases hp : p.isAbsolute with
    | true =>
      rw [isDotted_of_absolute hp, join_of_absolute hp, below_of_outside houtside]
      rfl
    | false =>
      have hempty : base.text ≠ "" := by
        intro h
        rw [components_of_text_eq_empty h] at houtside
        exact houtside List.nil_prefix
      rw [components_join hempty hp, below_append, components_of_relative hp]

/-- If a dot is kept before what is left of some path, no dot is left of any file. -/
theorem here_notMem_below (hp : p.keepsDot base = true) (q : Path) :
    .here ∉ below base.components (q.located base).components := by
  have hbase : base.components ≠ [] := by
    intro hnil
    rw [keepsDot, startsWith, hnil, List.isPrefixOf_nil_left, Bool.not_true, Bool.and_false] at hp
    cases hp
  by_cases hq : base.components <+: (q.located base).components
  · exact (notMem_below hbase hq).2
  · obtain ⟨habsolute, hlocated⟩ := absolute_of_outside hq
    rw [below_of_outside hq, hlocated]
    exact here_notMem_of_absolute habsolute

private theorem keepsDot_ne (hp : p.keepsDot base = true) (rest : List PathComponent) :
    below base.components (q.located base).components ≠ .here :: rest :=
  fun h => here_notMem_below hp q (h ▸ List.mem_cons_self)

/-- Two paths leave the same behind exactly if they name one file and both keep a dot or neither does. -/
theorem same_relativeTo (p q base : Path) :
    (p.relativeTo base).same (q.relativeTo base) =
      ((p.located base).same (q.located base) && p.keepsDot base == q.keepsDot base) := by
  rw [Bool.eq_iff_iff, Bool.and_eq_true, same, same, beq_iff_eq, beq_iff_eq, beq_iff_eq, components_relativeTo,
    components_relativeTo, below_eq p, below_eq q]
  constructor
  · intro h
    cases hp : p.keepsDot base <;> cases hq : q.keepsDot base <;> rw [hp, hq] at h
    case false.false => exact ⟨below_located_inj h, rfl⟩
    case false.true => exact absurd h (keepsDot_ne hq _)
    case true.false => exact absurd h.symm (keepsDot_ne hp _)
    case true.true => exact ⟨below_located_inj (List.append_cancel_left h), rfl⟩
  · intro h
    rw [h.1, h.2]

/-- From an absolute directory, and from none, every path is taken as it is joined. -/
theorem located_eq_join (hbase : base.isAbsolute = true ∨ base.text = "") (p : Path) :
    p.located base = base.join p := by
  rw [located]
  split
  · next hstarts =>
    rcases hbase with habsolute | hempty
    · obtain ⟨rest, hrest⟩ := startsWith_iff.mp hstarts
      have hp : p.isAbsolute = true := by
        rw [isAbsolute_iff, ← hrest, List.head?_append, isAbsolute_iff.mp habsolute]
        rfl
      rw [join_of_absolute hp]
    · rw [join_of_empty hempty]
  · rfl

theorem filter_steps {steps : List PathComponent} (hroot : .root ∉ steps) (hhere : .here ∉ steps) :
    (steps.filter fun step => step != .root && step != .here) = steps := by
  refine List.filter_eq_self.mpr fun step hstep => ?_
  have hneRoot : step ≠ .root := fun h => hroot (h ▸ hstep)
  have hneHere : step ≠ .here := fun h => hhere (h ▸ hstep)
  rw [bne_iff_ne.mpr hneRoot, bne_iff_ne.mpr hneHere]
  rfl

/-- The steps of a path without the root and the dot that it may begin with. -/
theorem body_pieces (p : Path) : body p.pieces = p.components.filter fun step => step != .root && step != .here := by
  have hkept (ps : List String) := filter_steps (notMem_body ps).1 (notMem_body ps).2
  rcases opening_cases p with ⟨rest, -, hp, ho⟩ | ⟨rest, hp, ho⟩ | ⟨-, ho⟩
  · rw [components_of_opening ho, hp]
    exact (hkept rest).symm
  · rw [components_of_opening ho, hp]
    exact (hkept rest).symm
  · rw [components_of_opening ho]
    exact (hkept p.pieces).symm

/-- Only the empty path names no step. -/
theorem text_eq_empty_of_components (h : p.components = []) : p.text = "" := by
  rw [components_eq_steps] at h
  rcases hp : p.pieces with _ | ⟨piece, rest⟩
  · exact absurd hp (pieces_ne_nil p)
  · rw [hp] at h
    by_cases hempty : piece = ""
    · by_cases hrest : rest = []
      · rw [← String.toList_eq_nil_iff, ← join_pieces p, hp, hempty, hrest]
        rfl
      · rw [hempty, steps_root hrest] at h
        cases h
    · by_cases hdot : piece = "."
      · rw [hdot, steps_here] at h
        cases h
      · have hbegun : Begun (piece :: rest) := by simp [Begun, isBlank, hempty, hdot]
        rw [steps_of_begun hbegun] at h
        simp [body, isBlank, hempty, hdot] at h

/-- What is left of a directory leads back to it from the base. -/
theorem components_join_relativeTo (dir base : Path) :
    (base.join (dir.relativeTo base)).components = (dir.located base).components := by
  by_cases hstarts : dir.startsWith base = true
  · have hlocated : dir.located base = dir := if_pos hstarts
    have hleft := components_relativeTo dir base
    rw [hlocated]
    by_cases hempty : base.text = ""
    · rw [join_of_empty hempty, hleft, components_of_text_eq_empty hempty]
      exact below_append [] _
    · have hbase : base.components ≠ [] := fun h => hempty (text_eq_empty_of_components h)
      have hbelow := startsWith_iff.mp hstarts
      have hnot := notMem_below hbase (hlocated ▸ hbelow)
      rw [hlocated, ← hleft] at hnot
      have hrelative : (dir.relativeTo base).isAbsolute = false := by
        rw [← Bool.not_eq_true, isAbsolute_iff]
        exact fun h => hnot.1 (List.mem_of_head? h)
      have hkept : body (dir.relativeTo base).pieces = (dir.relativeTo base).components :=
        (body_pieces _).trans (filter_steps hnot.1 hnot.2)
      obtain ⟨rest, hrest⟩ := hbelow
      rw [components_join hempty hrelative, hkept, hleft, ← hrest, below_append]
  · have hnone : dir.relativeTo base = dir := by
      rw [relativeTo, relativeTo?, if_pos (by simpa using hstarts)]
      rfl
    rw [hnone, located, if_neg hstarts]

end CallChart.Path
