import CallChart.Dot.Plain
import CallChart.Proofs.Steps

/-! The line format of drawings as a grammar, and its reader against it. What the reader keeps after some lines is
determined by these lines alone: the size by the last header, the place of each node by the last line with its name. A
line is read exactly when it fits the lines before it, and each line that is read keeps this relation, so a text is read
exactly when its lines up to the first `stop` follow the grammar. -/
namespace CallChart

namespace Text

/-! ### Words and lines -/

/-- The first word of a text that goes on from a word begun before. -/
theorem head?_wordsFrom_of_begun {word : List Char} (hword : word ≠ []) (text : List Char) :
    ∃ w, (wordsFrom word text).head? = some w ∧ word <+: w := by
  induction text generalizing word with
  | nil => exact ⟨word, by simp [wordsFrom, hword], List.prefix_rfl⟩
  | cons c rest ih =>
    by_cases hc : isBlank c = true
    · exact ⟨word, by simp [wordsFrom, hc, hword], List.prefix_rfl⟩
    · have hbegun : word ++ [c] ≠ [] := by simp
      obtain ⟨w, hw, hp⟩ := ih hbegun
      exact ⟨w, by rw [wordsFrom, if_neg hc, hw], (List.prefix_append word [c]).trans hp⟩

theorem head?_wordsFrom_append {word text w : List Char} (h : (wordsFrom word text).head? = some w)
    (more : List Char) : ∃ w', (wordsFrom word (text ++ more)).head? = some w' ∧ w <+: w' := by
  induction text generalizing word with
  | nil =>
    by_cases hword : word = []
    · simp [wordsFrom, hword] at h
    · obtain rfl : word = w := by simpa [wordsFrom, hword] using h
      exact head?_wordsFrom_of_begun hword more
  | cons c rest ih =>
    rw [List.cons_append]
    by_cases hc : isBlank c = true
    · by_cases hword : word = []
      · subst hword
        simp only [wordsFrom, hc, if_true, List.isEmpty_nil] at h ⊢
        exact ih h
      · obtain rfl : word = w := by simpa [wordsFrom, hc, hword] using h
        exact ⟨word, by simp [wordsFrom, hc, hword], List.prefix_rfl⟩
    · simp only [wordsFrom, hc] at h ⊢
      exact ih h

/-- The first word of the beginning of a line is the beginning of its first word. -/
theorem head?_words_of_isPrefix {piece line w : List Char} (hp : piece <+: line) (h : (words piece).head? = some w) :
    ∃ w', (words line).head? = some w' ∧ w <+: w' := by
  obtain ⟨more, rfl⟩ := hp
  exact head?_wordsFrom_append h more

theorem wordsFrom_concat_blank {c : Char} (hc : isBlank c = true) (word text : List Char) :
    wordsFrom word (text ++ [c]) = wordsFrom word text := by
  induction text generalizing word with
  | nil => simp [wordsFrom, hc]
  | cons d rest ih => simp only [List.cons_append, wordsFrom, ih]

theorem words_dropReturn (line : List Char) : words (dropReturn line) = words line := by
  unfold dropReturn
  split
  · next h =>
    obtain ⟨text, rfl⟩ := List.getLast?_eq_some_iff.mp h
    rw [List.dropLast_concat, words, words, wordsFrom_concat_blank (by decide)]
  · rfl

/-- The last piece of a text is a line only if it holds something, so blank lines apart the lines have the words of the
pieces. -/
theorem mem_map_words_linesOfPieces {fields : List (List Char)} (hne : fields ≠ []) (pieces : List (List Char)) :
    fields ∈ (linesOfPieces pieces).map words ↔ ∃ piece ∈ pieces, words piece = fields := by
  induction pieces with
  | nil => simp [linesOfPieces]
  | cons piece rest ih =>
    cases rest with
    | nil =>
      by_cases hp : piece = []
      · subst hp
        simpa [linesOfPieces, words, wordsFrom] using hne.symm
      · simp [linesOfPieces, hp, @eq_comm _ fields]
    | cons next more =>
      rw [linesOfPieces, List.map_cons, List.mem_cons, words_dropReturn, ih, eq_comm]
      · simp
      · simp

theorem mem_map_words_lines {fields : List (List Char)} (hne : fields ≠ []) (text : List Char) :
    fields ∈ (lines text).map words ↔ ∃ piece ∈ split '\n' text, words piece = fields :=
  mem_map_words_linesOfPieces hne _

/-- The pieces of the beginning of a text are beginnings of pieces of the text. The first piece, which may grow at its
left, is kept apart from the others. -/
theorem split_of_isPrefix (separator : Char) {cut text : List Char} (h : cut <+: text) :
    ∃ piece pieces whole wholes, split separator cut = piece :: pieces ∧ split separator text = whole :: wholes ∧
      piece <+: whole ∧ ∀ p ∈ pieces, ∃ w ∈ wholes, p <+: w := by
  induction cut generalizing text with
  | nil =>
    obtain ⟨whole, wholes, hs⟩ := List.exists_cons_of_ne_nil (split_ne_nil separator text)
    exact ⟨[], [], whole, wholes, rfl, hs, List.nil_prefix, by simp⟩
  | cons c cut ih =>
    obtain ⟨more, rfl⟩ := h
    obtain ⟨piece, pieces, whole, wholes, hcut, htext, hp, hrest⟩ := ih (List.prefix_append cut more)
    by_cases hc : c = separator
    · refine ⟨[], piece :: pieces, [], whole :: wholes, ?_, ?_, List.nil_prefix, ?_⟩
      · rw [split, if_pos hc, hcut]
      · rw [List.cons_append, split, if_pos hc, htext]
      · refine List.forall_mem_cons.mpr ⟨⟨whole, List.mem_cons_self, hp⟩, fun p hmem => ?_⟩
        obtain ⟨w, hw, hpw⟩ := hrest p hmem
        exact ⟨w, List.mem_cons_of_mem whole hw, hpw⟩
    · refine ⟨c :: piece, pieces, c :: whole, wholes, ?_, ?_, List.cons_prefix_cons.mpr ⟨rfl, hp⟩, hrest⟩
      · rw [split, if_neg hc, hcut]
      · rw [List.cons_append, split, if_neg hc, htext]

theorem exists_prefix_of_mem_split {separator : Char} {cut text piece : List Char} (h : cut <+: text)
    (hpiece : piece ∈ split separator cut) : ∃ whole ∈ split separator text, piece <+: whole := by
  obtain ⟨first, pieces, whole, wholes, hcut, htext, hp, hrest⟩ := split_of_isPrefix separator h
  rw [hcut, List.mem_cons] at hpiece
  rw [htext]
  obtain rfl | hmem := hpiece
  · exact ⟨whole, List.mem_cons_self, hp⟩
  · obtain ⟨w, hw, hpw⟩ := hrest piece hmem
    exact ⟨w, List.mem_cons_of_mem whole hw, hpw⟩

/-- A text that ends where a line ends. -/
def WholeLines (text : List Char) : Prop := text = [] ∨ text.getLast? = some '\n'

theorem linesOfPieces_append (pieces : List (List Char)) {more : List (List Char)} (hmore : more ≠ []) :
    linesOfPieces (pieces ++ more) = pieces.map dropReturn ++ linesOfPieces more := by
  induction pieces with
  | nil => rfl
  | cons piece pieces ih => rw [List.cons_append, linesOfPieces, ih, List.map_cons, List.cons_append]; simp [hmore]

theorem lines_append {text : List Char} (h : WholeLines text) (more : List Char) :
    lines (text ++ more) = lines text ++ lines more := by
  obtain rfl | h := h
  · rfl
  · obtain ⟨front, rfl⟩ := List.getLast?_eq_some_iff.mp h
    rw [← List.append_cons, lines, lines, lines, split_append_separator, split_append_separator,
      linesOfPieces_append _ (split_ne_nil _ _), linesOfPieces_append _ (split_ne_nil _ _)]
    simp [split, linesOfPieces]

end Text

namespace Dot.Plain

/-- The fields of a line. -/
abbrev Line := List (List Char)

/-- The lines of a text by their fields. -/
def fieldsOf (text : List Char) : List Line := (Text.lines text).map Text.words

/-! ### The grammar -/

section Grammar

/-- The first field of a line is a word. -/
def Says (word : String) (line : Line) : Prop := line.head? = some word.toList

instance (word : String) (line : Line) : Decidable (Says word line) := inferInstanceAs (Decidable (_ = _))

/-- A field with a finite number. -/
structure Finite (field : List Char) (x : Float) : Prop where
  value : Number.real? field = some x
  finite : x.isFinite = true

/-- A header: three finite numbers, the last two of which are the size. -/
inductive HeaderLine : Line → Extent Float → Prop
  | intro {scale w h : List Char} {s width height : Float} {rest : Line} (hs : Finite scale s) (hw : Finite w width)
      (hh : Finite h height) : HeaderLine ("graph".toList :: scale :: w :: h :: rest) ⟨width, height⟩

/-- The name in a field stands between quotes that do not belong to it. -/
def nameOf (field : List Char) : String := String.ofList (Text.strip '"' field)

/-- A line about the node with a name. -/
def Names (name : String) (line : Line) : Prop :=
  ∃ field rest, line = "node".toList :: field :: rest ∧ nameOf field = name

/-- A node: a name and two finite numbers, its place as counted from the lower border. -/
inductive NodeLine : Line → String → Point Float → Prop
  | intro {field fx fy : List Char} {x y : Float} {rest : Line} (hx : Finite fx x) (hy : Finite fy y) :
      NodeLine ("node".toList :: field :: fx :: fy :: rest) (nameOf field) ⟨x, y⟩

/-- What a line may be after other lines. -/
def Fits (before : List Line) (line : Line) : Prop :=
  line = [] ∨ Says "edge" line ∨ (∃ extent, HeaderLine line extent) ∨
    (∃ name p, NodeLine line name p) ∧ ∃ header ∈ before, Says "graph" header

/-- Lines with a header, each of which fits those before it. -/
structure Grammatical (lines : List Line) : Prop where
  header : ∃ line ∈ lines, Says "graph" line
  fits : ∀ before line after, lines = before ++ line :: after → Fits before line

/-- The lines before the first one that says `stop`. -/
structure Body (lines body : List Line) : Prop where
  stops : ∃ stop rest, lines = body ++ stop :: rest ∧ Says "stop" stop
  before : ∀ line ∈ body, ¬Says "stop" line

/-- The last line of a kind, with the lines before it. -/
def IsLast (kind : Line → Prop) (lines before : List Line) (line : Line) : Prop :=
  ∃ after, lines = before ++ line :: after ∧ kind line ∧ ∀ other ∈ after, ¬kind other

def LastExtent (lines : List Line) (extent : Extent Float) : Prop :=
  ∃ before line, IsLast (Says "graph") lines before line ∧ HeaderLine line extent

/-- The last place of a name, counted from the upper border: the size is that of the last header before it. -/
def LastPlace (lines : List Line) (name : String) (p : Point Float) : Prop :=
  ∃ before line x y extent, IsLast (Names name) lines before line ∧ NodeLine line name ⟨x, y⟩ ∧
    LastExtent before extent ∧ p = ⟨x, extent.height - y⟩

end Grammar

/-! ### One line -/

section OneLine

variable {n : Nat} {line fields rest : Line} {p p' : Plain} {x : Float}

theorem number_eq_ok : number n fields = .ok (x, rest) ↔ ∃ field, fields = field :: rest ∧ Finite field x := by
  constructor
  · intro h
    unfold number at h
    split at h
    · cases h
    · next field more =>
      split at h
      · cases h
      · next hx =>
        split at h
        · next hfin =>
          cases h
          exact ⟨field, rfl, hx, hfin⟩
        · cases h
  · rintro ⟨field, rfl, hx, hfin⟩
    simp only [number, hx, hfin, if_true]

theorem readHeader_eq_ok : readHeader n fields p = .ok p' ↔
    ∃ extent, HeaderLine ("graph".toList :: fields) extent ∧ p' = { p with extent := some extent } := by
  simp only [readHeader, Except.bind_eq_ok, Prod.exists, number_eq_ok, pure, Except.pure, Except.ok.injEq]
  constructor
  · rintro ⟨s, _, ⟨scale, rfl, hs⟩, width, _, ⟨w, rfl, hw⟩, height, _, ⟨h, rfl, hh⟩, rfl⟩
    exact ⟨⟨width, height⟩, .intro hs hw hh, rfl⟩
  · rintro ⟨_, ⟨hs, hw, hh⟩, rfl⟩
    exact ⟨_, _, ⟨_, rfl, hs⟩, _, _, ⟨_, rfl, hw⟩, _, _, ⟨_, rfl, hh⟩, rfl⟩

theorem readNode_eq_ok : readNode n fields p = .ok p' ↔
    ∃ name x y extent, NodeLine ("node".toList :: fields) name ⟨x, y⟩ ∧ p.extent = some extent ∧
      p' = { p with positions := p.positions.insert name ⟨x, extent.height - y⟩ } := by
  cases hp : p.extent with
  | none => simp [readNode, hp]
  | some extent =>
    cases fields with
    | nil =>
      simp only [readNode, hp]
      refine ⟨fun h => (nomatch h), ?_⟩
      rintro ⟨_, _, _, _, h, _⟩
      cases h
    | cons field fields =>
      simp only [readNode, hp, Except.bind_eq_ok, Prod.exists, number_eq_ok, pure, Except.pure, Except.ok.injEq]
      constructor
      · rintro ⟨x, _, ⟨fx, rfl, hx⟩, y, _, ⟨fy, rfl, hy⟩, rfl⟩
        exact ⟨_, x, y, extent, .intro hx hy, rfl, rfl⟩
      · rintro ⟨_, x, y, _, ⟨hx, hy⟩, ⟨⟩, rfl⟩
        exact ⟨_, _, ⟨_, rfl, hx⟩, _, _, ⟨_, rfl, hy⟩, rfl⟩

/-- What a line that is read does to what has been read before. -/
inductive Step (p : Plain) : Line → Plain → Prop
  | blank : Step p [] p
  | edge {line : Line} (h : Says "edge" line) : Step p line p
  | header {line : Line} {extent : Extent Float} (h : HeaderLine line extent) :
      Step p line { p with extent := some extent }
  | node {line : Line} {name : String} {x y : Float} {extent : Extent Float} (h : NodeLine line name ⟨x, y⟩)
      (hp : p.extent = some extent) :
      Step p line { p with positions := p.positions.insert name ⟨x, extent.height - y⟩ }

theorem readLine_eq_ok : readLine n p line = .ok p' ↔ Step p line p' := by
  constructor
  · intro h
    unfold readLine at h
    split at h
    · cases h
      exact .blank
    · next word fields =>
      split at h
      · next hword =>
        obtain ⟨extent, hline, rfl⟩ := readHeader_eq_ok.mp h
        obtain rfl : word = "graph".toList := by rw [← hword, String.toList_ofList]
        exact .header hline
      · next hword =>
        obtain ⟨name, x, y, extent, hline, hp, rfl⟩ := readNode_eq_ok.mp h
        obtain rfl : word = "node".toList := by rw [← hword, String.toList_ofList]
        exact .node hline hp
      · next hword =>
        cases h
        refine .edge ?_
        rw [Says, List.head?_cons, ← hword, String.toList_ofList]
      · cases h
  · rintro (_ | h | h | ⟨h, hp⟩)
    · rfl
    · cases line with
      | nil => cases h
      | cons word fields =>
        obtain rfl : word = "edge".toList := Option.some.inj h
        rfl
    · cases h with
      | intro hs hw hh => exact readHeader_eq_ok.mpr ⟨_, .intro hs hw hh, rfl⟩
    · cases h with
      | intro hx hy => exact readNode_eq_ok.mpr ⟨_, _, _, _, .intro hx hy, hp, rfl⟩

end OneLine

/-! ### What has been read is determined by the lines -/

section State

variable {lines before : List Line} {line : Line} {p p' : Plain} {kind : Line → Prop} {name : String}
  {extent : Extent Float} {q : Point Float}

theorem not_isLast_nil {last : Line} : ¬IsLast kind [] before last := by
  rintro ⟨after, h, -⟩
  simp at h

/-- Lines with one more at their end are parted at the new line or at one of the others. -/
theorem concat_eq_append_cons {last : Line} {after : List Line} (h : lines ++ [line] = before ++ last :: after) :
    (before = lines ∧ last = line ∧ after = []) ∨
      ∃ front, after = front ++ [line] ∧ lines = before ++ last :: front := by
  rcases List.eq_nil_or_concat after with rfl | ⟨front, other, rfl⟩
  · obtain ⟨rfl, hline⟩ := List.append_inj' h rfl
    exact .inl ⟨rfl, (List.singleton_inj.mp hline).symm, rfl⟩
  · rw [List.concat_eq_append, ← List.cons_append, ← List.append_assoc] at h
    obtain ⟨rfl, hline⟩ := List.append_inj' h rfl
    exact .inr ⟨front, by rw [List.concat_eq_append, hline], rfl⟩

theorem isLast_concat (h : kind line) {last : Line} :
    IsLast kind (lines ++ [line]) before last ↔ before = lines ∧ last = line := by
  constructor
  · rintro ⟨after, heq, -, hafter⟩
    obtain ⟨rfl, rfl, -⟩ | ⟨front, rfl, -⟩ := concat_eq_append_cons heq
    · exact ⟨rfl, rfl⟩
    · exact absurd h (hafter line (by simp))
  · rintro ⟨rfl, rfl⟩
    exact ⟨[], rfl, h, by simp⟩

theorem isLast_concat_of_not (h : ¬kind line) {last : Line} :
    IsLast kind (lines ++ [line]) before last ↔ IsLast kind lines before last := by
  constructor
  · rintro ⟨after, heq, hlast, hafter⟩
    obtain ⟨-, rfl, -⟩ | ⟨front, rfl, rfl⟩ := concat_eq_append_cons heq
    · exact absurd hlast h
    · exact ⟨front, rfl, hlast, (List.forall_mem_append.mp hafter).1⟩
  · rintro ⟨after, rfl, hlast, hafter⟩
    refine ⟨after ++ [line], by simp, hlast, List.forall_mem_append.mpr ⟨hafter, ?_⟩⟩
    simpa using h

theorem HeaderLine.graph (h : HeaderLine line extent) : Says "graph" line := by
  cases h with
  | intro hs hw hh => rfl

theorem HeaderLine.unique (h : HeaderLine line extent) {other : Extent Float} (h' : HeaderLine line other) :
    other = extent := by
  cases h with
  | intro hs hw hh =>
    cases h' with
    | intro hs' hw' hh' =>
      rw [Option.some.inj (hw.value.symm.trans hw'.value), Option.some.inj (hh.value.symm.trans hh'.value)]

theorem NodeLine.names (h : NodeLine line name q) : Names name line := by
  cases h with
  | intro hx hy => exact ⟨_, _, rfl, rfl⟩

theorem NodeLine.unique (h : NodeLine line name q) {q' : Point Float} (h' : NodeLine line name q') : q' = q := by
  cases h with
  | intro hx hy =>
    generalize hname : nameOf _ = name at h'
    cases h' with
    | intro hx' hy' =>
      rw [Option.some.inj (hx.value.symm.trans hx'.value), Option.some.inj (hy.value.symm.trans hy'.value)]

theorem Says.unique {word other : String} (h : Says word line) (h' : Says other line) : other = word :=
  String.toList_inj.mp (Option.some.inj (h'.symm.trans h))

theorem Says.not {word other : String} (h : Says word line) (hne : other ≠ word) : ¬Says other line :=
  fun h' => hne (h.unique h')

theorem Names.node (h : Names name line) : Says "node" line := by
  obtain ⟨field, rest, rfl, -⟩ := h
  rfl

theorem Names.unique (h : Names name line) {other : String} (h' : Names other line) : other = name := by
  obtain ⟨field, rest, rfl, rfl⟩ := h
  obtain ⟨field', rest', heq, rfl⟩ := h'
  cases heq
  rfl

theorem lastExtent_concat (h : HeaderLine line extent) {other : Extent Float} :
    LastExtent (lines ++ [line]) other ↔ other = extent := by
  constructor
  · rintro ⟨before, last, hlast, hother⟩
    obtain ⟨-, rfl⟩ := (isLast_concat h.graph).mp hlast
    exact h.unique hother
  · rintro rfl
    exact ⟨lines, line, (isLast_concat h.graph).mpr ⟨rfl, rfl⟩, h⟩

theorem lastExtent_concat_of_not (h : ¬Says "graph" line) :
    LastExtent (lines ++ [line]) extent ↔ LastExtent lines extent := by
  simp only [LastExtent, isLast_concat_of_not h]

theorem lastPlace_concat {x y : Float} (h : NodeLine line name ⟨x, y⟩)
    (hextent : ∀ other, LastExtent lines other ↔ other = extent) :
    LastPlace (lines ++ [line]) name q ↔ q = ⟨x, extent.height - y⟩ := by
  constructor
  · rintro ⟨before, last, x', y', other, hlast, hline, hother, rfl⟩
    obtain ⟨rfl, rfl⟩ := (isLast_concat h.names).mp hlast
    obtain rfl := (hextent other).mp hother
    cases h.unique hline
    rfl
  · rintro rfl
    exact ⟨lines, line, x, y, extent, (isLast_concat h.names).mpr ⟨rfl, rfl⟩, h, (hextent extent).mpr rfl, rfl⟩

theorem lastPlace_concat_of_not (h : ¬Names name line) :
    LastPlace (lines ++ [line]) name q ↔ LastPlace lines name q := by
  simp only [LastPlace, isLast_concat_of_not h]

/-- What a state holds after some lines. -/
structure Holds (lines : List Line) (p : Plain) : Prop where
  headed : p.extent.isSome ↔ ∃ line ∈ lines, Says "graph" line
  extent : ∀ extent, p.extent = some extent ↔ LastExtent lines extent
  positions : ∀ name q, p.positions[name]? = some q ↔ LastPlace lines name q

theorem holds_start : Holds [] start where
  headed := by simp [start]
  extent extent := by
    refine ⟨fun h => (nomatch h), ?_⟩
    rintro ⟨_, _, h, _⟩
    exact absurd h not_isLast_nil
  positions name q := by
    rw [start, Std.TreeMap.getElem?_emptyc]
    refine ⟨fun h => (nomatch h), ?_⟩
    rintro ⟨_, _, _, _, _, h, _⟩
    exact absurd h not_isLast_nil

/-- A line that is neither a header nor a node changes nothing. -/
theorem Holds.concat_quiet (h : Holds lines p) (hheader : ¬Says "graph" line) (hnode : ∀ name, ¬Names name line) :
    Holds (lines ++ [line]) p where
  headed := by simp [h.headed, hheader]
  extent extent := by rw [lastExtent_concat_of_not hheader, h.extent]
  positions name q := by rw [lastPlace_concat_of_not (hnode name), h.positions]

theorem Holds.concat_header (h : Holds lines p) (hline : HeaderLine line extent) :
    Holds (lines ++ [line]) { p with extent := some extent } where
  headed := by simp [hline.graph]
  extent other := by rw [lastExtent_concat hline, Option.some_inj, eq_comm]
  positions name q := by
    have hnode : ¬Names name line := fun hname => hline.graph.not (by decide) hname.node
    rw [lastPlace_concat_of_not hnode, h.positions]

theorem Holds.concat_node (h : Holds lines p) {x y : Float} (hline : NodeLine line name ⟨x, y⟩)
    (hp : p.extent = some extent) :
    Holds (lines ++ [line]) { p with positions := p.positions.insert name ⟨x, extent.height - y⟩ } where
  headed := by
    have hheader : ¬Says "graph" line := hline.names.node.not (by decide)
    simp [h.headed, hheader]
  extent other := by rw [lastExtent_concat_of_not (hline.names.node.not (by decide)), h.extent]
  positions other q := by
    rw [Std.TreeMap.getElem?_insert]
    by_cases hname : name = other
    · subst hname
      have hextent : ∀ other, LastExtent lines other ↔ other = extent := fun other => by
        rw [← h.extent, hp, Option.some_inj, eq_comm]
      rw [if_pos Std.ReflCmp.compare_self, lastPlace_concat hline hextent, Option.some_inj, eq_comm]
    · rw [if_neg (mt Std.compare_eq_iff_eq.mp hname), h.positions,
        lastPlace_concat_of_not fun h' => hname (h'.unique hline.names)]

theorem Holds.step (h : Holds lines p) (hstep : Step p line p') : Holds (lines ++ [line]) p' := by
  cases hstep with
  | blank => exact h.concat_quiet (by simp [Says]) fun name hname => nomatch hname.node
  | edge hedge => exact h.concat_quiet (hedge.not (by decide)) fun name hname => hedge.not (by decide) hname.node
  | header hline => exact h.concat_header hline
  | node hline hp => exact h.concat_node hline hp

/-- A line is read exactly when it fits the lines before it. -/
theorem Holds.fits_iff (h : Holds lines p) : Fits lines line ↔ ∃ p', Step p line p' := by
  constructor
  · rintro (rfl | hedge | ⟨extent, hline⟩ | ⟨⟨name, ⟨x, y⟩, hline⟩, hheader⟩)
    · exact ⟨p, .blank⟩
    · exact ⟨p, .edge hedge⟩
    · exact ⟨_, .header hline⟩
    · obtain ⟨extent, hp⟩ := Option.isSome_iff_exists.mp (h.headed.mpr hheader)
      exact ⟨_, .node hline hp⟩
  · rintro ⟨p', _ | hedge | hline | ⟨hline, hp⟩⟩
    · exact .inl rfl
    · exact .inr (.inl hedge)
    · exact .inr (.inr (.inl ⟨_, hline⟩))
    · exact .inr (.inr (.inr ⟨⟨_, _, hline⟩, h.headed.mp (by rw [hp]; rfl)⟩))

end State

/-! ### All lines -/

section Run

variable {n : Nat} {lines before body : List Line} {line : Line} {p p' : Plain} {raw : RawLayout Float}

/-- Lines read one after the other. -/
inductive Run : Plain → List Line → Plain → Prop
  | nil {p : Plain} : Run p [] p
  | cons {p p' p'' : Plain} {line : Line} {rest : List Line} (h : Step p line p') (hrest : Run p' rest p'') :
      Run p (line :: rest) p''

theorem Holds.run (h : Holds before p) (hrun : Run p body p') : Holds (before ++ body) p' := by
  induction hrun generalizing before with
  | nil => rwa [List.append_nil]
  | cons hstep _ ih =>
    rw [List.append_cons]
    exact ih (h.step hstep)

/-- Lines can be read to the end exactly when each fits those before it. -/
theorem Holds.fits_run_iff (h : Holds before p) :
    (∀ front line after, body = front ++ line :: after → Fits (before ++ front) line) ↔ ∃ p', Run p body p' := by
  induction body generalizing before p with
  | nil => simpa using ⟨p, Run.nil⟩
  | cons line rest ih =>
    constructor
    · intro hfits
      obtain ⟨p', hstep⟩ := h.fits_iff.mp (by simpa using hfits [] line rest rfl)
      obtain ⟨p'', hrun⟩ := (ih (h.step hstep)).mp fun front other after heq => by
        simpa using hfits (line :: front) other after (by rw [heq, List.cons_append])
      exact ⟨p'', .cons hstep hrun⟩
    · rintro ⟨p'', _ | ⟨hstep, hrun⟩⟩ front other after heq
      rcases front with _ | ⟨first, front⟩
      · obtain ⟨rfl, -⟩ := List.cons.inj heq
        simpa using h.fits_iff.mpr ⟨_, hstep⟩
      · obtain ⟨rfl, rfl⟩ := List.cons.inj heq
        simpa using (ih (h.step hstep)).mpr ⟨p'', hrun⟩ front other after rfl

theorem body_cons_of_stop (h : Says "stop" line) : Body (line :: lines) body ↔ body = [] := by
  constructor
  · rintro ⟨⟨stop, rest, heq, -⟩, hbefore⟩
    rcases body with _ | ⟨first, body⟩
    · rfl
    · obtain ⟨rfl, -⟩ := List.cons.inj heq
      exact absurd h (hbefore line List.mem_cons_self)
  · rintro rfl
    exact ⟨⟨line, lines, rfl, h⟩, by simp⟩

theorem body_cons_of_not (h : ¬Says "stop" line) :
    Body (line :: lines) body ↔ ∃ rest, body = line :: rest ∧ Body lines rest := by
  constructor
  · rintro ⟨⟨stop, after, heq, hstop⟩, hbefore⟩
    rcases body with _ | ⟨first, rest⟩
    · obtain ⟨rfl, -⟩ := List.cons.inj heq
      exact absurd hstop h
    · obtain ⟨rfl, rfl⟩ := List.cons.inj heq
      exact ⟨rest, rfl, ⟨stop, after, rfl, hstop⟩, fun other hother => hbefore other (List.mem_cons_of_mem line hother)⟩
  · rintro ⟨rest, rfl, ⟨stop, after, rfl, hstop⟩, hbefore⟩
    exact ⟨⟨stop, after, rfl, hstop⟩, List.forall_mem_cons.mpr ⟨h, hbefore⟩⟩

theorem Body.unique (h : Body lines body) {other : List Line} (h' : Body lines other) : other = body := by
  induction lines generalizing body other with
  | nil =>
    obtain ⟨stop, rest, heq, -⟩ := h.stops
    simp at heq
  | cons line lines ih =>
    by_cases hline : Says "stop" line
    · rw [(body_cons_of_stop hline).mp h, (body_cons_of_stop hline).mp h']
    · obtain ⟨rest, rfl, hrest⟩ := (body_cons_of_not hline).mp h
      obtain ⟨rest', rfl, hrest'⟩ := (body_cons_of_not hline).mp h'
      rw [ih hrest hrest']

theorem finish_eq_ok : finish p = .ok raw ↔ ∃ extent, p.extent = some extent ∧ raw = ⟨p.positions, extent⟩ := by
  cases hp : p.extent with
  | none => simp [finish, hp]
  | some extent => simp [finish, hp, eq_comm]

theorem readLines_cons_of_stop (h : Says "stop" line) : readLines n p (line :: lines) = finish p :=
  if_pos h

theorem readLines_cons_of_not (h : ¬Says "stop" line) :
    readLines n p (line :: lines) = readLine n p line >>= fun p => readLines (n + 1) p lines := by
  rw [readLines, if_neg (show ¬line.head? = some "stop".toList from h)]
  cases readLine n p line <;> rfl

theorem readLines_eq_ok :
    readLines n p lines = .ok raw ↔ ∃ body p', Body lines body ∧ Run p body p' ∧ finish p' = .ok raw := by
  induction lines generalizing n p with
  | nil =>
    refine ⟨fun h => (nomatch h), ?_⟩
    rintro ⟨body, _, ⟨⟨stop, rest, heq, -⟩, -⟩, -⟩
    simp at heq
  | cons line lines ih =>
    by_cases hline : Says "stop" line
    · rw [readLines_cons_of_stop hline]
      constructor
      · exact fun h => ⟨[], p, (body_cons_of_stop hline).mpr rfl, .nil, h⟩
      · rintro ⟨body, p', hbody, hrun, h⟩
        obtain rfl := (body_cons_of_stop hline).mp hbody
        cases hrun
        exact h
    · simp only [readLines_cons_of_not hline, Except.bind_eq_ok, readLine_eq_ok, ih]
      constructor
      · rintro ⟨next, hstep, body, p', hbody, hrun, hraw⟩
        exact ⟨line :: body, p', (body_cons_of_not hline).mpr ⟨body, rfl, hbody⟩, .cons hstep hrun, hraw⟩
      · rintro ⟨body, p', hbody, hrun, hraw⟩
        obtain ⟨rest, rfl, hrest⟩ := (body_cons_of_not hline).mp hbody
        obtain _ | ⟨hstep, hrun⟩ := hrun
        exact ⟨_, hstep, rest, p', hrest, hrun, hraw⟩

end Run

/-! ### Whole texts -/

section Texts

variable {text : String} {before cut : List Char} {body : List Line} {line : Line} {raw : RawLayout Float}

theorem parse_eq_ok : parse text = .ok raw ↔
    ∃ body p, Body (fieldsOf text.toList) body ∧ Run start body p ∧ finish p = .ok raw :=
  readLines_eq_ok

theorem grammatical_iff : Grammatical body ↔ ∃ p raw, Run start body p ∧ finish p = .ok raw := by
  constructor
  · rintro ⟨hheader, hfits⟩
    obtain ⟨p, hrun⟩ := holds_start.fits_run_iff.mp hfits
    obtain ⟨extent, hp⟩ := Option.isSome_iff_exists.mp ((holds_start.run hrun).headed.mpr hheader)
    exact ⟨p, _, hrun, finish_eq_ok.mpr ⟨extent, hp, rfl⟩⟩
  · rintro ⟨p, raw, hrun, hraw⟩
    obtain ⟨extent, hp, -⟩ := finish_eq_ok.mp hraw
    exact ⟨(holds_start.run hrun).headed.mp (by rw [hp]; rfl), holds_start.fits_run_iff.mpr ⟨p, hrun⟩⟩

theorem exists_parse_eq_ok :
    (∃ raw, parse text = .ok raw) ↔ ∃ body, Body (fieldsOf text.toList) body ∧ Grammatical body := by
  simp only [parse_eq_ok, grammatical_iff]
  constructor
  · rintro ⟨raw, body, p, hbody, h⟩
    exact ⟨body, hbody, p, raw, h⟩
  · rintro ⟨body, hbody, p, raw, h⟩
    exact ⟨raw, body, p, hbody, h⟩

/-- A text no line of which says `stop` is rejected. -/
theorem parse_of_endless (h : ∀ line ∈ fieldsOf text.toList, ¬Says "stop" line) :
    ∃ fault, parse text = .error fault := by
  cases hparse : parse text with
  | error fault => exact ⟨fault, rfl⟩
  | ok raw =>
    obtain ⟨body, p, ⟨⟨stop, rest, heq, hstop⟩, -⟩, -⟩ := parse_eq_ok.mp hparse
    exact absurd hstop (h stop (by simp [heq]))

theorem extends_of_isPrefix {word : String} (hcut : cut <+: before) (hline : line ∈ fieldsOf cut) (h : Says word line) :
    ∃ whole ∈ fieldsOf before, ∃ w, whole.head? = some w ∧ word.toList <+: w := by
  have hne : line ≠ [] := by
    rintro rfl
    cases h
  obtain ⟨piece, hpiece, rfl⟩ := (Text.mem_map_words_lines hne cut).mp hline
  obtain ⟨whole, hwhole, hp⟩ := Text.exists_prefix_of_mem_split hcut hpiece
  obtain ⟨w, hw, hword⟩ := Text.head?_words_of_isPrefix hp h
  have hne' : Text.words whole ≠ [] := by
    intro hnil
    rw [hnil] at hw
    cases hw
  exact ⟨_, (Text.mem_map_words_lines hne' before).mpr ⟨whole, hwhole, rfl⟩, w, hw, hword⟩

/-- Text is rejected wherever it is cut before a first word that begins with `stop`. -/
theorem parse_cut (h : ∀ line ∈ fieldsOf before, ∀ w, line.head? = some w → ¬"stop".toList <+: w)
    (hcut : cut <+: before) : ∃ fault, parse (String.ofList cut) = .error fault := by
  refine parse_of_endless fun line hline hstop => ?_
  rw [String.toList_ofList] at hline
  obtain ⟨whole, hwhole, w, hw, hp⟩ := extends_of_isPrefix hcut hline hstop
  exact h whole hwhole w hw hp

/-- The words that lines begin with are cut into no word `stop`. -/
theorem Fits.not_stop {lines : List Line} (h : Fits lines line) {w : List Char} (hw : line.head? = some w) :
    ¬"stop".toList <+: w := by
  have hword : ∀ word : String, Says word line → w = word.toList := fun word h => Option.some.inj (hw.symm.trans h)
  obtain rfl | hedge | ⟨extent, hline⟩ | ⟨⟨name, p, hline⟩, -⟩ := h
  · cases hw
  · rw [hword _ hedge]
    decide
  · rw [hword _ hline.graph]
    decide
  · rw [hword _ hline.names.node]
    decide

theorem Body.mem_of_append {front rest : List Line} (h : Body (front ++ rest) body)
    (hfront : ∀ line ∈ front, ¬Says "stop" line) (hline : line ∈ front) : line ∈ body := by
  obtain ⟨stop, after, heq, hstop⟩ := h.stops
  obtain ⟨more, rfl, -⟩ | ⟨more, rfl, hmore⟩ := List.append_eq_append_iff.mp heq
  · exact List.mem_append_left more hline
  · rcases more with _ | ⟨first, more⟩
    · simpa using hline
    · obtain ⟨rfl, -⟩ := List.cons.inj hmore
      exact absurd hstop (hfront stop (by simp))

/-- The reader accepts its grammar: a text is read exactly when it has a line that says `stop` and the lines before the
first such line are blank, edges, headers with three finite numbers, or nodes with a name and two finite numbers after
some header, with one header at least. The size read is that of the last header, and the places are those of the last
line of each name, turned around at the height of the last header before that line. What is read is rejected when it is
cut anywhere before its line that says `stop`, and so is any text that is cut before a first word that begins with
`stop`. -/
theorem parse_grammar (text : String) :
    ((∃ raw, parse text = .ok raw) ↔ ∃ body, Body (fieldsOf text.toList) body ∧ Grammatical body) ∧
      (∀ raw body, parse text = .ok raw → Body (fieldsOf text.toList) body →
        LastExtent body raw.extent ∧ ∀ name p, raw.positions[name]? = some p ↔ LastPlace body name p) ∧
      ∀ before rest cut, text.toList = before ++ rest → Text.WholeLines before →
        (∀ line ∈ fieldsOf before, ¬Says "stop" line) → cut <+: before →
        ((∃ raw, parse text = .ok raw) ∨ ∀ line ∈ fieldsOf before, ∀ w, line.head? = some w → ¬"stop".toList <+: w) →
          ∃ fault, parse (String.ofList cut) = .error fault := by
  refine ⟨exists_parse_eq_ok, fun raw body hraw hbody => ?_, fun before rest cut htext hwhole hstop hcut hwords => ?_⟩
  · obtain ⟨other, p, hother, hrun, hfinish⟩ := parse_eq_ok.mp hraw
    obtain rfl := hbody.unique hother
    obtain ⟨extent, hp, rfl⟩ := finish_eq_ok.mp hfinish
    have h : Holds other p := holds_start.run hrun
    exact ⟨(h.extent extent).mp hp, h.positions⟩
  · refine parse_cut (fun line hline w hw => ?_) hcut
    obtain hread | hwords := hwords
    · obtain ⟨body, hbody, hgrammar⟩ := exists_parse_eq_ok.mp hread
      rw [htext, fieldsOf, Text.lines_append hwhole, List.map_append] at hbody
      obtain ⟨front, after, heq⟩ := List.append_of_mem (hbody.mem_of_append hstop hline)
      exact (hgrammar.fits front line after heq).not_stop hw
    · exact hwords line hline w hw

/-- A drawing of one node. -/
def smallDrawing : String := "graph 1 2 2\nnode \"a\" 1 0.5\nstop\n"

theorem small_drawing_cut :
    ∃ raw, parse smallDrawing = .ok raw ∧
      LastExtent [["graph", "1", "2", "2"].map String.toList, ["node", "\"a\"", "1", "0.5"].map String.toList]
        raw.extent ∧
      ∃ fault, parse "graph 1 2 2\nnode \"a\" 1" = .error fault := by
  have hok : (parse smallDrawing).isOk = true := by decide +kernel
  cases hraw : parse smallDrawing with
  | error fault =>
    rw [hraw] at hok
    cases hok
  | ok raw =>
    have hbody : Body (fieldsOf smallDrawing.toList)
        [["graph", "1", "2", "2"].map String.toList, ["node", "\"a\"", "1", "0.5"].map String.toList] :=
      ⟨⟨["stop".toList], [], by decide, by decide⟩, by decide⟩
    refine ⟨raw, rfl, ((parse_grammar smallDrawing).2.1 raw _ hraw hbody).1, ?_⟩
    exact (parse_grammar smallDrawing).2.2 "graph 1 2 2\nnode \"a\" 1 0.5\n".toList "stop\n".toList
      "graph 1 2 2\nnode \"a\" 1".toList (by decide) (.inr (by decide)) (by decide) (by decide) (.inl ⟨raw, hraw⟩)

end Texts

end Dot.Plain
end CallChart
