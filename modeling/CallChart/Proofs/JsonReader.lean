import CallChart.Proofs.JsonNumbers

/-! Every text of the grammar is read as what it spells, and nothing else is read. -/
namespace CallChart.Json

section Values

variable {cs ds rest : List Char} {j : Json}

/-! ### Scalars -/

theorem dropWord_eq_some {word : List Char} : dropWord word cs = some rest ↔ cs = word ++ rest := by
  rw [dropWord]
  split
  · next h =>
    obtain ⟨tail, rfl⟩ := List.isPrefixOf_iff_prefix.mp h
    rw [List.drop_left, Option.some.injEq, List.append_cancel_left_eq]
  · next h =>
    refine iff_of_false (fun h => by cases h) fun hcs => h ?_
    exact List.isPrefixOf_iff_prefix.mpr ⟨rest, hcs.symm⟩

theorem exists_word {k : Json} {c : Char} {word : List Char} (hk : Spells (.value k) (c :: word))
    (h : (dropWord word cs).map (fun rest => (k, rest)) = some (j, rest)) :
    ∃ w, Spells (.value j) w ∧ c :: cs = w ++ rest := by
  obtain ⟨final, hdrop, hresult⟩ := Option.map_eq_some_iff.mp h
  cases hresult
  exact ⟨_, hk, by rw [dropWord_eq_some.mp hdrop]; rfl⟩

theorem digit_ne {c d : Char} (hc : c.isDigit = true) (hd : d.isDigit = false) : c ≠ d := by
  rintro rfl
  rw [hc] at hd
  cases hd

theorem readScalar_digit {c : Char} (hc : c.isDigit = true) : readScalar (c :: cs) = readDigits false (c :: cs) := by
  refine readScalar.eq_6 _ ?_ ?_ ?_ ?_ ?_ <;> intro tail h <;> exact digit_ne hc (by decide) (List.cons.inj h).1

theorem readScalar_numeral (h : Numeral j cs) (hrest : Ends rest) : readScalar (cs ++ rest) = some (j, rest) := by
  obtain ⟨negative, n, f, e, hf, he, rfl, rfl⟩ := numeral_iff.mp h
  have hread := readDigits_append hf he hrest negative n
  simp only [List.append_assoc]
  cases negative with
  | true => exact hread
  | false =>
    obtain ⟨c, ds, hdigits, hc⟩ := exists_first_digit n
    rw [hdigits] at hread ⊢
    exact (readScalar_digit hc).trans hread

theorem exists_scalar (h : readScalar cs = some (j, rest)) : ∃ w, Spells (.value j) w ∧ cs = w ++ rest := by
  unfold readScalar at h
  split at h
  · next tail =>
    obtain ⟨⟨s, final⟩, hread, hresult⟩ := Option.map_eq_some_iff.mp h
    cases hresult
    obtain ⟨w, hw, heq⟩ := readText_eq_some.mp hread
    exact ⟨w, .text hw, heq⟩
  · exact exists_word .null h
  · exact exists_word .yes h
  · exact exists_word .no h
  · obtain ⟨n, f, e, hf, he, rfl, hj⟩ := exists_digits h
    refine ⟨_, .numeral (numeral_iff.mpr ⟨true, n, f, e, hf, he, rfl, hj⟩), ?_⟩
    simp only [if_true, List.append_assoc]
    rfl
  · obtain ⟨n, f, e, hf, he, rfl, hj⟩ := exists_digits h
    refine ⟨_, .numeral (numeral_iff.mpr ⟨false, n, f, e, hf, he, rfl, hj⟩), ?_⟩
    simp only [List.append_assoc]
    rfl

/-! ### What a text begins with -/

theorem isBlank_of_digit {c : Char} (hc : c.isDigit = true) : isBlank c = false := by
  refine Bool.eq_false_iff.mpr fun hblank => ?_
  have hall : ∀ d, d ∈ [' ', '\n', '\t', '\r'] → d.isDigit = false := by
    simp only [List.mem_cons, List.not_mem_nil, or_false]
    rintro d (rfl | rfl | rfl | rfl) <;> decide
  exact digit_ne hc (hall c (isBlank_iff.mp hblank)) rfl

theorem Numeral.begins (h : Numeral j cs) :
    ∃ c tail, cs = c :: tail ∧ isBlank c = false ∧ c ≠ '[' ∧ c ≠ '{' ∧ c ≠ ']' := by
  obtain ⟨negative, n, f, e, -, -, rfl, -⟩ := numeral_iff.mp h
  cases negative with
  | true => exact ⟨'-', _, rfl, by decide⟩
  | false =>
    obtain ⟨c, ds, hdigits, hc⟩ := exists_first_digit n
    refine ⟨c, ds ++ (f ++ e), by rw [hdigits]; rfl, isBlank_of_digit hc, ?_⟩
    exact ⟨digit_ne hc (by decide), digit_ne hc (by decide), digit_ne hc (by decide)⟩

/-- The first character of a value ends nothing and is not skipped. -/
theorem Spells.begins (h : Spells (.value j) cs) : ∃ c tail, cs = c :: tail ∧ isBlank c = false ∧ c ≠ ']' := by
  cases h with
  | null => exact ⟨'n', _, rfl, by decide⟩
  | yes => exact ⟨'t', _, rfl, by decide⟩
  | no => exact ⟨'f', _, rfl, by decide⟩
  | numeral h =>
    obtain ⟨c, tail, rfl, hblank, -, -, hc⟩ := h.begins
    exact ⟨c, tail, rfl, hblank, hc⟩
  | text h =>
    obtain ⟨tail, rfl⟩ := h.begins
    exact ⟨'"', tail, rfl, by decide⟩
  | emptyArray => exact ⟨'[', _, rfl, by decide⟩
  | array => exact ⟨'[', _, rfl, by decide⟩
  | emptyObject => exact ⟨'{', _, rfl, by decide⟩
  | object => exact ⟨'{', _, rfl, by decide⟩

theorem Spells.begins_items {js : List Json} (h : Spells (.items js) cs) :
    ∃ b c tail, Blanks b ∧ cs = b ++ c :: tail ∧ isBlank c = false ∧ c ≠ ']' := by
  have helement {j : Json} {cs : List Char} (h : Spells (.element j) cs) :
      ∃ b c tail, Blanks b ∧ cs = b ++ c :: tail ∧ isBlank c = false ∧ c ≠ ']' := by
    cases h with
    | element hb h hb' =>
      obtain ⟨c, tail, rfl, hc⟩ := h.begins
      exact ⟨_, c, tail ++ _, hb, List.append_assoc _ _ _, hc⟩
  cases h with
  | lastItem h => exact helement h
  | moreItems h =>
    obtain ⟨b, c, tail, hb, rfl, hc⟩ := helement h
    exact ⟨b, c, _, hb, List.append_assoc _ _ _, hc⟩

theorem Key.begins {key : Option String} (h : Key key cs) : ∃ b tail, Blanks b ∧ cs = b ++ '"' :: tail := by
  obtain ⟨b, ks, b', hb, hks, -, rfl⟩ := h
  obtain ⟨tail, rfl⟩ := hks.begins
  exact ⟨b, tail ++ (b' ++ [':']), hb, by simp only [List.append_assoc, List.cons_append]⟩

theorem Spells.begins_members {ms : List (Option String × Json)} (h : Spells (.members ms) cs) :
    ∃ b tail, Blanks b ∧ cs = b ++ '"' :: tail := by
  cases h with
  | lastMember hk =>
    obtain ⟨b, tail, hb, rfl⟩ := hk.begins
    exact ⟨b, _, hb, List.append_assoc _ _ _⟩
  | moreMembers hk =>
    obtain ⟨b, tail, hb, rfl⟩ := hk.begins
    exact ⟨b, _, hb, by simp only [List.append_assoc, List.cons_append]; rfl⟩

/-! ### Blanks in front -/

theorem Spells.indent {b : List Char} (hb : Blanks b) (h : Spells (.element j) cs) : Spells (.element j) (b ++ cs) := by
  cases h with
  | element hb' h ha =>
    rw [← List.append_assoc, ← List.append_assoc]
    exact .element (List.forall_mem_append.mpr ⟨hb, hb'⟩) h ha

theorem Spells.indent_items {b : List Char} {js : List Json} (hb : Blanks b) (h : Spells (.items js) cs) :
    Spells (.items js) (b ++ cs) := by
  cases h with
  | lastItem h => exact .lastItem (h.indent hb)
  | moreItems h hs =>
    rw [← List.append_assoc]
    exact .moreItems (h.indent hb) hs

theorem Key.indent {b : List Char} {key : Option String} (hb : Blanks b) (h : Key key cs) : Key key (b ++ cs) := by
  obtain ⟨b', ks, b'', hb', hks, hb'', rfl⟩ := h
  exact ⟨b ++ b', ks, b'', List.forall_mem_append.mpr ⟨hb, hb'⟩, hks, hb'', by simp only [List.append_assoc]⟩

theorem Spells.indent_members {b : List Char} {ms : List (Option String × Json)} (hb : Blanks b)
    (h : Spells (.members ms) cs) : Spells (.members ms) (b ++ cs) := by
  cases h with
  | lastMember hk h =>
    rw [← List.append_assoc]
    exact .lastMember (hk.indent hb) h
  | moreMembers hk h hs =>
    rw [← List.append_assoc, ← List.append_assoc]
    exact .moreMembers (hk.indent hb) h hs

/-! ### What is read is spelled -/

/-- What a reader with some steps takes from a text is spelled there. -/
structure Sound (steps : Nat) : Prop where
  value : ∀ {cs j rest}, readValue steps cs = some (j, rest) →
    ∃ b w, Blanks b ∧ Spells (.value j) w ∧ cs = b ++ (w ++ rest)
  items : ∀ {cs js rest}, readItems steps cs = some (js, rest) → ∃ w, Spells (.items js) w ∧ cs = w ++ ']' :: rest
  members : ∀ {cs ms rest}, readMembers steps cs = some (ms, rest) →
    ∃ w, Spells (.members ms) w ∧ cs = w ++ '}' :: rest

theorem Sound.value_succ {steps : Nat} (hs : Sound steps) (h : readValue (steps + 1) cs = some (j, rest)) :
    ∃ b w, Blanks b ∧ Spells (.value j) w ∧ cs = b ++ (w ++ rest) := by
  obtain ⟨b, hb, hcs⟩ := exists_blanks cs
  refine ⟨b, ?_⟩
  rw [readValue] at h
  split at h
  · next tail hopen =>
    obtain ⟨b', hb', htail⟩ := exists_blanks tail
    split at h
    · next final hclose =>
      cases h
      refine ⟨_, hb, .emptyArray hb', ?_⟩
      rw [hcs, hopen, htail, hclose]
      simp only [List.append_assoc, List.cons_append, List.nil_append]
    · obtain ⟨⟨js, final⟩, hread, hresult⟩ := Option.map_eq_some_iff.mp h
      cases hresult
      obtain ⟨w, hw, hitems⟩ := hs.items hread
      refine ⟨_, hb, .array (hw.indent_items hb'), ?_⟩
      rw [hcs, hopen, htail, hitems]
      simp only [List.append_assoc, List.cons_append, List.nil_append]
  · next tail hopen =>
    obtain ⟨b', hb', htail⟩ := exists_blanks tail
    split at h
    · next final hclose =>
      cases h
      refine ⟨_, hb, .emptyObject hb', ?_⟩
      rw [hcs, hopen, htail, hclose]
      simp only [List.append_assoc, List.cons_append, List.nil_append]
    · obtain ⟨⟨ms, final⟩, hread, hresult⟩ := Option.map_eq_some_iff.mp h
      cases hresult
      obtain ⟨w, hw, hmembers⟩ := hs.members hread
      refine ⟨_, hb, .object (hw.indent_members hb'), ?_⟩
      rw [hcs, hopen, htail, hmembers]
      simp only [List.append_assoc, List.cons_append, List.nil_append]
  · obtain ⟨w, hw, hskip⟩ := exists_scalar h
    exact ⟨w, hb, hw, by rw [hcs, hskip]⟩

/-- A value and the blanks after it, up to what the reader looks at next. -/
theorem Sound.element {steps : Nat} (hs : Sound steps) (h : readValue steps cs = some (j, rest)) :
    ∃ w, Spells (.element j) w ∧ cs = w ++ skipBlank rest := by
  obtain ⟨b, w, hb, hw, rfl⟩ := hs.value h
  obtain ⟨b', hb', hrest⟩ := exists_blanks rest
  refine ⟨b ++ w ++ b', .element hb hw hb', ?_⟩
  rw [List.append_assoc, List.append_assoc, ← hrest]

theorem Sound.items_succ {steps : Nat} {js : List Json} (hs : Sound steps)
    (h : readItems (steps + 1) cs = some (js, rest)) : ∃ w, Spells (.items js) w ∧ cs = w ++ ']' :: rest := by
  rw [readItems] at h
  split at h
  · cases h
  · next j tail hitem =>
    obtain ⟨w, hw, rfl⟩ := hs.element hitem
    split at h
    · next final hcomma =>
      obtain ⟨⟨ks, last⟩, hread, hresult⟩ := Option.map_eq_some_iff.mp h
      cases hresult
      obtain ⟨w', hw', rfl⟩ := hs.items hread
      refine ⟨_, .moreItems hw hw', ?_⟩
      rw [hcomma, List.append_assoc, List.cons_append]
    · next final hclose =>
      cases h
      exact ⟨w, .lastItem hw, by rw [hclose]⟩
    · cases h

theorem Sound.members_succ {steps : Nat} {ms : List (Option String × Json)} (hs : Sound steps)
    (h : readMembers (steps + 1) cs = some (ms, rest)) : ∃ w, Spells (.members ms) w ∧ cs = w ++ '}' :: rest := by
  rw [readMembers] at h
  split at h
  · cases h
  · next key afterKey hkey =>
    obtain ⟨ks, hks, rfl⟩ := readKey_eq_some.mp hkey
    split at h
    · cases h
    · next j tail hvalue =>
      obtain ⟨w, hw, rfl⟩ := hs.element hvalue
      split at h
      · next final hcomma =>
        obtain ⟨⟨others, last⟩, hread, hresult⟩ := Option.map_eq_some_iff.mp h
        cases hresult
        obtain ⟨w', hw', rfl⟩ := hs.members hread
        refine ⟨_, .moreMembers hks hw hw', ?_⟩
        rw [hcomma]
        simp only [List.append_assoc, List.cons_append]
      · next final hclose =>
        cases h
        exact ⟨_, .lastMember hks hw, by rw [hclose, List.append_assoc]⟩
      · cases h

theorem sound (steps : Nat) : Sound steps := by
  induction steps with
  | zero =>
    refine ⟨fun h => ?_, fun h => ?_, fun h => ?_⟩ <;> cases h
  | succ steps hs => exact ⟨hs.value_succ, hs.items_succ, hs.members_succ⟩

/-! ### What is spelled is read -/

theorem Ends.blanks {b : List Char} (hb : Blanks b) (h : Ends rest) : Ends (b ++ rest) := by
  refine forall_head_append (fun c hc => ?_) h
  have hmem := hb c (List.mem_of_mem_head? hc)
  exact List.mem_append_left [',', ']', '}'] hmem

theorem readValue_blanks {b : List Char} (hb : Blanks b) (steps : Nat) (cs : List Char) :
    readValue steps (b ++ cs) = readValue steps cs := by
  cases steps with
  | zero => rfl
  | succ steps => simp only [readValue, skipBlank_append hb]

theorem readItems_blanks {b : List Char} (hb : Blanks b) (steps : Nat) (cs : List Char) :
    readItems steps (b ++ cs) = readItems steps cs := by
  cases steps with
  | zero => rfl
  | succ steps => simp only [readItems, readValue_blanks hb]

theorem readMembers_blanks {b : List Char} (hb : Blanks b) (steps : Nat) (cs : List Char) :
    readMembers steps (b ++ cs) = readMembers steps cs := by
  cases steps with
  | zero => rfl
  | succ steps => simp only [readMembers, readKey, skipBlank_append hb]

theorem readValue_scalar {c : Char} (hblank : isBlank c = false) (hbracket : c ≠ '[') (hbrace : c ≠ '{') (steps : Nat) :
    readValue (steps + 1) (c :: cs) = readScalar (c :: cs) := by
  rw [readValue, skipBlank_of_not hblank]
  split
  · next h => exact absurd (List.cons.inj h).1 hbracket
  · next h => exact absurd (List.cons.inj h).1 hbrace
  · rfl

theorem readValue_array {c : Char} {b tail : List Char} {js : List Json} {steps : Nat} (hb : Blanks b)
    (hblank : isBlank c = false) (hc : c ≠ ']') (h : readItems steps (b ++ c :: tail) = some (js, rest)) :
    readValue (steps + 1) ('[' :: (b ++ c :: tail)) = some (array js, rest) := by
  rw [readItems_blanks hb] at h
  have hskip : skipBlank (b ++ c :: tail) = c :: tail := by rw [skipBlank_append hb, skipBlank_of_not hblank]
  have hopen : skipBlank ('[' :: (b ++ c :: tail)) = '[' :: (b ++ c :: tail) := skipBlank_of_not (by decide) _
  simp only [readValue, hopen, hskip]
  split
  · next hclose => exact absurd (List.cons.inj hclose).1 hc
  · rw [h]
    rfl

theorem readValue_object {b tail : List Char} {ms : List (Option String × Json)} {steps : Nat} (hb : Blanks b)
    (h : readMembers steps (b ++ '"' :: tail) = some (ms, rest)) :
    readValue (steps + 1) ('{' :: (b ++ '"' :: tail)) = some (object ms, rest) := by
  rw [readMembers_blanks hb] at h
  have hskip : skipBlank (b ++ '"' :: tail) = '"' :: tail := by
    rw [skipBlank_append hb, skipBlank_of_not (by decide)]
  have hopen : skipBlank ('{' :: (b ++ '"' :: tail)) = '{' :: (b ++ '"' :: tail) := skipBlank_of_not (by decide) _
  simp only [readValue, hopen, hskip]
  split
  · next hclose => exact absurd (List.cons.inj hclose).1 (by decide)
  · rw [h]
    rfl

/-- A reader with as many steps as there are characters takes what is spelled. After an element, the blanks that end it
may be left. -/
def Reads : Phrase → List Char → Prop
  | .value j, cs => ∀ steps rest, cs.length < steps → Ends rest → readValue steps (cs ++ rest) = some (j, rest)
  | .element j, cs => ∀ steps rest, cs.length < steps → Ends rest →
      ∃ tail, readValue steps (cs ++ rest) = some (j, tail) ∧ skipBlank tail = skipBlank rest
  | .items js, cs => ∀ steps rest, cs.length + 1 < steps → readItems steps (cs ++ ']' :: rest) = some (js, rest)
  | .members ms, cs => ∀ steps rest, cs.length + 1 < steps → readMembers steps (cs ++ '}' :: rest) = some (ms, rest)

theorem reads_scalar {c : Char} {tail : List Char} (hcs : cs = c :: tail) (hblank : isBlank c = false)
    (hbracket : c ≠ '[') (hbrace : c ≠ '{') (h : ∀ rest, Ends rest → readScalar (cs ++ rest) = some (j, rest)) :
    Reads (.value j) cs := by
  intro steps rest hsteps hrest
  cases steps with
  | zero => exact absurd hsteps (Nat.not_lt_zero _)
  | succ steps =>
    rw [← h rest hrest, hcs]
    exact readValue_scalar hblank hbracket hbrace steps

theorem reads_emptyArray {b : List Char} (hb : Blanks b) : Reads (.value (.array [])) ('[' :: b ++ [']']) := by
  intro steps rest hsteps _
  have hopen : skipBlank ('[' :: (b ++ ']' :: rest)) = '[' :: (b ++ ']' :: rest) := skipBlank_of_not (by decide) _
  have hclose : skipBlank (b ++ ']' :: rest) = ']' :: rest := by
    rw [skipBlank_append hb, skipBlank_of_not (by decide)]
  cases steps with
  | zero => exact absurd hsteps (Nat.not_lt_zero _)
  | succ steps => simp only [List.cons_append, List.append_assoc, List.nil_append, readValue, hopen, hclose]

theorem reads_emptyObject {b : List Char} (hb : Blanks b) : Reads (.value (.object [])) ('{' :: b ++ ['}']) := by
  intro steps rest hsteps _
  have hopen : skipBlank ('{' :: (b ++ '}' :: rest)) = '{' :: (b ++ '}' :: rest) := skipBlank_of_not (by decide) _
  have hclose : skipBlank (b ++ '}' :: rest) = '}' :: rest := by
    rw [skipBlank_append hb, skipBlank_of_not (by decide)]
  cases steps with
  | zero => exact absurd hsteps (Nat.not_lt_zero _)
  | succ steps => simp only [List.cons_append, List.append_assoc, List.nil_append, readValue, hopen, hclose]

theorem reads_array {js : List Json} (h : Spells (.items js) cs) (ih : Reads (.items js) cs) :
    Reads (.value (.array js)) ('[' :: cs ++ [']']) := by
  intro steps rest hsteps _
  cases steps with
  | zero => exact absurd hsteps (Nat.not_lt_zero _)
  | succ steps =>
    have hread := ih steps rest (by simpa using hsteps)
    obtain ⟨b, c, tail, hb, rfl, hblank, hc⟩ := h.begins_items
    simp only [List.cons_append, List.append_assoc, List.nil_append] at hread ⊢
    exact readValue_array hb hblank hc hread

theorem reads_object {ms : List (Option String × Json)} (h : Spells (.members ms) cs) (ih : Reads (.members ms) cs) :
    Reads (.value (.object ms)) ('{' :: cs ++ ['}']) := by
  intro steps rest hsteps _
  cases steps with
  | zero => exact absurd hsteps (Nat.not_lt_zero _)
  | succ steps =>
    have hread := ih steps rest (by simpa using hsteps)
    obtain ⟨b, tail, hb, rfl⟩ := h.begins_members
    simp only [List.cons_append, List.append_assoc, List.nil_append] at hread ⊢
    exact readValue_object hb hread

theorem reads_element {b b' : List Char} (hb : Blanks b) (ih : Reads (.value j) cs) (hb' : Blanks b') :
    Reads (.element j) (b ++ cs ++ b') := by
  intro steps rest hsteps hrest
  refine ⟨b' ++ rest, ?_, skipBlank_append hb' rest⟩
  rw [List.append_assoc, List.append_assoc, readValue_blanks hb]
  simp only [List.length_append] at hsteps
  exact ih steps (b' ++ rest) (by omega) (hrest.blanks hb')

theorem ends_cons {c : Char} (hc : c ∈ [' ', '\n', '\t', '\r', ',', ']', '}']) : Ends (c :: rest) := by
  intro d hd
  cases hd
  exact hc

theorem reads_lastItem (ih : Reads (.element j) cs) : Reads (.items [j]) cs := by
  intro steps rest hsteps
  cases steps with
  | zero => exact absurd hsteps (Nat.not_lt_zero _)
  | succ steps =>
    obtain ⟨tail, hread, hskip⟩ := ih steps (']' :: rest) (by omega) (ends_cons (by simp))
    rw [skipBlank_of_not (by decide)] at hskip
    simp only [readItems, hread, hskip]

theorem reads_moreItems {js : List Json} (ih : Reads (.element j) cs) (ihs : Reads (.items js) ds) :
    Reads (.items (j :: js)) (cs ++ ',' :: ds) := by
  intro steps rest hsteps
  simp only [List.length_append, List.length_cons] at hsteps
  cases steps with
  | zero => exact absurd hsteps (Nat.not_lt_zero _)
  | succ steps =>
    obtain ⟨tail, hread, hskip⟩ := ih steps (',' :: (ds ++ ']' :: rest)) (by omega) (ends_cons (by simp))
    have hreads := ihs steps rest (by omega)
    rw [skipBlank_of_not (by decide)] at hskip
    simp only [List.append_assoc, List.cons_append, readItems, hread, hskip, hreads, Option.map_some]

theorem reads_lastMember {key : Option String} {ks : List Char} (hk : Key key ks) (ih : Reads (.element j) cs) :
    Reads (.members [(key, j)]) (ks ++ cs) := by
  intro steps rest hsteps
  simp only [List.length_append] at hsteps
  cases steps with
  | zero => exact absurd hsteps (Nat.not_lt_zero _)
  | succ steps =>
    obtain ⟨tail, hread, hskip⟩ := ih steps ('}' :: rest) (by omega) (ends_cons (by simp))
    have hkey := readKey_eq_some.mpr ⟨ks, hk, List.append_assoc ks cs ('}' :: rest)⟩
    rw [skipBlank_of_not (by decide)] at hskip
    simp only [readMembers, hkey, hread, hskip]

theorem reads_moreMembers {key : Option String} {ms : List (Option String × Json)} {ks : List Char} (hk : Key key ks)
    (ih : Reads (.element j) cs) (ihs : Reads (.members ms) ds) :
    Reads (.members ((key, j) :: ms)) (ks ++ cs ++ ',' :: ds) := by
  intro steps rest hsteps
  simp only [List.length_append, List.length_cons] at hsteps
  cases steps with
  | zero => exact absurd hsteps (Nat.not_lt_zero _)
  | succ steps =>
    obtain ⟨tail, hread, hskip⟩ := ih steps (',' :: (ds ++ '}' :: rest)) (by omega) (ends_cons (by simp))
    have hreads := ihs steps rest (by omega)
    have hkey := readKey_eq_some.mpr ⟨ks, hk, List.append_assoc ks cs (',' :: (ds ++ '}' :: rest))⟩
    rw [skipBlank_of_not (by decide)] at hskip
    rw [List.append_assoc]
    simp only [List.cons_append, readMembers, hkey, hread, hskip, hreads, Option.map_some]

theorem Spells.reads {p : Phrase} (h : Spells p cs) : Reads p cs := by
  -- Each rule of the grammar is one step of a reader, so the steps never run out before the characters.
  induction h with
  | null => exact reads_scalar rfl (by decide) (by decide) (by decide) fun _ _ => rfl
  | yes => exact reads_scalar rfl (by decide) (by decide) (by decide) fun _ _ => rfl
  | no => exact reads_scalar rfl (by decide) (by decide) (by decide) fun _ _ => rfl
  | numeral h =>
    obtain ⟨c, tail, hcs, hblank, hbracket, hbrace, -⟩ := h.begins
    exact reads_scalar hcs hblank hbracket hbrace fun rest hrest => readScalar_numeral h hrest
  | @text s cs h =>
    obtain ⟨tail, rfl⟩ := h.begins
    refine reads_scalar rfl (by decide) (by decide) (by decide) fun rest _ => ?_
    have hread : readText (tail ++ rest) = some (s, rest) := readText_eq_some.mpr ⟨_, h, rfl⟩
    simp only [List.cons_append, readScalar, hread, Option.map_some]
  | emptyArray hb => exact reads_emptyArray hb
  | array h ih => exact reads_array h ih
  | emptyObject hb => exact reads_emptyObject hb
  | object h ih => exact reads_object h ih
  | element hb _ hb' ih => exact reads_element hb ih hb'
  | lastItem _ ih => exact reads_lastItem ih
  | moreItems _ _ ih ihs => exact reads_moreItems ih ihs
  | lastMember hk _ ih => exact reads_lastMember hk ih
  | moreMembers hk _ _ ih ihs => exact reads_moreMembers hk ih ihs

/-! ### Whole texts -/

/-- A text is read as a value exactly if it spells that value, with blanks around it. -/
theorem parse_eq_some {s : String} : parse s = some j ↔ Spells (.element j) s.toList := by
  simp only [parse, Option.bind_eq_bind, Option.bind_eq_some_iff]
  constructor
  · rintro ⟨⟨value, rest⟩, hread, hresult⟩
    obtain ⟨w, hw, hcs⟩ := (sound _).element hread
    dsimp only at hresult
    split at hresult
    · next hend =>
      cases hresult
      rw [List.isEmpty_iff.mp hend, List.append_nil] at hcs
      rwa [hcs]
    · cases hresult
  · intro h
    obtain ⟨tail, hread, hskip⟩ := h.reads (s.toList.length + 1) [] (Nat.lt_succ_self _) fun _ hc => by cases hc
    rw [List.append_nil] at hread
    exact ⟨_, hread, if_pos (by rw [hskip]; rfl)⟩

end Values

end CallChart.Json
