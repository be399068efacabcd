import CallChart.Json.Parse

/-! The grammar of JSON, and the readers of its smallest parts. A reader takes as much of a text as its part of the
grammar covers and leaves the rest, so each is described by the ways in which a text can be divided. -/
namespace CallChart.Json

/-! ### Grammar -/

/-- Text between the parts of a text. -/
def Blanks (cs : List Char) : Prop := ∀ c ∈ cs, c ∈ [' ', '\n', '\t', '\r']

inductive HexDigit : Char → Nat → Prop where
  | lower {n : Nat} (h : n < 16) : HexDigit n.digitChar n
  | upper {n : Nat} (h : n < 16) : HexDigit n.digitChar.toUpper n

/-- The letters that may follow a backslash, and what they stand for there. -/
def shortEscapes : List (Char × Char) :=
  [('"', '"'), ('\\', '\\'), ('/', '/'), ('b', '\x08'), ('f', '\x0c'), ('n', '\n'), ('r', '\r'), ('t', '\t')]

/-- One code of a string and how it is written. -/
inductive Code : Nat → List Char → Prop where
  | plain {c : Char} (hprintable : ' ' ≤ c) (hquote : c ≠ '"') (hbackslash : c ≠ '\\') : Code c.toNat [c]
  | short {c d : Char} (h : (c, d) ∈ shortEscapes) : Code d.toNat ['\\', c]
  | numbered {a b c d : Char} {i j k l : Nat} (ha : HexDigit a i) (hb : HexDigit b j) (hc : HexDigit c k)
      (hd : HexDigit d l) : Code (((i * 16 + j) * 16 + k) * 16 + l) ['\\', 'u', a, b, c, d]

inductive Codes : List Nat → List Char → Prop where
  | nil : Codes [] []
  | cons {n : Nat} {ns : List Nat} {cs ds : List Char} (h : Code n cs) (hs : Codes ns ds) : Codes (n :: ns) (cs ++ ds)

/-- The characters that codes stand for. A character may be given by the two halves of a surrogate pair. -/
inductive Encodes : List Nat → List Char → Prop where
  | nil : Encodes [] []
  | char {c : Char} {ns : List Nat} {cs : List Char} (hs : Encodes ns cs) : Encodes (c.toNat :: ns) (c :: cs)
  | pair {c : Char} {high low : Nat} {ns : List Nat} {cs : List Char} (hhigh : 0xD800 ≤ high ∧ high < 0xDC00)
      (hlow : 0xDC00 ≤ low ∧ low < 0xE000) (hc : c.toNat = 0x10000 + (high - 0xD800) * 0x400 + (low - 0xDC00))
      (hs : Encodes ns cs) : Encodes (high :: low :: ns) (c :: cs)

/-- A string in its quotes. It has no text if its codes stand for none. -/
inductive Quotes : Option String → List Char → Prop where
  | text {s : String} {ns : List Nat} {cs : List Char} (h : Codes ns cs) (hs : Encodes ns s.toList) :
      Quotes (some s) ('"' :: cs ++ ['"'])
  | other {ns : List Nat} {cs : List Char} (h : Codes ns cs) (hs : ∀ ds, ¬ Encodes ns ds) :
      Quotes none ('"' :: cs ++ ['"'])

def Digits (cs : List Char) : Prop := cs ≠ [] ∧ ∀ c ∈ cs, c.isDigit = true

inductive Fraction : List Char → Prop where
  | none : Fraction []
  | digits {ds : List Char} (h : Digits ds) : Fraction ('.' :: ds)

inductive Exponent : List Char → Prop where
  | none : Exponent []
  | digits {e : Char} {sign ds : List Char} (he : e = 'e' ∨ e = 'E') (hsign : sign ∈ [[], ['+'], ['-']])
      (h : Digits ds) : Exponent (e :: sign ++ ds)

/-- A number. An integer is written in one way only, without zeros in front. -/
inductive Numeral : Json → List Char → Prop where
  | natural (n : Nat) : Numeral (.integer n) (Nat.toDigits 10 n)
  | negative {n : Nat} (h : 0 < n) : Numeral (.integer (-n)) ('-' :: Nat.toDigits 10 n)
  | minusZero : Numeral .real ['-', '0']
  | real {fraction exponent : List Char} (negative : Bool) (n : Nat) (hf : Fraction fraction) (he : Exponent exponent)
      (h : fraction ≠ [] ∨ exponent ≠ []) :
      Numeral .real ((if negative then ['-'] else []) ++ (Nat.toDigits 10 n ++ (fraction ++ exponent)))

/-- A key and the colon after it. -/
def Key (key : Option String) (cs : List Char) : Prop :=
  ∃ b ks b', Blanks b ∧ Quotes key ks ∧ Blanks b' ∧ cs = b ++ ks ++ b' ++ [':']

/-- What a part of a text may be. -/
inductive Phrase where
  | value (j : Json)
  /-- A value with blanks around it. -/
  | element (j : Json)
  /-- What stands between the brackets of an array that is not empty. -/
  | items (js : List Json)
  /-- What stands between the braces of an object that is not empty. -/
  | members (ms : List (Option String × Json))

inductive Spells : Phrase → List Char → Prop where
  | null : Spells (.value .null) "null".toList
  | yes : Spells (.value (.bool true)) "true".toList
  | no : Spells (.value (.bool false)) "false".toList
  | numeral {j : Json} {cs : List Char} (h : Numeral j cs) : Spells (.value j) cs
  | text {s : Option String} {cs : List Char} (h : Quotes s cs) : Spells (.value (.text s)) cs
  | emptyArray {b : List Char} (h : Blanks b) : Spells (.value (.array [])) ('[' :: b ++ [']'])
  | array {js : List Json} {cs : List Char} (h : Spells (.items js) cs) :
      Spells (.value (.array js)) ('[' :: cs ++ [']'])
  | emptyObject {b : List Char} (h : Blanks b) : Spells (.value (.object [])) ('{' :: b ++ ['}'])
  | object {ms : List (Option String × Json)} {cs : List Char} (h : Spells (.members ms) cs) :
      Spells (.value (.object ms)) ('{' :: cs ++ ['}'])
  | element {j : Json} {b cs b' : List Char} (hb : Blanks b) (h : Spells (.value j) cs) (hb' : Blanks b') :
      Spells (.element j) (b ++ cs ++ b')
  | lastItem {j : Json} {cs : List Char} (h : Spells (.element j) cs) : Spells (.items [j]) cs
  | moreItems {j : Json} {js : List Json} {cs ds : List Char} (h : Spells (.element j) cs)
      (hs : Spells (.items js) ds) : Spells (.items (j :: js)) (cs ++ ',' :: ds)
  | lastMember {key : Option String} {j : Json} {ks cs : List Char} (hk : Key key ks) (h : Spells (.element j) cs) :
      Spells (.members [(key, j)]) (ks ++ cs)
  | moreMembers {key : Option String} {j : Json} {ms : List (Option String × Json)} {ks cs ds : List Char}
      (hk : Key key ks) (h : Spells (.element j) cs) (hs : Spells (.members ms) ds) :
      Spells (.members ((key, j) :: ms)) (ks ++ cs ++ ',' :: ds)

/-! ### Blanks -/

section Leaves

variable {cs ds rest : List Char}

theorem isBlank_iff {c : Char} : isBlank c = true ↔ c ∈ [' ', '\n', '\t', '\r'] := by
  simp only [isBlank, Bool.or_eq_true, beq_iff_eq, List.mem_cons, List.not_mem_nil, or_false, or_assoc]

theorem blanks_nil : Blanks [] := fun _ h => by cases h

theorem skipBlank_append (h : Blanks cs) (rest : List Char) : skipBlank (cs ++ rest) = skipBlank rest :=
  List.dropWhile_append_of_pos fun c hc => isBlank_iff.mpr (h c hc)

theorem skipBlank_of_not {c : Char} (h : isBlank c = false) (rest : List Char) :
    skipBlank (c :: rest) = c :: rest :=
  List.dropWhile_cons_of_neg (by rw [h]; exact Bool.false_ne_true)

theorem exists_blanks (cs : List Char) : ∃ b, Blanks b ∧ cs = b ++ skipBlank cs := by
  refine ⟨cs.takeWhile isBlank, fun c hc => ?_, List.takeWhile_append_dropWhile.symm⟩
  exact isBlank_iff.mp (List.all_eq_true.mp List.all_takeWhile c hc)

/-! ### Strings -/

theorem le_iff_toNat {c d : Char} : c ≤ d ↔ c.toNat ≤ d.toNat := UInt32.le_iff_toNat_le

theorem toNat_hexDigit {n : Nat} (h : n < 16) :
    n.digitChar.toNat = (if n < 10 then 48 else 87) + n ∧
      n.digitChar.toUpper.toNat = (if n < 10 then 48 else 55) + n := by
  have hall : ∀ k : Fin 16, k.val.digitChar.toNat = (if k.val < 10 then 48 else 87) + k.val ∧
      k.val.digitChar.toUpper.toNat = (if k.val < 10 then 48 else 55) + k.val := by decide
  exact hall ⟨n, h⟩

theorem hexDigit_iff {c : Char} {n : Nat} : HexDigit c n ↔
    n < 10 ∧ c.toNat = 48 + n ∨ (10 ≤ n ∧ n < 16) ∧ (c.toNat = 87 + n ∨ c.toNat = 55 + n) := by
  constructor
  · rintro (h | h)
    · have hcode := (toNat_hexDigit h).1
      split at hcode <;> omega
    · have hcode := (toNat_hexDigit h).2
      split at hcode <;> omega
  · have hlower (hn : n < 16) (hc : c.toNat = n.digitChar.toNat) : HexDigit c n := Char.toNat_inj.mp hc ▸ .lower hn
    have hupper (hn : n < 16) (hc : c.toNat = n.digitChar.toUpper.toNat) : HexDigit c n :=
      Char.toNat_inj.mp hc ▸ .upper hn
    rintro (⟨hn, hc⟩ | ⟨⟨hletter, hn⟩, hc | hc⟩)
    · exact hlower (by omega) (by rw [(toNat_hexDigit (by omega)).1, if_pos hn, hc])
    · exact hlower hn (by rw [(toNat_hexDigit hn).1, if_neg (by omega), hc])
    · exact hupper hn (by rw [(toNat_hexDigit hn).2, if_neg (by omega), hc])

theorem hexValue?_eq_some {c : Char} {n : Nat} : hexValue? c = some n ↔ HexDigit c n := by
  rw [hexDigit_iff]
  simp only [hexValue?, Bool.and_eq_true, decide_eq_true_eq, le_iff_toNat, Char.reduceToNat]
  split
  · rw [Option.some.injEq]
    omega
  · split
    · rw [Option.some.injEq]
      omega
    · split
      · rw [Option.some.injEq]
        omega
      · exact iff_of_false (fun h => by cases h) (by omega)

theorem unescape?_eq_some {c d : Char} : unescape? c = some d ↔ (c, d) ∈ shortEscapes := by
  constructor
  · intro h
    simp only [unescape?, Bool.or_eq_true, decide_eq_true_eq] at h
    split at h
    · next hself =>
      cases h
      rcases hself with (rfl | rfl) | rfl <;> decide
    · iterate 5
        split at h
        · next hc =>
          cases hc
          cases h
          decide
      cases h
  · intro h
    have hall : ∀ e ∈ shortEscapes, unescape? e.1 = some e.2 := by decide
    exact hall (c, d) h

theorem code?_eq_some {a b c d : Char} {n : Nat} : code? a b c d = some n ↔ ∃ i j k l, HexDigit a i ∧ HexDigit b j ∧
    HexDigit c k ∧ HexDigit d l ∧ n = ((i * 16 + j) * 16 + k) * 16 + l := by
  simp only [code?, Option.bind_eq_bind, Option.bind_eq_some_iff, Option.pure_def, Option.some.injEq, hexValue?_eq_some]
  constructor
  · rintro ⟨i, ha, j, hb, k, hc, l, hd, rfl⟩
    exact ⟨i, j, k, l, ha, hb, hc, hd, rfl⟩
  · rintro ⟨i, j, k, l, ha, hb, hc, hd, rfl⟩
    exact ⟨i, ha, j, hb, k, hc, l, hd, rfl⟩

theorem readCodes_of_code {n : Nat} (h : Code n cs) (rest : List Char) :
    readCodes (cs ++ rest) = (readCodes rest).map (Prod.map (n :: ·) id) := by
  cases h with
  | plain hprintable hquote hbackslash =>
    rw [List.singleton_append, readCodes.eq_5 _ _ hquote (fun _ _ _ _ _ hc => absurd hc hbackslash)
      (fun _ _ hc => absurd hc hbackslash), if_neg (Char.not_lt.mpr hprintable)]
    cases readCodes rest <;> rfl
  | short h =>
    have hplain : ∀ e ∈ shortEscapes, e.1 ≠ 'u' := by decide
    rw [List.cons_append, List.singleton_append, readCodes.eq_4 _ _ fun _ _ _ _ _ hc => absurd hc (hplain _ h),
      unescape?_eq_some.mpr h]
    cases readCodes rest <;> rfl
  | numbered ha hb hc hd =>
    have hcode := code?_eq_some.mpr ⟨_, _, _, _, ha, hb, hc, hd, rfl⟩
    simp only [List.cons_append, List.nil_append, readCodes, hcode]
    cases readCodes rest <;> rfl

/-- A quote ends the codes, and nothing else does. -/
theorem readCodes_eq_some {ns : List Nat} :
    readCodes cs = some (ns, rest) ↔ ∃ ds, Codes ns ds ∧ cs = ds ++ '"' :: rest := by
  constructor
  · intro h
    induction cs using readCodes.induct generalizing ns with
    | case1 => cases h
    | case2 cs =>
      cases h
      exact ⟨[], .nil, rfl⟩
    | case3 a b c d cs ih =>
      simp only [readCodes, Option.bind_eq_bind, Option.bind_eq_some_iff, Option.pure_def, Option.some.injEq,
        Prod.mk.injEq] at h
      obtain ⟨n, hn, ⟨ms, tail⟩, hread, rfl, rfl⟩ := h
      obtain ⟨ds, hds, rfl⟩ := ih hread
      obtain ⟨i, j, k, l, ha, hb, hc, hd, rfl⟩ := code?_eq_some.mp hn
      exact ⟨_, .cons (.numbered ha hb hc hd) hds, rfl⟩
    | case4 c cs hnumbered ih =>
      rw [readCodes.eq_4 c cs hnumbered] at h
      simp only [Option.bind_eq_bind, Option.bind_eq_some_iff, Option.pure_def, Option.some.injEq,
        Prod.mk.injEq] at h
      obtain ⟨d, hd, ⟨ms, tail⟩, hread, rfl, rfl⟩ := h
      obtain ⟨ds, hds, rfl⟩ := ih hread
      exact ⟨_, .cons (.short (unescape?_eq_some.mp hd)) hds, rfl⟩
    | case5 c cs hquote hnumbered hshort hcontrol =>
      rw [readCodes.eq_5 c cs hquote hnumbered hshort, if_pos hcontrol] at h
      cases h
    | case6 c cs hquote hnumbered hshort hprintable ih =>
      rw [readCodes.eq_5 c cs hquote hnumbered hshort, if_neg hprintable] at h
      simp only [Option.bind_eq_bind, Option.bind_eq_some_iff, Option.pure_def, Option.some.injEq,
        Prod.mk.injEq] at h
      obtain ⟨⟨ms, tail⟩, hread, rfl, rfl⟩ := h
      obtain ⟨ds, hds, rfl⟩ := ih hread
      have hbackslash : c ≠ '\\' := by
        rintro rfl
        cases ds with
        | nil => exact hshort _ _ rfl rfl
        | cons d ds => exact hshort _ _ rfl rfl
      exact ⟨_, .cons (.plain (Char.not_lt.mp hprintable) hquote hbackslash) hds, rfl⟩
  · rintro ⟨ds, hds, rfl⟩
    induction hds with
    | nil => rfl
    | cons hcode _ ih =>
      rw [List.append_assoc, readCodes_of_code hcode, ih]
      rfl

/-! ### Halves of surrogate pairs -/

theorem toNat_ofNat {n : Nat} (h : n.isValidChar) : (Char.ofNat n).toNat = n := by
  rw [Char.ofNat, dif_pos h]
  rfl

theorem HexDigit.lt {c : Char} {n : Nat} (h : HexDigit c n) : n < 16 := by
  cases h <;> assumption

/-- The codes of a string are those of characters and of halves of surrogate pairs. -/
theorem Code.lt {n : Nat} (h : Code n cs) : n < 0x110000 := by
  have hchar (c : Char) : c.toNat < 0x110000 := by
    have hvalid : c.toNat < 0xD800 ∨ 0xDFFF < c.toNat ∧ c.toNat < 0x110000 := c.valid
    omega
  cases h with
  | plain => exact hchar _
  | short => exact hchar _
  | numbered ha hb hc hd =>
    have hi := ha.lt
    have hj := hb.lt
    have hk := hc.lt
    have hl := hd.lt
    omega

theorem Codes.lt {ns : List Nat} (h : Codes ns cs) : ∀ n ∈ ns, n < 0x110000 := by
  induction h with
  | nil => exact fun n hn => absurd hn List.not_mem_nil
  | cons hcode _ ih => exact List.forall_mem_cons.mpr ⟨hcode.lt, ih⟩

theorem half_iff {n : Nat} : (isHighHalf n || isLowHalf n) = true ↔ 0xD800 ≤ n ∧ n < 0xE000 := by
  simp only [isHighHalf, isLowHalf, Bool.or_eq_true, Bool.and_eq_true, decide_eq_true_eq]
  omega

theorem pair_iff {m n : Nat} : (isHighHalf m && isLowHalf n) = true ↔
    (0xD800 ≤ m ∧ m < 0xDC00) ∧ 0xDC00 ≤ n ∧ n < 0xE000 := by
  simp only [isHighHalf, isLowHalf, Bool.and_eq_true, decide_eq_true_eq]

theorem not_half (c : Char) : ¬ (0xD800 ≤ c.toNat ∧ c.toNat < 0xE000) := by
  have hvalid : c.toNat < 0xD800 ∨ 0xDFFF < c.toNat ∧ c.toNat < 0x110000 := c.valid
  omega

theorem encodes_nil_iff : Encodes [] cs ↔ cs = [] := by
  refine ⟨fun h => ?_, fun h => h ▸ .nil⟩
  cases h
  rfl

theorem encodes_whole_iff {n : Nat} {ns : List Nat} (hn : n < 0x110000)
    (hwhole : ¬ (isHighHalf n || isLowHalf n) = true) :
    Encodes (n :: ns) cs ↔ ∃ ds, Encodes ns ds ∧ Char.ofNat n :: ds = cs := by
  rw [half_iff] at hwhole
  constructor
  · intro h
    cases h with
    | char hs => exact ⟨_, hs, by rw [Char.ofNat_toNat]⟩
    | pair hhigh => omega
  · rintro ⟨ds, hds, rfl⟩
    have hvalid : n.isValidChar := by
      unfold Nat.isValidChar
      omega
    have hchar := Encodes.char (c := Char.ofNat n) hds
    rwa [toNat_ofNat hvalid] at hchar

theorem encodes_pair_iff {m n : Nat} {ns : List Nat} (hpair : (isHighHalf m && isLowHalf n) = true) :
    Encodes (m :: n :: ns) cs ↔
      ∃ ds, Encodes ns ds ∧ Char.ofNat (0x10000 + (m - 0xD800) * 0x400 + (n - 0xDC00)) :: ds = cs := by
  obtain ⟨hhigh, hlow⟩ := pair_iff.mp hpair
  constructor
  · intro h
    cases h with
    | char => exact absurd ⟨hhigh.1, by omega⟩ (not_half _)
    | pair _ _ hc hs => exact ⟨_, hs, by rw [← hc, Char.ofNat_toNat]⟩
  · rintro ⟨ds, hds, rfl⟩
    exact .pair hhigh hlow (toNat_ofNat (.inr ⟨by omega, by omega⟩)) hds

theorem not_encodes_half {n : Nat} {ns : List Nat} (hhalf : (isHighHalf n || isLowHalf n) = true)
    (hpair : ∀ m ms, ns = m :: ms → ¬ (isHighHalf n && isLowHalf m) = true) : ¬ Encodes (n :: ns) cs := by
  intro h
  cases h with
  | char => exact not_half _ (half_iff.mp hhalf)
  | pair hhigh hlow => exact hpair _ _ rfl (pair_iff.mpr ⟨hhigh, hlow⟩)

theorem characters?_eq_some {ns : List Nat} (h : ∀ n ∈ ns, n < 0x110000) :
    characters? ns = some cs ↔ Encodes ns cs := by
  induction ns using characters?.induct generalizing cs with
  | case1 => rw [characters?, Option.some.injEq, encodes_nil_iff, eq_comm]
  | case2 n hhalf =>
    rw [characters?, if_pos hhalf]
    exact iff_of_false (fun h => by cases h) (not_encodes_half hhalf fun _ _ h => by cases h)
  | case3 n hwhole =>
    simp only [characters?, if_neg hwhole, encodes_whole_iff (h n List.mem_cons_self) hwhole, encodes_nil_iff,
      exists_eq_left, Option.some.injEq]
  | case4 m n ns hpair ih =>
    have hrest : ∀ k ∈ ns, k < 0x110000 := fun k hk => h k (List.mem_cons_of_mem m (List.mem_cons_of_mem n hk))
    rw [characters?, if_pos hpair, Option.map_eq_some_iff, encodes_pair_iff hpair]
    exact exists_congr fun ds => and_congr_left' (ih hrest)
  | case5 m n ns hpair hhalf =>
    rw [characters?, if_neg hpair, if_pos hhalf]
    refine iff_of_false (fun h => by cases h) (not_encodes_half hhalf fun k ks hk => ?_)
    cases hk
    exact hpair
  | case6 m n ns hpair hwhole ih =>
    have hrest : ∀ k ∈ n :: ns, k < 0x110000 := fun k hk => h k (List.mem_cons_of_mem m hk)
    rw [characters?, if_neg hpair, if_neg hwhole, Option.map_eq_some_iff,
      encodes_whole_iff (h m List.mem_cons_self) hwhole]
    exact exists_congr fun ds => and_congr_left' (ih hrest)

theorem readText_eq_some {s : Option String} :
    readText cs = some (s, rest) ↔ ∃ w, Quotes s w ∧ '"' :: cs = w ++ rest := by
  simp only [readText, Option.bind_eq_bind, Option.bind_eq_some_iff, Option.pure_def, Option.some.injEq,
    Prod.mk.injEq]
  constructor
  · rintro ⟨⟨ns, tail⟩, hread, rfl, rfl⟩
    obtain ⟨ds, hds, rfl⟩ := readCodes_eq_some.mp hread
    have hchars {es : List Char} : characters? ns = some es ↔ Encodes ns es := characters?_eq_some hds.lt
    refine ⟨'"' :: ds ++ ['"'], ?_, by rw [List.append_assoc, List.singleton_append]; rfl⟩
    dsimp only
    cases hfound : characters? ns with
    | none => exact .other hds fun es hes => by rw [hchars.mpr hes] at hfound; cases hfound
    | some es => exact .text hds (by rw [String.toList_ofList]; exact hchars.mp hfound)
  · rintro ⟨w, hw, heq⟩
    cases hw with
    | text hds hs =>
      rw [List.append_assoc, List.singleton_append, List.cons_append, List.cons.injEq] at heq
      refine ⟨_, readCodes_eq_some.mpr ⟨_, hds, heq.2⟩, ?_, rfl⟩
      rw [(characters?_eq_some hds.lt).mpr hs, Option.map_some, String.ofList_toList]
    | @other ns ds hds hs =>
      rw [List.append_assoc, List.singleton_append, List.cons_append, List.cons.injEq] at heq
      refine ⟨_, readCodes_eq_some.mpr ⟨_, hds, heq.2⟩, ?_, rfl⟩
      cases hfound : characters? ns with
      | none => rfl
      | some es => exact absurd ((characters?_eq_some hds.lt).mp hfound) (hs es)

theorem Quotes.begins {s : Option String} (h : Quotes s cs) : ∃ ds, cs = '"' :: ds := by
  cases h <;> exact ⟨_, rfl⟩

theorem readKey_eq_some {key : Option String} :
    readKey cs = some (key, rest) ↔ ∃ ks, Key key ks ∧ cs = ks ++ rest := by
  constructor
  · intro h
    unfold readKey at h
    split at h
    · next tail hskip =>
      obtain ⟨⟨found, after⟩, hread, h⟩ := Option.bind_eq_some_iff.mp h
      dsimp only at h
      split at h
      · next final hcolon =>
        cases h
        obtain ⟨w, hw, htail⟩ := readText_eq_some.mp hread
        obtain ⟨b, hb, hcs⟩ := exists_blanks cs
        obtain ⟨b', hb', hafter⟩ := exists_blanks after
        refine ⟨_, ⟨b, w, b', hb, hw, hb', rfl⟩, ?_⟩
        rw [hcs, hskip, htail, hafter, hcolon]
        simp only [List.append_assoc, List.singleton_append]
      · cases h
    · cases h
  · rintro ⟨_, ⟨b, w, b', hb, hw, hb', rfl⟩, rfl⟩
    obtain ⟨ds, rfl⟩ := hw.begins
    have hquote : skipBlank (b ++ '"' :: ds ++ b' ++ [':'] ++ rest) = '"' :: (ds ++ (b' ++ ':' :: rest)) := by
      simp only [List.append_assoc, List.cons_append, List.nil_append]
      rw [skipBlank_append hb, skipBlank_of_not (by decide)]
    have hcolon : skipBlank (b' ++ ':' :: rest) = ':' :: rest := by
      rw [skipBlank_append hb', skipBlank_of_not (by decide)]
    have htext : readText (ds ++ (b' ++ ':' :: rest)) = some (key, b' ++ ':' :: rest) :=
      readText_eq_some.mpr ⟨_, hw, rfl⟩
    simp only [readKey, hquote, htext, Option.bind_some, hcolon]

end Leaves

end CallChart.Json
