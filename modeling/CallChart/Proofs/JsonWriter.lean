import CallChart.Proofs.JsonReader

/-! Every value is spelled by the text that is written of it, so the reader gives it back. -/
namespace CallChart.Json

/-! ### Strings -/

theorem toList_hex {n : Nat} (h : n < 32) :
    (Text.hex 4 n).toList = ['0', '0', (n / 16).digitChar, (n % 16).digitChar] := by
  have hall : ∀ k : Fin 32, (Text.hex 4 k.val).toList = ['0', '0', (k.val / 16).digitChar, (k.val % 16).digitChar] := by
    decide
  exact hall ⟨n, h⟩

theorem code_escape (c : Char) : Code c.toNat (escape c) := by
  unfold escape
  by_cases hquote : c = '"'
  · rw [if_pos hquote, hquote]
    exact .short (by decide)
  rw [if_neg hquote]
  by_cases hbackslash : c = '\\'
  · rw [if_pos hbackslash, hbackslash]
    exact .short (by decide)
  rw [if_neg hbackslash]
  iterate 5
    split
    · next hc =>
      rw [hc]
      exact .short (by decide)
  split
  · next hcontrol =>
    have hle : ' ' ≤ c ↔ 32 ≤ c.toNat := le_iff_toNat
    have hsmall : c.toNat < 32 := Nat.not_le.mp fun h => Char.not_lt.mpr (hle.mpr h) hcontrol
    have hcode := Code.numbered (.lower (n := 0) (by decide)) (.lower (n := 0) (by decide))
      (.lower (n := c.toNat / 16) (by omega)) (.lower (n := c.toNat % 16) (by omega))
    have hvalue : ((0 * 16 + 0) * 16 + c.toNat / 16) * 16 + c.toNat % 16 = c.toNat := by omega
    rw [hvalue] at hcode
    rw [toList_hex hsmall]
    exact hcode
  · next hprintable => exact .plain (Char.not_lt.mp hprintable) hquote hbackslash

theorem codes_escape (cs : List Char) : Codes (cs.map Char.toNat) (cs.flatMap escape) := by
  induction cs with
  | nil => exact .nil
  | cons c cs ih => exact .cons (code_escape c) ih

theorem encodes_toNat (cs : List Char) : Encodes (cs.map Char.toNat) cs := by
  induction cs with
  | nil => exact .nil
  | cons c cs ih => exact .char ih

theorem quotes_quote (s : Option String) : Quotes s (quote s) := by
  cases s with
  | some s => exact .text (codes_escape s.toList) (encodes_toNat s.toList)
  | none =>
    have hcode : Code 0xD800 ['\\', 'u', 'd', '8', '0', '0'] :=
      .numbered (.lower (n := 13) (by decide)) (.lower (n := 8) (by decide)) (.lower (n := 0) (by decide))
        (.lower (n := 0) (by decide))
    exact .other (.cons hcode .nil) fun ds => not_encodes_half (by decide) fun _ _ h => by cases h

/-! ### Numbers -/

theorem numeral_toString (n : Int) : Numeral (.integer n) (toString n).toList := by
  cases n with
  | ofNat n =>
    have hdigits : (toString (Int.ofNat n)).toList = Nat.toDigits 10 n := Nat.toList_repr
    rw [hdigits]
    exact .natural n
  | negSucc n =>
    have hdigits : (toString (Int.negSucc n)).toList = '-' :: Nat.toDigits 10 (n + 1) := by
      have hminus : toString (Int.negSucc n) = "-" ++ (n + 1).repr := rfl
      rw [hminus, String.toList_append, Nat.toList_repr]
      rfl
    rw [hdigits]
    exact .negative (Nat.succ_pos n)

theorem numeral_half : Numeral .real "0.5".toList := by
  have hdigits : Digits ['5'] := ⟨List.cons_ne_nil '5' [], List.forall_mem_singleton.mpr rfl⟩
  exact .real false 0 (.digits hdigits) .none (.inl (by decide))

/-! ### Arrays and objects -/

theorem key_quote (key : Option String) : Key key (quote key ++ [':']) :=
  ⟨[], quote key, [], blanks_nil, quotes_quote key, blanks_nil, by rw [List.nil_append, List.append_nil]⟩

theorem Spells.bare {j : Json} {cs : List Char} (h : Spells (.value j) cs) : Spells (.element j) cs := by
  have helement := Spells.element blanks_nil h blanks_nil
  rwa [List.append_nil] at helement

mutual

theorem spells_write : (j : Json) → Spells (.value j) j.write
  | .null => .null
  | .bool true => .yes
  | .bool false => .no
  | .integer n => .numeral (numeral_toString n)
  | .real => .numeral numeral_half
  | .text s => .text (quotes_quote s)
  | .array [] => .emptyArray blanks_nil
  -- The items after the first one are written together with the bracket that closes the array.
  | .array (item :: items) => by
    obtain ⟨w, hw, heq⟩ := exists_items items item item.write (spells_write item).bare
    have harray := Spells.array hw
    rwa [List.cons_append, ← heq] at harray
  | .object [] => .emptyObject blanks_nil
  | .object ((key, value) :: members) => by
    obtain ⟨w, hw, heq⟩ := exists_members members key value value.write (spells_write value).bare
    have hobject := Spells.object hw
    rw [List.cons_append, ← heq] at hobject
    simp only [List.append_assoc, List.cons_append, List.nil_append] at hobject
    rw [write, List.append_assoc]
    exact hobject

/-- What is written after the first item closes the array. -/
theorem exists_items : (items : List Json) → (j : Json) → (cs : List Char) → Spells (.element j) cs →
    ∃ w, Spells (.items (j :: items)) w ∧ cs ++ writeItems items = w ++ [']']
  | [], _, cs, h => ⟨cs, .lastItem h, rfl⟩
  | item :: items, j, cs, h => by
    obtain ⟨w, hw, heq⟩ := exists_items items item item.write (spells_write item).bare
    refine ⟨cs ++ ',' :: w, .moreItems h hw, ?_⟩
    rw [writeItems, List.append_assoc, List.cons_append, List.cons_append, heq]

theorem exists_members : (members : List (Option String × Json)) → (key : Option String) → (j : Json) →
    (cs : List Char) → Spells (.element j) cs →
    ∃ w, Spells (.members ((key, j) :: members)) w ∧ quote key ++ [':'] ++ cs ++ writeMembers members = w ++ ['}']
  | [], key, _, cs, h => ⟨_, .lastMember (key_quote key) h, rfl⟩
  | (next, value) :: members, key, j, cs, h => by
    obtain ⟨w, hw, heq⟩ := exists_members members next value value.write (spells_write value).bare
    refine ⟨_, .moreMembers (key_quote key) h hw, ?_⟩
    simp only [List.append_assoc, List.cons_append, List.nil_append, writeMembers] at heq ⊢
    rw [heq]

end

/-- Everything that is written can be read. -/
theorem parse_compact (j : Json) : parse j.compact = some j := by
  rw [parse_eq_some, compact, String.toList_ofList]
  exact (spells_write j).bare

/-- Different values are written differently. -/
theorem compact_injective {i j : Json} (h : i.compact = j.compact) : i = j := by
  have hparse := parse_compact i
  rw [h, parse_compact] at hparse
  exact (Option.some.inj hparse).symm

end CallChart.Json
