import CallChart.Proofs.JsonGrammar

/-! The reader of numbers. It takes all digits that it can, so it depends on what comes after a number. -/
namespace CallChart.Json

section Numbers

variable {cs ds rest : List Char}

/-! ### Digits -/

theorem isDigit_eq (c : Char) : Number.isDigit c = c.isDigit := rfl

theorem isDigit_iff {c : Char} : c.isDigit = true ↔ 48 ≤ c.toNat ∧ c.toNat ≤ 57 := by
  rw [← isDigit_eq, Number.isDigit, Bool.and_eq_true, decide_eq_true_eq, decide_eq_true_eq, le_iff_toNat, le_iff_toNat]
  rfl

theorem span_digits (hds : ∀ c ∈ ds, c.isDigit = true) (hrest : ∀ c ∈ rest.head?, c.isDigit = false) :
    (ds ++ rest).takeWhile Number.isDigit = ds ∧ (ds ++ rest).dropWhile Number.isDigit = rest := by
  have hall : ∀ c ∈ ds, Number.isDigit c = true := hds
  rw [List.takeWhile_append_of_pos hall, List.dropWhile_append_of_pos hall]
  cases rest with
  | nil => exact ⟨List.append_nil ds, rfl⟩
  | cons c rest =>
    have hc : ¬ Number.isDigit c = true := Bool.eq_false_iff.mp (hrest c rfl)
    rw [List.takeWhile_cons_of_neg hc, List.dropWhile_cons_of_neg hc, List.append_nil]
    exact ⟨rfl, rfl⟩

theorem digits_takeWhile (h : ¬ (cs.takeWhile Number.isDigit).isEmpty = true) : Digits (cs.takeWhile Number.isDigit) :=
  ⟨fun hnil => h (List.isEmpty_iff.mpr hnil), List.all_eq_true.mp List.all_takeWhile⟩

/-! ### Fractions and exponents -/

theorem readFraction_append {f : List Char} (hf : Fraction f)
    (hrest : ∀ c ∈ rest.head?, c.isDigit = false ∧ c ≠ '.') : readFraction (f ++ rest) = some (!f.isEmpty, rest) := by
  cases hf with
  | none =>
    cases rest with
    | nil => rfl
    | cons c rest => exact readFraction.eq_2 _ fun _ hc => (hrest c rfl).2 (List.cons.inj hc).1
  | @digits ds h =>
    obtain ⟨htake, hdrop⟩ := span_digits h.2 fun c hc => (hrest c hc).1
    rw [List.cons_append, readFraction, htake, hdrop, if_neg fun hnil => h.1 (List.isEmpty_iff.mp hnil)]
    rfl

theorem exists_fraction {b : Bool} (h : readFraction cs = some (b, rest)) :
    ∃ f, Fraction f ∧ cs = f ++ rest ∧ b = !f.isEmpty := by
  unfold readFraction at h
  split at h
  · next tail =>
    split at h
    · cases h
    · next hdigits =>
      cases h
      refine ⟨_, .digits (digits_takeWhile hdigits), ?_, rfl⟩
      rw [List.cons_append, List.takeWhile_append_dropWhile]
  · cases h
    exact ⟨[], .none, rfl, rfl⟩

theorem sign_append {sign : List Char} (hsign : sign ∈ [[], ['+'], ['-']]) (hds : Digits ds) (rest : List Char) :
    (Number.sign (sign ++ (ds ++ rest))).2 = ds ++ rest := by
  simp only [List.mem_cons, List.not_mem_nil, or_false] at hsign
  rcases hsign with rfl | rfl | rfl
  · obtain ⟨d, tail, rfl⟩ := List.exists_cons_of_ne_nil hds.1
    have hd : d.isDigit = true := hds.2 d List.mem_cons_self
    rw [List.nil_append, List.cons_append, Number.sign.eq_3]
    · rintro _ ⟨⟩
      exact absurd hd (by decide)
    · rintro _ ⟨⟩
      exact absurd hd (by decide)
  · rfl
  · rfl

theorem exists_sign (cs : List Char) : ∃ sign, sign ∈ [[], ['+'], ['-']] ∧ cs = sign ++ (Number.sign cs).2 := by
  unfold Number.sign
  split
  · exact ⟨['-'], by decide, rfl⟩
  · exact ⟨['+'], by decide, rfl⟩
  · exact ⟨[], by decide, rfl⟩

theorem readExponent_append {e : List Char} (he : Exponent e)
    (hrest : ∀ c ∈ rest.head?, c.isDigit = false ∧ c ≠ 'e' ∧ c ≠ 'E') :
    readExponent (e ++ rest) = some (!e.isEmpty, rest) := by
  cases he with
  | none =>
    cases rest with
    | nil => rfl
    | cons c rest =>
      obtain ⟨-, hsmall, hlarge⟩ := hrest c rfl
      rw [List.nil_append, readExponent, decide_eq_false hsmall, decide_eq_false hlarge]
      rfl
  | @digits e sign ds he hsign h =>
    obtain ⟨htake, hdrop⟩ := span_digits h.2 fun c hc => (hrest c hc).1
    have hletter : (decide (e = 'e') || decide (e = 'E')) = true := by
      rw [Bool.or_eq_true, decide_eq_true_eq, decide_eq_true_eq]
      exact he
    have hdigits : ¬ ds.isEmpty = true := fun hnil => h.1 (List.isEmpty_iff.mp hnil)
    simp only [List.cons_append, List.append_assoc, readExponent, hletter, if_true, sign_append hsign h, htake,
      hdrop, if_neg hdigits]
    rfl

theorem exists_exponent {b : Bool} (h : readExponent cs = some (b, rest)) :
    ∃ e, Exponent e ∧ cs = e ++ rest ∧ b = !e.isEmpty := by
  unfold readExponent at h
  split at h
  · cases h
    exact ⟨[], .none, rfl, rfl⟩
  · next c tail =>
    split at h
    · next he =>
      rw [Bool.or_eq_true, decide_eq_true_eq, decide_eq_true_eq] at he
      obtain ⟨sign, hsign, htail⟩ := exists_sign tail
      dsimp only at h
      split at h
      · cases h
      · next hdigits =>
        cases h
        refine ⟨_, .digits he hsign (digits_takeWhile hdigits), ?_, rfl⟩
        rw [List.append_assoc, List.takeWhile_append_dropWhile, List.cons_append, ← htail]
    · cases h
      exact ⟨[], .none, rfl, rfl⟩

/-! ### Digits and their number -/

theorem digitChar_of_isDigit {c : Char} (h : c.isDigit = true) : (c.toNat - 48).digitChar = c := by
  have hrange := isDigit_iff.mp h
  refine Char.toNat_inj.mp ?_
  rw [Nat.toNat_digitChar_of_lt_ten (by omega)]
  omega

theorem ofDigits_eq (cs : List Char) : Number.ofDigits cs = Nat.ofDigitChars 10 cs 0 := by
  rw [Number.ofDigits, Nat.ofDigitChars_eq_foldl]
  refine congrArg (fun f => List.foldl f 0 cs) (funext fun n => funext fun c => ?_)
  rw [Nat.mul_comm]
  rfl

/-- Digits after a number that is not zero. -/
theorem toDigits_append {n : Nat} (hn : 0 < n) (hds : ∀ c ∈ ds, c.isDigit = true) :
    Nat.toDigits 10 n ++ ds = Nat.toDigits 10 (Nat.ofDigitChars 10 ds n) := by
  induction ds generalizing n with
  | nil => rw [Nat.ofDigitChars_nil, List.append_nil]
  | cons d ds ih =>
    obtain ⟨hd, hrest⟩ := List.forall_mem_cons.mp hds
    have hsmall : d.toNat - 48 < 10 := by
      have hrange := isDigit_iff.mp hd
      omega
    calc
      Nat.toDigits 10 n ++ d :: ds = Nat.toDigits 10 n ++ Nat.toDigits 10 (d.toNat - 48) ++ ds := by
        rw [Nat.toDigits_of_lt_base hsmall, digitChar_of_isDigit hd, List.append_assoc, List.singleton_append]
      _ = Nat.toDigits 10 (10 * n + (d.toNat - 48)) ++ ds := by
        rw [Nat.toDigits_append_toDigits (by decide) hn hsmall]
      _ = Nat.toDigits 10 (Nat.ofDigitChars 10 (d :: ds) n) := by
        rw [ih (by omega) hrest, Nat.ofDigitChars_cons]
        rfl

/-- Digits without superfluous zeros in front are those of their number. -/
theorem toDigits_ofDigits (h : Digits ds) (hzero : ds.head? = some '0' → ds.length = 1) :
    Nat.toDigits 10 (Number.ofDigits ds) = ds := by
  obtain ⟨d, tail, rfl⟩ := List.exists_cons_of_ne_nil h.1
  obtain ⟨hd, htail⟩ := List.forall_mem_cons.mp h.2
  have hrange := isDigit_iff.mp hd
  have hfirst : Nat.toDigits 10 (d.toNat - 48) = [d] := by
    rw [Nat.toDigits_of_lt_base (by omega), digitChar_of_isDigit hd]
  have hvalue : Number.ofDigits (d :: tail) = Nat.ofDigitChars 10 tail (d.toNat - 48) := by
    rw [ofDigits_eq, Nat.ofDigitChars_cons, Nat.mul_zero, Nat.zero_add]
    rfl
  rw [hvalue]
  by_cases hd0 : d = '0'
  · subst hd0
    have hnil : tail = [] := List.length_eq_zero_iff.mp (Nat.succ.inj (hzero rfl))
    rw [hnil]
    exact hfirst
  · have hpos : 0 < d.toNat - 48 := by
      have hne : d.toNat ≠ 48 := fun heq => hd0 (Char.toNat_inj.mp heq)
      omega
    rw [← toDigits_append hpos htail, hfirst, List.singleton_append]

theorem head_toDigits {n : Nat} (h : (Nat.toDigits 10 n).head? = some '0') : n = 0 := by
  induction n using Nat.strongRecOn with
  | ind n ih =>
    rw [Nat.toDigits_eq_if (by decide)] at h
    split at h
    · exact Nat.digitChar_eq_zero.mp (Option.some.inj h)
    · obtain ⟨d, tail, hdigits⟩ := List.exists_cons_of_ne_nil (Nat.toDigits_ne_nil (n := n / 10) (b := 10))
      rw [hdigits] at h
      have hzero := ih (n / 10) (by omega) (by rw [hdigits]; exact h)
      omega

/-! ### Numbers -/

theorem digits_toDigits (n : Nat) : Digits (Nat.toDigits 10 n) :=
  ⟨Nat.toDigits_ne_nil, fun _ => Nat.isDigit_of_mem_toDigits (by decide) (by decide)⟩

theorem exists_first_digit (n : Nat) : ∃ c ds, Nat.toDigits 10 n = c :: ds ∧ c.isDigit = true := by
  obtain ⟨c, ds, hdigits⟩ := List.exists_cons_of_ne_nil (digits_toDigits n).1
  exact ⟨c, ds, hdigits, (digits_toDigits n).2 c (by rw [hdigits]; exact List.mem_cons_self)⟩

/-- The number that is made of a sign, digits, a fraction and an exponent. -/
def assembled (negative : Bool) (n : Nat) (fraction exponent : List Char) : Json :=
  if !fraction.isEmpty || !exponent.isEmpty || (negative && n == 0) then real
  else integer (if negative then -n else n)

/-- What may come after a value. -/
def Ends (rest : List Char) : Prop := ∀ c ∈ rest.head?, c ∈ [' ', '\n', '\t', '\r', ',', ']', '}']

theorem forall_head_append {P : Char → Prop} (hcs : ∀ c ∈ cs.head?, P c) (hrest : ∀ c ∈ rest.head?, P c) :
    ∀ c ∈ (cs ++ rest).head?, P c := by
  cases cs with
  | nil => exact hrest
  | cons => exact hcs

theorem Fraction.head {f : List Char} (hf : Fraction f) : ∀ c ∈ f.head?, c.isDigit = false := by
  cases hf with
  | none => exact fun _ hc => by cases hc
  | digits => exact fun _ hc => by cases hc; rfl

theorem Exponent.head {e : List Char} (he : Exponent e) : ∀ c ∈ e.head?, c.isDigit = false ∧ c ≠ '.' := by
  cases he with
  | none => exact fun _ hc => by cases hc
  | digits hletter =>
    intro c hc
    cases hc
    rcases hletter with rfl | rfl <;> decide

theorem Ends.head {c : Char} (h : Ends rest) (hc : c ∈ rest.head?) :
    c.isDigit = false ∧ c ≠ '.' ∧ c ≠ 'e' ∧ c ≠ 'E' := by
  have hend := h c hc
  simp only [List.mem_cons, List.not_mem_nil, or_false] at hend
  rcases hend with rfl | rfl | rfl | rfl | rfl | rfl | rfl <;> decide

theorem readDigits_append {f e : List Char} (hf : Fraction f) (he : Exponent e) (hrest : Ends rest) (negative : Bool)
    (n : Nat) : readDigits negative (Nat.toDigits 10 n ++ (f ++ (e ++ rest))) =
      some (assembled negative n f e, rest) := by
  have hexponent : ∀ c ∈ (e ++ rest).head?, c.isDigit = false ∧ c ≠ '.' :=
    forall_head_append he.head fun c hc => ⟨(hrest.head hc).1, (hrest.head hc).2.1⟩
  have hfraction : ∀ c ∈ (f ++ (e ++ rest)).head?, c.isDigit = false :=
    forall_head_append hf.head fun c hc => (hexponent c hc).1
  obtain ⟨htake, hdrop⟩ := span_digits (digits_toDigits n).2 hfraction
  have hwhole : ¬ ((Nat.toDigits 10 n).isEmpty ||
      ((Nat.toDigits 10 n).head? == some '0' && decide (1 < (Nat.toDigits 10 n).length))) = true := by
    simp only [Bool.or_eq_true, Bool.and_eq_true, List.isEmpty_iff, beq_iff_eq, decide_eq_true_eq]
    rintro (hnil | ⟨hzero, hlong⟩)
    · exact Nat.toDigits_ne_nil hnil
    · rw [head_toDigits hzero] at hlong
      exact absurd hlong (by decide)
  have hvalue : Number.ofDigits (Nat.toDigits 10 n) = n := by rw [ofDigits_eq, Nat.ofDigitChars_ten_toDigits]
  simp only [readDigits, htake, hdrop, if_neg hwhole, readFraction_append hf hexponent,
    readExponent_append he fun c hc => ⟨(hrest.head hc).1, (hrest.head hc).2.2⟩, Option.bind_eq_bind,
    Option.bind_some, hvalue, assembled]
  split <;> rfl

theorem exists_digits {negative : Bool} {j : Json} (h : readDigits negative cs = some (j, rest)) :
    ∃ n f e, Fraction f ∧ Exponent e ∧ cs = Nat.toDigits 10 n ++ (f ++ (e ++ rest)) ∧ j = assembled negative n f e := by
  unfold readDigits at h
  dsimp only at h
  split at h
  · cases h
  · next hwhole =>
    simp only [Option.bind_eq_bind, Option.bind_eq_some_iff] at h
    obtain ⟨⟨hasFraction, tail⟩, hfraction, ⟨hasExponent, last⟩, hexponent, hresult⟩ := h
    obtain ⟨f, hf, hdrop, rfl⟩ := exists_fraction hfraction
    obtain ⟨e, he, rfl, rfl⟩ := exists_exponent hexponent
    simp only [Bool.or_eq_true, Bool.and_eq_true, beq_iff_eq, decide_eq_true_eq, not_or, not_and, Nat.not_lt] at hwhole
    have hdigits : Digits (cs.takeWhile Number.isDigit) := digits_takeWhile hwhole.1
    have hsame := toDigits_ofDigits hdigits fun hzero =>
      Nat.le_antisymm (hwhole.2 hzero) (List.length_pos_iff.mpr hdigits.1)
    have hend : last = rest ∧ j = assembled negative (Number.ofDigits (cs.takeWhile Number.isDigit)) f e := by
      unfold assembled
      split at hresult
      · next hreal =>
        cases hresult
        exact ⟨rfl, (if_pos hreal).symm⟩
      · next hinteger =>
        cases hresult
        exact ⟨rfl, (if_neg hinteger).symm⟩
    refine ⟨_, f, e, hf, he, ?_, hend.2⟩
    rw [hsame, ← hend.1, ← hdrop, List.takeWhile_append_dropWhile]

theorem assembled_of_part {f e : List Char} (h : f ≠ [] ∨ e ≠ []) (negative : Bool) (n : Nat) :
    assembled negative n f e = real := by
  refine if_pos ?_
  simp only [Bool.or_eq_true, Bool.not_eq_true', List.isEmpty_eq_false_iff]
  exact .inl h

theorem assembled_negative {n : Nat} (h : 0 < n) : assembled true n [] [] = integer (-n) := by
  refine if_neg fun hreal => ?_
  simp only [List.isEmpty_nil, Bool.not_true, Bool.false_or, Bool.true_and, beq_iff_eq] at hreal
  exact absurd hreal (Nat.ne_of_gt h)

theorem numeral_iff {j : Json} : Numeral j cs ↔ ∃ negative n f e, Fraction f ∧ Exponent e ∧
    cs = (if negative then ['-'] else []) ++ (Nat.toDigits 10 n ++ (f ++ e)) ∧ j = assembled negative n f e := by
  constructor
  · intro h
    cases h with
    | natural n =>
      exact ⟨false, n, [], [], .none, .none, (List.append_nil _).symm, rfl⟩
    | @negative n hn =>
      refine ⟨true, n, [], [], .none, .none, ?_, (assembled_negative hn).symm⟩
      rw [List.append_nil, List.append_nil]
      rfl
    | minusZero => exact ⟨true, 0, [], [], .none, .none, rfl, rfl⟩
    | real negative n hf he h => exact ⟨negative, n, _, _, hf, he, rfl, (assembled_of_part h negative n).symm⟩
  · rintro ⟨negative, n, f, e, hf, he, rfl, rfl⟩
    by_cases hpart : f ≠ [] ∨ e ≠ []
    · rw [assembled_of_part hpart]
      exact .real negative n hf he hpart
    · obtain ⟨rfl, rfl⟩ : f = [] ∧ e = [] := by simpa only [not_or, Classical.not_not] using hpart
      rw [List.append_nil, List.append_nil]
      cases negative with
      | false => exact .natural n
      | true =>
        rcases Nat.eq_zero_or_pos n with rfl | hn
        · exact .minusZero
        · rw [assembled_negative hn]
          exact .negative hn

end Numbers

end CallChart.Json
