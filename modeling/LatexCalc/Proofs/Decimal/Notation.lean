import LatexCalc.Proofs.Decimal.Digits
import LatexCalc.Proofs.Decimal.Rounding

/-!
# The number that a text is

A number in canonical notation has the digits of its whole part, all of them, then perhaps a point and
digits that do not end in zero, then perhaps an exponent (`IsCanonical`). Such a text is read as that
number (`textValue?_of_isCanonical`). Decimals are written like that, with an exponent
(`Decimal.positional_scientific`) or without one (`Decimal.positional_text`).
-/

namespace LatexCalc

/-! ## Notation -/

/-- The number that a text is, if it is a finite one. -/
def textValue? (s : String) : Option ℚ :=
  match Numeral.ofText? s with
  | some (.decimal negative d) => some (if negative then -d.value else d.value)
  | _ => none

/-- Digits behind a point, or nothing. -/
def afterPoint : List Char → List Char
  | [] => []
  | c :: cs => '.' :: c :: cs

/-- An exponent, unless it is zero. -/
def exponentPart (e : ℤ) : List Char :=
  if e = 0 then [] else 'e' :: (toString e).toList

/-- A number in positional notation: no digit of its whole part is missing, and its fraction does not
end in zero. -/
def Positional (x : ℚ) (cs : List Char) : Prop :=
  ∃ fraction : List Char, (∀ c ∈ fraction, c.isDigit = true) ∧ fraction.getLast? ≠ some '0' ∧
    cs = Nat.toDigits 10 ⌊x⌋₊ ++ afterPoint fraction ∧
    (digitsValue (Nat.toDigits 10 ⌊x⌋₊ ++ fraction) : ℚ) = x * 10 ^ fraction.length

/-- A number in canonical notation. Only a number below zero has a sign, and where there is an exponent
one digit stands before the point, which is not zero. -/
def IsCanonical (t : ℚ) (s : String) : Prop :=
  ∃ (e : ℤ) (cs : List Char), (e = 0 ∨ 10 ^ e ≤ |t| ∧ |t| < 10 ^ (e + 1)) ∧
    Positional (|t| / 10 ^ e) cs ∧
    s.toList = (if t < 0 then ['-'] else []) ++ cs ++ exponentPart e

/-! ## Digits -/

theorem digitsValue_append (cs ds : List Char) :
    digitsValue (cs ++ ds) = 10 ^ ds.length * digitsValue cs + digitsValue ds :=
  (Nat.ofDigitChars_append 0).trans Nat.ofDigitChars_eq_ofDigitChars_zero

theorem digitsValue_replicate (k : Nat) : digitsValue (List.replicate k '0') = 0 :=
  Nat.ofDigitChars_replicate_zero

theorem digitsValue_toDigits (n : Nat) : digitsValue (Nat.toDigits 10 n) = n :=
  Nat.ofDigitChars_toDigits (by decide) (by decide)

/-- The last digits of a number can be cut off. -/
theorem toDigits_eq_append (p : Nat) {n : Nat} (h : 10 ^ p ≤ n) :
    ∃ rest : List Char, rest.length = p ∧ Nat.toDigits 10 n = Nat.toDigits 10 (n / 10 ^ p) ++ rest := by
  induction p with
  | zero => exact ⟨[], rfl, by simp⟩
  | succ p ih =>
    have hpow : 10 ^ p < 10 ^ (p + 1) := Nat.pow_lt_pow_succ (by decide)
    obtain ⟨rest, hlength, hdigits⟩ := ih (hpow.le.trans h)
    have hbase : 10 ≤ n / 10 ^ p := by
      rw [Nat.le_div_iff_mul_le (by positivity), mul_comm, ← pow_succ]
      exact h
    refine ⟨(n / 10 ^ p % 10).digitChar :: rest, by rw [List.length_cons, hlength], ?_⟩
    rw [hdigits, Nat.toDigits_of_base_le (by decide) hbase, Nat.div_div_eq_div_mul, ← pow_succ,
      List.append_assoc, List.singleton_append]

theorem getLast?_dropTrailingZeros (ds : List Char) :
    (dropTrailingZeros ds).getLast? ≠ some '0' := by
  rw [dropTrailingZeros, List.getLast?_reverse]
  intro h
  have hhead := List.head?_dropWhile_not (· = '0') ds.reverse
  rw [h] at hhead
  simp at hhead

theorem eq_dropTrailingZeros_append (ds : List Char) :
    ∃ k, ds = dropTrailingZeros ds ++ List.replicate k '0' := by
  refine ⟨(ds.reverse.takeWhile (· = '0')).length, ?_⟩
  have hzeros : ds.reverse.takeWhile (· = '0') =
      List.replicate (ds.reverse.takeWhile (· = '0')).length '0' := by
    refine List.eq_replicate_of_mem fun c hc => ?_
    have := List.mem_takeWhile_imp hc
    simpa using this
  rw [dropTrailingZeros, ← List.reverse_replicate, ← hzeros, ← List.reverse_append,
    List.takeWhile_append_dropWhile, List.reverse_reverse]

theorem pointed_eq (whole fraction : List Char) :
    pointed whole fraction = whole ++ afterPoint (dropTrailingZeros fraction) := by
  unfold pointed
  generalize dropTrailingZeros fraction = f
  cases f with
  | nil => exact (List.append_nil whole).symm
  | cons c cs => rfl

/-- Digits with a point among them are a positional notation. -/
theorem positional_pointed {n p : Nat} {fraction : List Char}
    (hfraction : ∀ c ∈ fraction, c.isDigit = true) (hlength : fraction.length = p)
    (hvalue : digitsValue (Nat.toDigits 10 (n / 10 ^ p) ++ fraction) = n) :
    Positional (n / 10 ^ p) (pointed (Nat.toDigits 10 (n / 10 ^ p)) fraction) := by
  have hfloor : ⌊(n : ℚ) / 10 ^ p⌋₊ = n / 10 ^ p := by
    have hcast : (10 : ℚ) ^ p = (10 ^ p : ℕ) := by push_cast; rfl
    rw [hcast, Nat.floor_div_natCast, Nat.floor_natCast]
  obtain ⟨k, hk⟩ := eq_dropTrailingZeros_append fraction
  refine ⟨dropTrailingZeros fraction, fun c hc => hfraction c (mem_of_mem_dropTrailingZeros hc),
    getLast?_dropTrailingZeros fraction, by rw [hfloor, pointed_eq], ?_⟩
  rw [hfloor]
  generalize dropTrailingZeros fraction = f at hk
  subst hk
  rw [List.length_append, List.length_replicate] at hlength
  rw [← List.append_assoc, digitsValue_append, digitsValue_replicate, List.length_replicate,
    add_zero] at hvalue
  generalize digitsValue (Nat.toDigits 10 (n / 10 ^ p) ++ f) = v at hvalue ⊢
  rw [← hvalue, ← hlength, pow_add]
  push_cast
  field_simp

/-- Zeros in front of a number fill up its digits. -/
theorem leftpad_eq_append {p : Nat} (hp : 0 < p) (n : Nat) :
    ∃ rest : List Char, rest.length = p ∧
      (Nat.toDigits 10 n).leftpad (p + 1) '0' = Nat.toDigits 10 (n / 10 ^ p) ++ rest := by
  have hlength := Nat.length_toDigits_le_iff (n := n) (by decide : 1 < 10) hp
  rcases le_or_gt (10 ^ p) n with hle | hlt
  · obtain ⟨rest, hrest, hdigits⟩ := toDigits_eq_append p hle
    refine ⟨rest, hrest, ?_⟩
    have hlong : p + 1 - (Nat.toDigits 10 n).length = 0 := by omega
    rw [List.leftpad, hlong, hdigits]
    rfl
  · refine ⟨List.replicate (p - (Nat.toDigits 10 n).length) '0' ++ Nat.toDigits 10 n, ?_, ?_⟩
    · rw [List.length_append, List.length_replicate]
      omega
    · have hsucc : p + 1 - (Nat.toDigits 10 n).length = p - (Nat.toDigits 10 n).length + 1 := by omega
      rw [List.leftpad, hsucc, Nat.div_eq_of_lt hlt, List.replicate_succ, Nat.toDigits_zero]
      rfl

theorem digitsValue_leftpad (k n : Nat) :
    digitsValue ((Nat.toDigits 10 n).leftpad k '0') = n := by
  rw [List.leftpad, digitsValue_append, digitsValue_replicate, mul_zero, zero_add,
    digitsValue_toDigits]

namespace Decimal

variable {d : Decimal}

/-- **A decimal without an exponent** is written in positional notation. -/
theorem positional_text (h : d.exponent < 0) : Positional d.value d.text.toList := by
  obtain ⟨p, hp, hexponent⟩ : ∃ p : Nat, 0 < p ∧ d.exponent = -p :=
    ⟨(-d.exponent).toNat, by omega, by omega⟩
  obtain ⟨rest, hrest, hall⟩ := leftpad_eq_append hp d.coefficient
  have hparts : d.parts = (Nat.toDigits 10 (d.coefficient / 10 ^ p), rest) := by
    have hplaces : (-d.exponent).toNat = p := by omega
    unfold parts
    simp only [if_neg (not_le.2 h), hplaces, digits, hall, List.length_append, hrest,
      Nat.add_sub_cancel, List.take_left, List.drop_left]
  have hvalue : d.value = d.coefficient / 10 ^ p := by
    rw [value, hexponent, zpow_neg, zpow_natCast, div_eq_mul_inv]
  have hdigits := d.isDigits_parts.2
  rw [text, String.toList_ofList, hvalue]
  rw [hparts] at hdigits ⊢
  exact positional_pointed hdigits hrest (by rw [← hall, digitsValue_leftpad])

/-- **A decimal with an exponent** is written in positional notation up to the exponent. -/
theorem positional_scientific (hd : d.coefficient ≠ 0) :
    ∃ cs, d.scientific.toList = cs ++ 'e' :: (toString d.leading).toList ∧
      Positional (d.value / 10 ^ d.leading) cs := by
  refine ⟨pointed (d.digits.take 1) (d.digits.drop 1), ?_, ?_⟩
  · rw [scientific, String.toList_append, String.toList_append, String.toList_ofList,
      List.append_assoc]
    rfl
  obtain ⟨p, hp⟩ : ∃ p, d.digits.length = p + 1 :=
    Nat.exists_eq_add_one.2 d.length_digits_pos
  have hle := ten_pow_length_le hd
  rw [hp, Nat.add_sub_cancel] at hle
  obtain ⟨rest, hrest, hdigits⟩ := toDigits_eq_append p hle
  have hwhole : (Nat.toDigits 10 (d.coefficient / 10 ^ p)).length = 1 := by
    have hlength := congrArg List.length hdigits
    rw [List.length_append, hrest] at hlength
    rw [digits] at hp
    omega
  have hvalue : d.value / 10 ^ d.leading = d.coefficient / 10 ^ p := by
    have hleading : d.leading = d.exponent + p := by
      rw [leading]
      omega
    rw [value, hleading, zpow_add₀ (by norm_num), zpow_natCast]
    field_simp
  have hrestDigits : ∀ c ∈ rest, c.isDigit = true := fun c hc =>
    d.isDigits_digits.2 c (by rw [digits, hdigits]; exact List.mem_append_right _ hc)
  rw [hvalue, digits, hdigits, ← hwhole, List.take_left, List.drop_left]
  exact positional_pointed hrestDigits hrest (by rw [← hdigits, digitsValue_toDigits])

end Decimal

/-! ## Reading -/

theorem isDigits_toDigits (n : Nat) : IsDigits (Nat.toDigits 10 n) :=
  Decimal.isDigits_digits ⟨n, 0⟩

theorem wholeNumber?_toDigits (n : Nat) : wholeNumber? (Nat.toDigits 10 n) = some n := by
  rw [wholeNumber?, if_pos ⟨(isDigits_toDigits n).1, List.all_eq_true.2 (isDigits_toDigits n).2⟩,
    digitsValue_toDigits]

theorem exponent?_cons (cs : List Char) {n : Nat} (h : wholeNumber? (splitSign cs).2 = some n) :
    exponent? ('e' :: cs) = some (if (splitSign cs).1 then -(n : ℤ) else n) := by
  simp [exponent?, h]

theorem exponent?_toString (e : ℤ) : exponent? ('e' :: (toString e).toList) = some e := by
  cases e with
  | ofNat n =>
    have htext : (toString (Int.ofNat n)).toList = Nat.toDigits 10 n := Nat.toList_repr
    obtain ⟨hne, hdigits⟩ := isDigits_toDigits n
    obtain ⟨c, cs, hcs⟩ := List.exists_cons_of_ne_nil hne
    have hsign : splitSign (Nat.toDigits 10 n) = (false, Nat.toDigits 10 n) := by
      rw [hcs] at hdigits ⊢
      exact splitSign_of_isDigit (hdigits c List.mem_cons_self)
    rw [htext, exponent?_cons _ (by rw [hsign, wholeNumber?_toDigits]), hsign]
    rfl
  | negSucc n =>
    have htext : (toString (Int.negSucc n)).toList = '-' :: Nat.toDigits 10 (n + 1) := by
      show ("-" ++ (n + 1).repr).toList = _
      rw [String.toList_append, Nat.toList_repr]
      rfl
    have hsign : splitSign ('-' :: Nat.toDigits 10 (n + 1)) = (true, Nat.toDigits 10 (n + 1)) := rfl
    rw [htext, exponent?_cons _ (by rw [hsign, wholeNumber?_toDigits]), hsign]
    rfl

theorem exponent?_exponentPart (e : ℤ) : exponent? (exponentPart e) = some e := by
  unfold exponentPart
  split
  · next h => rw [h]; rfl
  · exact exponent?_toString e

theorem head?_exponentPart (e : ℤ) : ∀ c ∈ (exponentPart e).head?, c = 'e' := by
  unfold exponentPart
  split <;> simp

/-- What is written in positional notation, with an exponent or without one, is read as that number. -/
theorem ofChars?_positional {x : ℚ} {cs : List Char} (h : Positional x cs) (e : ℤ) :
    ∃ d, Decimal.ofChars? (cs ++ exponentPart e) = some d ∧ d.value = x * 10 ^ e := by
  obtain ⟨fraction, hfraction, -, rfl, hvalue⟩ := h
  obtain ⟨hne, hwhole⟩ := isDigits_toDigits ⌊x⌋₊
  have hhead := head?_exponentPart e
  have hexponent := exponent?_exponentPart e
  generalize exponentPart e = rest at hhead hexponent
  generalize Nat.toDigits 10 ⌊x⌋₊ = whole at hne hwhole hvalue
  refine ⟨⟨digitsValue (whole ++ fraction), e - fraction.length⟩, ?_, ?_⟩
  · have hend : ∀ c ∈ rest.head?, c.isDigit = false := fun c hc => by rw [hhead c hc]; rfl
    unfold Decimal.ofChars?
    rw [List.append_assoc]
    cases fraction with
    | nil =>
      obtain ⟨htake, hdrop⟩ := take_drop_while_append hwhole hend
      have hpoint : ∀ cs, rest ≠ '.' :: cs := fun cs heq => by
        have := hhead '.' (by rw [heq]; rfl)
        cases this
      simp only [afterPoint, List.nil_append, htake, hdrop]
      simp [hne, hexponent]
    | cons c cs =>
      have hpoint : ∀ d ∈ ('.' :: (c :: cs ++ rest)).head?, d.isDigit = false := by simp
      obtain ⟨htake, hdrop⟩ := take_drop_while_append hwhole hpoint
      obtain ⟨htake', hdrop'⟩ := take_drop_while_append hfraction hend
      have hsplit : afterPoint (c :: cs) ++ rest = '.' :: (c :: cs ++ rest) := rfl
      rw [hsplit]
      simp only [htake, hdrop, htake', hdrop', hexponent]
      simp
  · rw [Decimal.value, hvalue, zpow_sub₀ (by norm_num), zpow_natCast]
    field_simp

theorem Positional.head_isDigit {x : ℚ} {cs : List Char} (h : Positional x cs) :
    ∃ c rest, cs = c :: rest ∧ c.isDigit = true := by
  obtain ⟨fraction, -, -, rfl, -⟩ := h
  obtain ⟨hne, hdigits⟩ := isDigits_toDigits ⌊x⌋₊
  obtain ⟨c, rest, hwhole⟩ := List.exists_cons_of_ne_nil hne
  exact ⟨c, _, by rw [hwhole]; rfl, hdigits c (by rw [hwhole]; exact List.mem_cons_self)⟩

/-- A number in positional notation is read as a decimal that it is. -/
theorem readFloat?_positional {x : ℚ} {s : String} (h : Positional x s.toList) :
    ∃ d : Decimal, readFloat? s = some d.toFloat ∧ d.value = x := by
  obtain ⟨d, hd, hvalue⟩ := ofChars?_positional h 0
  obtain ⟨c, rest, hs, hc⟩ := h.head_isDigit
  have hplain : s.toList ++ exponentPart 0 = s.toList := List.append_nil _
  rw [hplain, hs] at hd
  refine ⟨d, ?_, by rw [hvalue, zpow_zero, mul_one]⟩
  rw [readFloat?, ofText?_of_splitSign (by rw [hs]; exact splitSign_of_isDigit hc) hc, hd]
  rfl

/-- **Canonical notation** is read as the number that it is of. -/
theorem textValue?_of_isCanonical {t : ℚ} {s : String} (h : IsCanonical t s) :
    textValue? s = some t := by
  obtain ⟨e, cs, -, hcs, hs⟩ := h
  obtain ⟨d, hd, hvalue⟩ := ofChars?_positional hcs e
  have hmagnitude : d.value = |t| := by
    rw [hvalue]
    field_simp
  obtain ⟨c, rest, rfl, hc⟩ := hcs.head_isDigit
  rw [List.cons_append] at hd
  rw [List.append_assoc, List.cons_append] at hs
  unfold textValue?
  rcases lt_or_ge t 0 with hneg | hnonneg
  · rw [if_pos hneg] at hs
    rw [ofText?_of_splitSign (by rw [hs]; rfl) hc, hd]
    show some (-d.value) = _
    rw [hmagnitude, abs_of_neg hneg, neg_neg]
  · rw [if_neg (not_lt.2 hnonneg)] at hs
    rw [ofText?_of_splitSign (by rw [hs]; exact splitSign_of_isDigit hc) hc, hd]
    show some d.value = _
    rw [hmagnitude, abs_of_nonneg hnonneg]

end LatexCalc
