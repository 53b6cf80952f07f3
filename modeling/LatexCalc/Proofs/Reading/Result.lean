import LatexCalc.Proofs.Decimal.Nearest
import LatexCalc.Proofs.Numeric.Display
import LatexCalc.Proofs.Reading.Run
import LatexCalc.Proofs.Token.Cutting

/-!
# Results read again

The text of a result that is not small is one number token, and the number it is read as has the same
text (`formatValue_read`). That number may differ from the result, but it lies no farther from what is
displayed than the result does, since it is the nearest double; so it is rounded to the same places.
-/

namespace LatexCalc

/-! ## One token -/

theorem tokenize_numeral {s : String} (h : IsNumeral s.toList) :
    ∃ o, tokenize s = .ok [⟨.number, s, o⟩] := by
  obtain ⟨_, o', hitems, o, rfl⟩ := cutsInto_numeral h apart_nil 0
  rw [List.append_nil, itemsFrom.eq_1, List.append_nil, String.ofList_toList] at hitems
  exact ⟨o, tokenize_eq_ok_iff.2 hitems⟩

theorem parse_number {line : String} {t : Token} {x : Float} (ht : t.kind = .number)
    (hx : readFloat? t.text = some x) : parse line [t] = .ok (.number x) :=
  parse_eq_ok_iff.2 (.unsigned (.number ht hx) (.stop trivial))

/-! ## The same places -/

section

variable {x y : Float} {n : ℕ} (hx : x.isFinite = true)
  (hle : exactValue placesFrom ≤ exactValue x)
  (hn : IsNearest (exactValue x / 10 ^ (-(resultPlaces : ℤ))) n)

include hle hn in
theorem millionth_le : (10 : ℚ) ^ (-6 : ℤ) ≤ n * 10 ^ (-(resultPlaces : ℤ)) :=
  roundsTo_placesFrom.mono (by positivity) ⟨n, rfl, hn⟩ hle

include hn in
/-- What is displayed for a double is not greater than all doubles. -/
theorem displayed_le_greatest : n * 10 ^ (-(resultPlaces : ℤ)) ≤ greatest := by
  obtain ⟨k, hk⟩ := exists_natCast_greatest
  have hinteger : greatest = ((k * 10 ^ resultPlaces : ℤ)) * 10 ^ (-(resultPlaces : ℤ)) := by
    have hten : (10 : ℚ) ^ resultPlaces ≠ 0 := by positivity
    rw [hk, zpow_neg, zpow_natCast, Int.cast_mul, Int.cast_pow, Int.cast_ofNat,
      mul_inv_cancel_right₀ hten, Int.cast_natCast]
  have hround : RoundsTo (10 ^ (-(resultPlaces : ℤ))) greatest greatest := by
    rw [hinteger]
    exact .of_multiple (by positivity) _
  exact RoundsTo.mono (by positivity) ⟨n, rfl, hn⟩ hround
    ((le_abs_self _).trans (abs_exactValue_le x))

include hx hle hn in
/-- The double nearest to what is displayed is displayed as the same. -/
theorem IsNearestDouble.displayed (hy : IsNearestDouble (n * 10 ^ (-(resultPlaces : ℤ))) y) :
    exactValue placesFrom ≤ exactValue y ∧
      IsNearest (exactValue y / 10 ^ (-(resultPlaces : ℤ))) n := by
  have hunit : (0 : ℚ) < 10 ^ (-(resultPlaces : ℤ)) := by positivity
  have hmillionth := millionth_le hle hn
  generalize (10 : ℚ) ^ (-(resultPlaces : ℤ)) = unit at *
  have hscale (z : ℚ) : |((n : ℤ) : ℚ) - z / unit| = |z - n * unit| / unit := by
    rw [← abs_of_pos hunit, ← abs_div, abs_of_pos hunit, sub_div, mul_div_cancel_right₀ _ hunit.ne',
      abs_sub_comm]
    rfl
  constructor
  · by_contra hlt
    have hsmall := not_le.1 hlt
    have hdistance := hy.le placesFrom rfl
    have hplaces := placesFrom_lt
    rw [abs_of_neg (by linarith), abs_of_neg (by linarith)] at hdistance
    linarith
  · refine hn.of_le ?_
    rw [hscale, hscale]
    exact div_le_div_of_nonneg_right (hy.le x hx) hunit.le

end

/-! ## The same text -/

/-- The text of a result that is not small is read as a number that is displayed the same. -/
theorem readFloat?_formatValue {x : Float} (hx : x.isFinite = true)
    (hle : exactValue placesFrom ≤ exactValue x) :
    IsNumeral (formatValue x).toList ∧
      ∃ w, readFloat? (formatValue x) = some w ∧ formatValue w = formatValue x := by
  obtain ⟨n, hn, htext⟩ := formatValue_of_le hx hle
  have hplaces : (⟨n, -resultPlaces⟩ : Decimal).exponent < 0 := by
    show -(resultPlaces : ℤ) < 0
    decide
  rw [htext]
  obtain ⟨d, hd, hvalue⟩ := readFloat?_positional (Decimal.positional_text hplaces)
  have hnearest : IsNearestDouble (n * 10 ^ (-(resultPlaces : ℤ))) d.toFloat := by
    have hle' : d.value ≤ greatest := hvalue ▸ displayed_le_greatest hn
    have h := Decimal.isNearestDouble_toFloat hle'
    rwa [hvalue] at h
  obtain ⟨hle', hn'⟩ := hnearest.displayed hx hle hn
  obtain ⟨k, hk, htext'⟩ := formatValue_of_le hnearest.isFinite hle'
  obtain rfl : k = n := by exact_mod_cast hk.unique hn'
  exact ⟨Decimal.isNumeral_text _, d.toFloat, hd, htext'⟩

/-- Zero is read as a number that is displayed the same. -/
theorem readFloat?_zero : ∃ w, readFloat? "0" = some w ∧ formatValue w = "0" := by
  have hdigits : "0".toList = ['0'] := by decide
  obtain ⟨d, hd, hvalue⟩ := readFloat?_positional (hdigits ▸ positional_zero)
  have hnearest : IsNearestDouble 0 d.toFloat := by
    rw [← hvalue]
    refine Decimal.isNearestDouble_toFloat ?_
    rw [hvalue, greatest]
    norm_num
  have hdistance := hnearest.le 0 rfl
  have hzero : exactValue 0 = 0 := rfl
  rw [hzero, sub_zero, sub_zero, abs_zero, abs_nonpos_iff] at hdistance
  exact ⟨_, hd, formatValue_of_eq_zero hnearest.isFinite hdistance⟩

/-- **Results are read again as what is displayed.** The text of a result, unless it is small or below
zero, is one token, and the number that it is read as has the same text. -/
theorem formatValue_read {x : Float} (hx : x.isFinite = true)
    (hrange : exactValue x = 0 ∨ exactValue placesFrom ≤ exactValue x) :
    ∃ t w, tokenize (formatValue x) = .ok [t] ∧ t.kind = .number ∧ t.text = formatValue x ∧
      parse (formatValue x) [t] = .ok (.number w) ∧ formatValue w = formatValue x := by
  have hread : IsNumeral (formatValue x).toList ∧
      ∃ w, readFloat? (formatValue x) = some w ∧ formatValue w = formatValue x := by
    rcases hrange with hzero | hle
    · rw [formatValue_of_eq_zero hx hzero]
      exact ⟨.inl (by decide), readFloat?_zero⟩
    · exact readFloat?_formatValue hx hle
  obtain ⟨hnumeral, w, hw, hsame⟩ := hread
  obtain ⟨o, htokens⟩ := tokenize_numeral hnumeral
  exact ⟨_, w, htokens, rfl, rfl, parse_number rfl hw, hsame⟩

/-- One tenth and two tenths as doubles have a sum that is displayed as `0.3`, which is read as another
double. -/
theorem formatValue_read_tenths :
    let x : Float := 0.30000000000000004
    x.isFinite = true ∧ exactValue placesFrom ≤ exactValue x ∧ formatValue x = "0.3" ∧
      ∃ t w, tokenize (formatValue x) = .ok [t] ∧ t.kind = .number ∧ t.text = formatValue x ∧
        parse (formatValue x) [t] = .ok (.number w) ∧ formatValue w = formatValue x ∧ w ≠ x := by
  intro x
  have hx : (0.30000000000000004 : Float).isFinite = true := rfl
  have hlt : Arithmetic.lt (0.30000000000000004 : Float) placesFrom = false := rfl
  have hle : exactValue placesFrom ≤ exactValue 0.30000000000000004 := by
    rw [← not_lt, ← lt_iff hx rfl, hlt]
    exact Bool.false_ne_true
  have htext : formatValue x = "0.3" := by decide +kernel
  have hread : readFloat? "0.3" = some 0.3 := by decide +kernel
  obtain ⟨t, w, htokens, hk, ht, hw, hsame⟩ := formatValue_read hx (.inr hle)
  have hother : parse (formatValue x) [t] = .ok (.number 0.3) :=
    parse_number hk ((congrArg readFloat? (ht.trans htext)).trans hread)
  have hne : w ≠ x := by
    cases hw.symm.trans hother
    decide +kernel
  exact ⟨hx, hle, htext, t, w, htokens, hk, ht, hw, hsame, hne⟩

end LatexCalc
