import LatexCalc.Result
import LatexCalc.Proofs.Decimal.Notation
import LatexCalc.Proofs.Numeric.Rounding

/-!
# Displayed results

A result is displayed as the nearest number with ten places, or with ten digits where that would leave
too few of them (`Displays`). Both keep order and signs, and they agree where one takes over from the
other (`Displays.mono`, `Displays.sign_eq`). The text is that number in canonical notation
(`exists_isCanonical`).
-/

namespace LatexCalc

open Float.Model (Format UnpackedFloat)
open Float.Model.UnpackedFloat

/-! ## Rounding -/

/-- The number that is displayed for `x`: the nearest one with ten places, or with ten digits where
`x` is small, yet not zero. -/
inductive Displays (x t : ℚ) : Prop
  | places (large : x = 0 ∨ exactValue placesFrom ≤ |x|)
      (round : RoundsTo (10 ^ (-(resultPlaces : ℤ))) x t)
  | digits (e : ℤ) (small : |x| < exactValue placesFrom) (low : 10 ^ e ≤ |x|)
      (high : |x| < 10 ^ (e + 1)) (round : RoundsTo (10 ^ (e + 1 - resultDigits)) x t)

/-- The double that stands for a millionth is a little less. -/
theorem exactValue_placesFrom : exactValue placesFrom = 4722366482869645 / 2 ^ 72 := by
  have hparts : placesFrom.toModel.unpack =
    .finite .positive 4722366482869645 (-72) (by decide) := rfl
  rw [exactValue, hparts, partsValue_positive]
  norm_num

theorem placesFrom_lt : exactValue placesFrom < 10 ^ (-6 : ℤ) := by
  rw [exactValue_placesFrom]
  norm_num

theorem placesFrom_pos : 0 < exactValue placesFrom := by
  rw [exactValue_placesFrom]
  norm_num

/-- The least number that is displayed with places is displayed as a millionth. -/
theorem roundsTo_placesFrom :
    RoundsTo (10 ^ (-(resultPlaces : ℤ))) (exactValue placesFrom) (10 ^ (-6 : ℤ)) := by
  have hplaces : (-(resultPlaces : ℤ)) = -10 := rfl
  rw [hplaces, exactValue_placesFrom]
  refine ⟨10000, by norm_num, ?_, fun h => ⟨5000, rfl⟩⟩
  rw [abs_le]
  norm_num

namespace Displays

variable {x y t u : ℚ}

theorem neg (h : Displays x t) : Displays (-x) (-t) := by
  cases h with
  | places large round => exact .places (by rwa [neg_eq_zero, abs_neg]) round.neg
  | digits e small low high round =>
    rw [← abs_neg] at small low high
    exact .digits e small low high round.neg

theorem eq_zero (h : Displays 0 t) : t = 0 := by
  cases h with
  | places large round => exact round.unique (by positivity) (.zero (by positivity))
  | digits e small low high round =>
    rw [abs_zero] at low
    exact absurd low (not_le.2 (by positivity))

/-- With ten digits a number does not leave its power of ten. -/
theorem bounds_of_digits {e : ℤ} (low : 10 ^ e ≤ x) (high : x < 10 ^ (e + 1))
    (round : RoundsTo (10 ^ (e + 1 - resultDigits)) x t) : 10 ^ e ≤ t ∧ t ≤ 10 ^ (e + 1) := by
  have hunit : (0 : ℚ) < 10 ^ (e + 1 - resultDigits) := by positivity
  have hmultiple (k : ℕ) : RoundsTo ((10 : ℚ) ^ (e + 1 - resultDigits))
      (10 ^ (e + 1 - resultDigits + k)) (10 ^ (e + 1 - resultDigits + k)) := by
    have h := RoundsTo.of_multiple hunit.ne' (10 ^ k)
    rw [zpow_add₀ (by norm_num), zpow_natCast, mul_comm]
    exact_mod_cast h
  have hlow : e + 1 - resultDigits + (9 : ℕ) = e := by
    show e + 1 - 10 + 9 = e
    omega
  have hhigh : e + 1 - resultDigits + (10 : ℕ) = e + 1 := by
    show e + 1 - 10 + 10 = e + 1
    omega
  have hmultiple₀ := hmultiple 9
  have hmultiple₁ := hmultiple 10
  rw [hlow] at hmultiple₀
  rw [hhigh] at hmultiple₁
  exact ⟨hmultiple₀.mono hunit round low, round.mono hunit hmultiple₁ high.le⟩

/-- Positive numbers are displayed as positive numbers. -/
theorem pos (h : Displays x t) (hx : 0 < x) : 0 < t := by
  cases h with
  | places large round =>
    have hlarge : exactValue placesFrom ≤ x := by
      rwa [or_iff_right hx.ne', abs_of_pos hx] at large
    calc (0 : ℚ) < 10 ^ (-6 : ℤ) := by positivity
      _ ≤ t := roundsTo_placesFrom.mono (by positivity) round hlarge
  | digits e small low high round =>
    rw [abs_of_pos hx] at low high
    exact lt_of_lt_of_le (by positivity) (bounds_of_digits low high round).1

theorem mono_of_pos (h : Displays x t) (h' : Displays y u) (hx : 0 < x) (hxy : x ≤ y) : t ≤ u := by
  have hy := hx.trans_le hxy
  cases h with
  | places large round =>
    cases h' with
    | places large' round' => exact round.mono (by positivity) round' hxy
    | digits e small' low' high' round' =>
      rw [or_iff_right hx.ne', abs_of_pos hx] at large
      rw [abs_of_pos hy] at small'
      exact absurd (large.trans hxy) (not_le.2 small')
  | digits d small low high round =>
    rw [abs_of_pos hx] at small low high
    obtain ⟨hlow, hhigh⟩ := bounds_of_digits low high round
    cases h' with
    | places large' round' =>
      -- A millionth separates the two ways to round.
      have hlarge : exactValue placesFrom ≤ y := by
        rwa [or_iff_right hy.ne', abs_of_pos hy] at large'
      have hd : d < -6 := (zpow_lt_zpow_iff_right₀ (by norm_num)).1
        (low.trans_lt (small.trans placesFrom_lt))
      calc t ≤ 10 ^ (d + 1) := hhigh
        _ ≤ 10 ^ (-6 : ℤ) := zpow_le_zpow_right₀ (by norm_num) (by omega)
        _ ≤ u := roundsTo_placesFrom.mono (by positivity) round' hlarge
    | digits e small' low' high' round' =>
      rw [abs_of_pos hy] at small' low' high'
      have hde : d ≤ e := by
        have hlt : d < e + 1 := (zpow_lt_zpow_iff_right₀ (by norm_num)).1
          (low.trans_lt (hxy.trans_lt high'))
        omega
      rcases hde.eq_or_lt with rfl | hlt
      · exact round.mono (by positivity) round' hxy
      · calc t ≤ 10 ^ (d + 1) := hhigh
          _ ≤ 10 ^ e := zpow_le_zpow_right₀ (by norm_num) hlt
          _ ≤ u := (bounds_of_digits low' high' round').1

/-- **The sign** of a number is displayed. -/
theorem sign_eq (h : Displays x t) : SignType.sign t = SignType.sign x := by
  rcases lt_trichotomy x 0 with hx | rfl | hx
  · have ht := h.neg.pos (neg_pos.2 hx)
    rw [sign_neg hx, sign_neg (neg_pos.1 ht)]
  · rw [h.eq_zero]
  · rw [sign_pos hx, sign_pos (h.pos hx)]

/-- **Greater numbers** are displayed as greater numbers, or the same. -/
theorem mono (h : Displays x t) (h' : Displays y u) (hxy : x ≤ y) : t ≤ u := by
  have hzero {z v : ℚ} (hz : Displays z v) (hle : 0 ≤ z) : 0 ≤ v := by
    rw [← sign_nonneg_iff, hz.sign_eq, sign_nonneg_iff]
    exact hle
  rcases lt_or_ge 0 x with hx | hx
  · exact h.mono_of_pos h' hx hxy
  · rcases lt_or_ge y 0 with hy | hy
    · exact neg_le_neg_iff.1 (h'.neg.mono_of_pos h.neg (neg_pos.2 hy) (neg_le_neg hxy))
    · exact (neg_nonneg.1 (hzero h.neg (neg_nonneg.2 hx))).trans (hzero h' hy)

theorem unique (h : Displays x t) (h' : Displays x u) : t = u :=
  le_antisymm (h.mono h' le_rfl) (h'.mono h le_rfl)

end Displays

/-! ## Notation -/

theorem positional_zero : Positional 0 ['0'] := by
  refine ⟨[], by simp, by simp, ?_, ?_⟩
  · rw [Nat.floor_zero, Nat.toDigits_zero]
    rfl
  · rw [Nat.floor_zero, Nat.toDigits_zero, zero_mul]
    rfl

/-- A sign in front of a positive number is that of a canonical notation. -/
theorem isCanonical_signText (s : Sign) {v : ℚ} {e : ℤ} {cs : List Char} {text : String}
    (hv : 0 < v) (he : e = 0 ∨ 10 ^ e ≤ v ∧ v < 10 ^ (e + 1)) (hcs : Positional (v / 10 ^ e) cs)
    (htext : text.toList = cs ++ exponentPart e) :
    IsCanonical ((s.apply 1 : ℤ) * v) (signText s ++ text) := by
  have hmagnitude : |((s.apply 1 : ℤ) : ℚ) * v| = v := by
    cases s <;> simp [Sign.apply, abs_of_pos hv]
  have hsign : (signText s).toList = if ((s.apply 1 : ℤ) : ℚ) * v < 0 then ['-'] else [] := by
    cases s <;> simp [Sign.apply, signText, hv, hv.le]
  refine ⟨e, cs, by rwa [hmagnitude], by rwa [hmagnitude], ?_⟩
  rw [String.toList_append, htext, hsign, List.append_assoc]

theorem isCanonical_text (s : Sign) {d : Decimal} (hplaces : d.exponent < 0) (hd : 0 < d.value) :
    IsCanonical ((s.apply 1 : ℤ) * d.value) (signText s ++ d.text) := by
  refine isCanonical_signText s hd (.inl rfl) ?_ (List.append_nil _).symm
  rw [zpow_zero, div_one]
  exact Decimal.positional_text hplaces

theorem isCanonical_scientific (s : Sign) {d : Decimal} (hleading : d.leading ≠ 0) (hd : 0 < d.value) :
    IsCanonical ((s.apply 1 : ℤ) * d.value) (signText s ++ d.scientific) := by
  have hcoefficient := Decimal.coefficient_ne_zero hd
  obtain ⟨cs, htext, hcs⟩ := Decimal.positional_scientific hcoefficient
  refine isCanonical_signText s hd (.inr (Decimal.value_bounds hcoefficient)) hcs ?_
  rw [htext, exponentPart, if_neg hleading]

/-! ## Decimals -/

section

variable {d : Decimal}

theorem displays_toPlaces (hd : exactValue placesFrom ≤ d.value) :
    Displays d.value (d.toPlaces resultPlaces).value :=
  .places (.inr (hd.trans (le_abs_self _))) (d.roundsTo_toPlaces resultPlaces)

theorem displays_toSignificant (hpos : 0 < d.value) (hd : d.value < exactValue placesFrom) :
    Displays d.value (d.toSignificant resultDigits).value := by
  have hcoefficient := Decimal.coefficient_ne_zero hpos
  obtain ⟨hlow, hhigh⟩ := Decimal.value_bounds hcoefficient
  have hround := d.roundsTo_toSignificant 9
  have hunit : d.leading + 1 - resultDigits = d.leading - (9 : ℕ) := by
    show d.leading + 1 - 10 = d.leading - 9
    omega
  rw [← abs_of_pos hpos] at hd hlow hhigh
  exact .digits d.leading hd hlow hhigh (by rwa [hunit])

/-- Small results have an exponent that is not zero, even if they are rounded up. -/
theorem leading_toSignificant (hpos : 0 < d.value) (hd : d.value < exactValue placesFrom) :
    (d.toSignificant resultDigits).leading ≠ 0 := by
  have hdisplays := displays_toSignificant hpos hd
  have hcoefficient := Decimal.coefficient_ne_zero (hdisplays.pos hpos)
  have hmillionth := hdisplays.mono (.places (.inr (le_abs_self _)) roundsTo_placesFrom) hd.le
  have hlt : (10 : ℚ) ^ (d.toSignificant resultDigits).leading < 10 ^ (0 : ℤ) :=
    calc (10 : ℚ) ^ (d.toSignificant resultDigits).leading ≤ (d.toSignificant resultDigits).value :=
          (Decimal.value_bounds hcoefficient).1
      _ ≤ 10 ^ (-6 : ℤ) := hmillionth
      _ < 10 ^ (0 : ℤ) := by norm_num
  exact ((zpow_lt_zpow_iff_right₀ (by norm_num)).1 hlt).ne

end

/-! ## Doubles -/

theorem isFinite_abs (x : Float) : x.abs.isFinite = x.isFinite := by
  show x.abs.toModel.unpack.isFinite = x.toModel.unpack.isFinite
  rw [unpack_abs]
  cases x.toModel.unpack <;> rfl

theorem abs_lt_placesFrom {x : Float} (hx : x.isFinite = true) :
    x.abs < placesFrom ↔ |exactValue x| < exactValue placesFrom := by
  rw [← exactValue_abs, ← lt_iff ((isFinite_abs x).trans hx) rfl]
  exact decide_eq_true_iff.symm

theorem Displays.apply (s : Sign) {v t : ℚ} (h : Displays v t) :
    Displays ((s.apply 1 : ℤ) * v) ((s.apply 1 : ℤ) * t) := by
  cases s with
  | positive => simpa [Sign.apply] using h
  | negative => simpa [Sign.apply] using h.neg

/-- **Results are displayed** in canonical notation. -/
theorem exists_isCanonical {x : Float} (hx : x.isFinite = true) :
    ∃ t, IsCanonical t (formatValue x) ∧ Displays (exactValue x) t := by
  have hfinite : x.toModel.unpack.isFinite = true := hx
  have hsmall := abs_lt_placesFrom hx
  unfold formatValue
  rw [exactValue] at hsmall ⊢
  generalize x.toModel.unpack = u at hfinite hsmall
  cases u with
  | notANumber | infinity => cases hfinite
  | zero s =>
    refine ⟨0, ⟨0, ['0'], .inl rfl, ?_, ?_⟩, .places (.inl rfl) (.zero (by positivity))⟩
    · rw [abs_zero, zero_div]
      exact positional_zero
    · rw [if_neg (lt_irrefl _)]
      show "0".toList = [] ++ ['0'] ++ exponentPart 0
      decide
  | finite s m q hm =>
    have hpos : 0 < (Decimal.ofBinary m q).value := by
      rw [Decimal.value_ofBinary]
      positivity
    have hvalue : partsValue (.finite s m q hm) =
        (s.apply 1 : ℤ) * (Decimal.ofBinary m q).value := by
      rw [Decimal.value_ofBinary, ← apply_mul]
      rfl
    rw [abs_partsValue, ← Decimal.value_ofBinary] at hsmall
    rw [hvalue]
    dsimp only
    split
    · next h =>
      have hdisplays := displays_toSignificant hpos (hsmall.1 h)
      exact ⟨_, isCanonical_scientific s (leading_toSignificant hpos (hsmall.1 h))
        (hdisplays.pos hpos), hdisplays.apply s⟩
    · next h =>
      have hdisplays := displays_toPlaces (not_lt.1 (mt hsmall.2 h))
      have hexponent : ((Decimal.ofBinary m q).toPlaces resultPlaces).exponent < 0 := by
        rw [Decimal.exponent_toPlaces]
        decide
      exact ⟨_, isCanonical_text s hexponent (hdisplays.pos hpos), hdisplays.apply s⟩

theorem formatValue_of_eq_zero {x : Float} (hx : x.isFinite = true) (hzero : exactValue x = 0) :
    formatValue x = "0" := by
  have hfinite : x.toModel.unpack.isFinite = true := hx
  unfold formatValue
  rw [exactValue] at hzero
  generalize x.toModel.unpack = u at hfinite hzero
  cases u with
  | notANumber | infinity => cases hfinite
  | zero s => rfl
  | finite s m q hm =>
    have hmagnitude := abs_partsValue s m q hm
    rw [hzero, abs_zero] at hmagnitude
    exact absurd hmagnitude (by positivity)

/-- A result that is not small is written with the digits of the nearest number of places. -/
theorem formatValue_of_le {x : Float} (hx : x.isFinite = true)
    (hle : exactValue placesFrom ≤ exactValue x) :
    ∃ n : ℕ, IsNearest (exactValue x / 10 ^ (-(resultPlaces : ℤ))) n ∧
      formatValue x = (⟨n, -resultPlaces⟩ : Decimal).text := by
  obtain ⟨m, q, hm, hparts, -, hvalue⟩ := parts_of_pos (placesFrom_pos.trans_le hle)
  have hlarge : ¬x.abs < placesFrom := by
    rw [abs_lt_placesFrom hx]
    exact not_lt.2 (hle.trans (le_abs_self _))
  have hnearest := (Decimal.ofBinary m q).isNearest_toPlaces resultPlaces
  rw [Decimal.value_ofBinary, ← hvalue] at hnearest
  have htext : formatValue x = ((Decimal.ofBinary m q).toPlaces resultPlaces).text := by
    unfold formatValue
    rw [hparts]
    dsimp only
    rw [if_neg hlarge]
    exact String.empty_append
  exact ⟨_, hnearest, by rw [htext, ← Decimal.exponent_toPlaces]⟩

/-- **The text of a result** is read as the number displayed for it, which has its sign and keeps the
order of results. -/
theorem formatValue_faithful {x : Float} (hx : x.isFinite = true) :
    ∃ t, textValue? (formatValue x) = some t ∧ Displays (exactValue x) t ∧
      SignType.sign t = SignType.sign (exactValue x) ∧ IsCanonical t (formatValue x) ∧
      ∀ y u, y.isFinite = true → textValue? (formatValue y) = some u →
        exactValue x ≤ exactValue y → t ≤ u := by
  obtain ⟨t, ht, hdisplays⟩ := exists_isCanonical hx
  refine ⟨t, textValue?_of_isCanonical ht, hdisplays, hdisplays.sign_eq, ht, ?_⟩
  intro y u hy hu hxy
  obtain ⟨u', hu', hdisplays'⟩ := exists_isCanonical hy
  rw [textValue?_of_isCanonical hu', Option.some.injEq] at hu
  exact hu ▸ hdisplays.mono hdisplays' hxy

/-- A number so close below a millionth that its ten digits are rounded up. -/
theorem formatValue_faithful_carry :
    let x : Float := 9.9999999999e-7
    x.isFinite = true ∧ exactValue x < exactValue placesFrom ∧
      textValue? (formatValue x) = some (10 ^ (-6 : ℤ)) ∧
      IsCanonical (10 ^ (-6 : ℤ)) (formatValue x) := by
  intro x
  have hvalue : exactValue x = 4722366482822422 / 2 ^ 72 := by
    have hparts : (9.9999999999e-7 : Float).toModel.unpack =
      .finite .positive 4722366482822422 (-72) (by decide) := rfl
    rw [exactValue, hparts, partsValue_positive]
    norm_num
  have hsmall : exactValue x < exactValue placesFrom := by
    rw [hvalue, exactValue_placesFrom]
    norm_num
  have hpos : |exactValue x| = 4722366482822422 / 2 ^ 72 := by
    rw [hvalue]
    norm_num
  have hcarry : Displays (exactValue x) (10 ^ (-6 : ℤ)) := by
    refine .digits (-7) ?_ ?_ ?_ ⟨10000000000, ?_, ?_, fun _ => ⟨5000000000, rfl⟩⟩
    · rwa [hpos, ← hvalue]
    · rw [hpos]
      norm_num
    · rw [hpos]
      norm_num
    · norm_num [resultDigits]
    · rw [hvalue, abs_le]
      norm_num [resultDigits]
  have hfinite : (9.9999999999e-7 : Float).isFinite = true := rfl
  obtain ⟨t, htext, hdisplays, -, hcanonical, -⟩ := formatValue_faithful hfinite
  rw [hdisplays.unique hcarry] at htext hcanonical
  exact ⟨hfinite, hsmall, htext, hcanonical⟩

end LatexCalc
