import LatexCalc.Decimal.Text
import LatexCalc.Proofs.Numeric.Nearest

/-!
# Decimals with fewer digits

A decimal is a rational number (`Decimal.value`). With a given number of places it is the multiple
nearest to that number (`Decimal.roundsTo_toPlaces`), and so it is with a given number of digits
(`Decimal.coefficient_toSignificant`), where the unit is that of the last digit kept
(`Decimal.roundsTo_toSignificant`).
-/

namespace LatexCalc

namespace Decimal

/-- The rational number that a decimal is. -/
def value (d : Decimal) : ℚ :=
  d.coefficient * 10 ^ d.exponent

theorem value_ofBinary (m : Nat) (q : Int) : (ofBinary m q).value = m * 2 ^ q := by
  obtain ⟨k, rfl | rfl⟩ := q.eq_nat_or_neg
  · have hdecimal : ofBinary m (k : ℤ) = ⟨m * 2 ^ k, 0⟩ := by simp [ofBinary]
    rw [hdecimal, value]
    push_cast
    simp
  · have hfraction : ((5 ^ k : ℕ) : ℚ) * 10 ^ (-(k : ℤ)) = 2 ^ (-(k : ℤ)) := by
      have hten : (10 : ℚ) ^ k = 5 ^ k * 2 ^ k := by rw [← mul_pow]; norm_num
      rw [zpow_neg, zpow_neg, zpow_natCast, zpow_natCast, hten]
      push_cast
      field_simp
    rcases Nat.eq_zero_or_pos k with rfl | hk
    · simp [ofBinary, value]
    · have hdecimal : ofBinary m (-(k : ℤ)) = ⟨m * 5 ^ k, -(k : ℤ)⟩ := by
        unfold ofBinary
        rw [if_neg (by omega), neg_neg, Int.toNat_natCast]
        rfl
      rw [hdecimal, value, Nat.cast_mul, mul_assoc, hfraction]

theorem value_extend (k : Nat) (d : Decimal) : (d.extend k).value = d.value := by
  show ((d.coefficient * 10 ^ k : ℕ) : ℚ) * 10 ^ (d.exponent - k) = d.coefficient * 10 ^ d.exponent
  rw [zpow_sub₀ (by norm_num), zpow_natCast]
  push_cast
  field_simp

/-! ## Rounding -/

theorem exponent_round (k : Nat) (d : Decimal) : (d.round k).exponent = d.exponent + k := by
  unfold round
  split <;> try rfl
  split <;> rfl

/-- Without the last digits the coefficient is the nearest integer to what a shift of the point makes
of it. -/
theorem isNearest_round (k : Nat) (d : Decimal) :
    IsNearest (d.coefficient / 10 ^ k) (d.round k).coefficient := by
  have hpow : 0 < 10 ^ k := by positivity
  have hcast : (10 : ℚ) ^ k = (10 ^ k : ℕ) := by push_cast; rfl
  have hcompare : d.compareHalf k = compare (2 * (d.coefficient % 10 ^ k)) (10 ^ k) := rfl
  rw [hcast]
  unfold round
  split
  · next h =>
    have hlt := compare_lt_iff_lt.1 (hcompare ▸ h)
    exact isNearest_div hpow hlt.le fun htie => absurd htie hlt.ne
  · next h =>
    have hgt := compare_gt_iff_gt.1 (hcompare ▸ h)
    exact isNearest_div_add_one hpow hgt.le fun htie => absurd htie hgt.ne'
  · next h =>
    have heq := compare_eq_iff_eq.1 (hcompare ▸ h)
    split
    · next heven => exact isNearest_div hpow heq.le fun _ => Nat.even_iff.2 heven
    · next hodd =>
      exact isNearest_div_add_one hpow heq.ge fun _ =>
        (Nat.not_even_iff_odd.1 (mt Nat.even_iff.1 hodd)).add_one

/-- **A decimal with fewer digits** is the nearest multiple of the unit of its last digit. -/
theorem roundsTo_round (k : Nat) (d : Decimal) :
    RoundsTo (10 ^ (d.exponent + k)) d.value (d.round k).value := by
  refine ⟨(d.round k).coefficient, ?_, ?_⟩
  · rw [value, exponent_round, Int.cast_natCast]
  · have hshift : d.value / 10 ^ (d.exponent + k) = d.coefficient / 10 ^ k := by
      rw [value, zpow_add₀ (by norm_num), zpow_natCast]
      field_simp
    rw [hshift]
    exact isNearest_round k d

theorem roundsTo_self {d : Decimal} {e : ℤ} (h : d.exponent = e) :
    RoundsTo (10 ^ e) d.value d.value := by
  rw [value, h, ← Int.cast_natCast]
  exact .of_multiple (by positivity) _

/-! ## Places -/

variable (p n : Nat) (d : Decimal)

theorem exponent_toPlaces : (d.toPlaces p).exponent = -p := by
  unfold toPlaces
  split
  · rw [exponent_round]
    omega
  · show d.exponent - ((d.exponent + p).toNat : ℤ) = -p
    omega

theorem roundsTo_toPlaces : RoundsTo (10 ^ (-(p : ℤ))) d.value (d.toPlaces p).value := by
  have hexponent := exponent_toPlaces p d
  unfold toPlaces at hexponent ⊢
  split at hexponent
  · next h =>
    have hround := roundsTo_round (-p - d.exponent).toNat d
    rwa [if_pos h, ← exponent_round, hexponent] at *
  · next h =>
    rw [if_neg h]
    have hself := roundsTo_self hexponent
    rwa [value_extend] at hself ⊢

/-- The digits that are left are those of the nearest multiple. -/
theorem isNearest_toPlaces :
    IsNearest (d.value / 10 ^ (-(p : ℤ))) (d.toPlaces p).coefficient := by
  have hvalue : (d.toPlaces p).value = ((d.toPlaces p).coefficient : ℤ) * 10 ^ (-(p : ℤ)) := by
    rw [value, exponent_toPlaces, Int.cast_natCast]
  exact RoundsTo.isNearest (by positivity) (hvalue ▸ roundsTo_toPlaces p d)

/-! ## Significant digits -/

variable {n d}

theorem length_digits_pos (d : Decimal) : 0 < d.digits.length :=
  List.length_pos_of_ne_nil Nat.toDigits_ne_nil

theorem lt_ten_pow_length (d : Decimal) : d.coefficient < 10 ^ d.digits.length :=
  (Nat.length_toDigits_le_iff (by decide) d.length_digits_pos).1 le_rfl

theorem ten_pow_length_le (hd : d.coefficient ≠ 0) : 10 ^ (d.digits.length - 1) ≤ d.coefficient := by
  rcases Nat.eq_zero_or_pos (d.digits.length - 1) with hone | hpos
  · rw [hone]
    exact Nat.pos_of_ne_zero hd
  · exact not_lt.1 fun hlt => absurd ((Nat.length_toDigits_le_iff (by decide) hpos).2 hlt) <| by
      show ¬d.digits.length ≤ _
      omega

theorem coefficient_ne_zero (hd : 0 < d.value) : d.coefficient ≠ 0 := by
  intro hzero
  rw [value, hzero, Nat.cast_zero, zero_mul] at hd
  exact lt_irrefl _ hd

/-- The first digit of a number tells its power of ten. -/
theorem value_bounds (hd : d.coefficient ≠ 0) :
    10 ^ d.leading ≤ d.value ∧ d.value < 10 ^ (d.leading + 1) := by
  have hlow : (10 : ℚ) ^ (d.digits.length - 1) ≤ d.coefficient := by
    exact_mod_cast ten_pow_length_le hd
  have hhigh : (d.coefficient : ℚ) < 10 ^ d.digits.length := by
    exact_mod_cast d.lt_ten_pow_length
  have hlength := d.length_digits_pos
  have hleading : d.leading = (d.digits.length - 1 : ℕ) + d.exponent := by
    rw [leading]
    omega
  have hnext : d.leading + 1 = d.digits.length + d.exponent := by
    rw [leading]
    omega
  rw [hnext, hleading, zpow_add₀ (by norm_num), zpow_add₀ (by norm_num), zpow_natCast, zpow_natCast,
    value]
  exact ⟨by gcongr, by gcongr⟩

/-- The carry of nines to a power of ten is a digit that can be left out. -/
theorem value_truncate_ten {k : Nat} (h : d.coefficient = 10 ^ (k + 1)) :
    (d.truncate 1).coefficient = 10 ^ k ∧ (d.truncate 1).value = d.value := by
  have hcoefficient : (d.truncate 1).coefficient = 10 ^ k := by
    show d.coefficient / 10 ^ 1 = 10 ^ k
    rw [h, pow_one, pow_succ, Nat.mul_div_cancel _ (by decide)]
  refine ⟨hcoefficient, ?_⟩
  rw [value, hcoefficient, value, h]
  show ((10 ^ k : ℕ) : ℚ) * 10 ^ (d.exponent + (1 : ℕ)) = _
  rw [zpow_add₀ (by norm_num)]
  push_cast
  ring

/-- The nearest number with fewer digits has that many digits, or one more where nines carry. -/
theorem coefficient_round (hd : d.coefficient ≠ 0) (h : n + 1 ≤ d.digits.length) :
    10 ^ n ≤ (d.round (d.digits.length - (n + 1))).coefficient ∧
      (d.round (d.digits.length - (n + 1))).coefficient ≤ 10 ^ (n + 1) := by
  obtain ⟨k, hk⟩ : ∃ k, d.digits.length = n + 1 + k := Nat.exists_eq_add_of_le h
  have hlow := ten_pow_length_le hd
  have hhigh := d.lt_ten_pow_length
  have hlength : n + 1 + k - (n + 1) = k := by omega
  have hpred : n + 1 + k - 1 = n + k := by omega
  rw [hk, hpred, pow_add] at hlow
  rw [hk, pow_add] at hhigh
  rw [hk, hlength]
  have hround := isNearest_round k d
  have hpow : (0 : ℚ) < 10 ^ k := by positivity
  constructor
  · have hle : ((10 ^ n : ℕ) : ℤ) ≤ (d.round k).coefficient := by
      refine (IsNearest.intCast _).mono hround ?_
      rw [le_div_iff₀ hpow]
      exact_mod_cast hlow
    exact_mod_cast hle
  · have hle : ((d.round k).coefficient : ℤ) ≤ (10 ^ (n + 1) : ℕ) := by
      refine hround.mono (.intCast _) ?_
      rw [div_le_iff₀ hpow]
      exact_mod_cast hhigh.le
    exact_mod_cast hle

/-- **A given number of digits** is what is left. -/
theorem coefficient_toSignificant (hd : d.coefficient ≠ 0) :
    10 ^ n ≤ (d.toSignificant (n + 1)).coefficient ∧
      (d.toSignificant (n + 1)).coefficient < 10 ^ (n + 1) := by
  have hlength := d.length_digits_pos
  unfold toSignificant
  split
  · next hle =>
    have hcoefficient : (d.extend (n + 1 - d.digits.length)).coefficient =
      d.coefficient * 10 ^ (n + 1 - d.digits.length) := rfl
    rw [hcoefficient]
    constructor
    · calc 10 ^ n = 10 ^ (d.digits.length - 1) * 10 ^ (n + 1 - d.digits.length) := by
            rw [← pow_add]; congr 1; omega
        _ ≤ _ := Nat.mul_le_mul_right _ (ten_pow_length_le hd)
    · calc _ < 10 ^ d.digits.length * 10 ^ (n + 1 - d.digits.length) :=
            Nat.mul_lt_mul_of_pos_right d.lt_ten_pow_length (by positivity)
        _ = 10 ^ (n + 1) := by rw [← pow_add]; congr 1; omega
  · next hlt =>
    obtain ⟨hlow, hhigh⟩ := coefficient_round hd (n := n) (by omega)
    dsimp only
    split
    · next hcarry =>
      rw [(value_truncate_ten hcarry).1]
      exact ⟨le_rfl, Nat.pow_lt_pow_succ (by decide)⟩
    · next hcarry => exact ⟨hlow, lt_of_le_of_ne hhigh hcarry⟩

/-- **The number with these digits** is the nearest multiple of the unit of the last one. -/
theorem roundsTo_toSignificant (n : Nat) (d : Decimal) :
    RoundsTo (10 ^ (d.leading - n)) d.value (d.toSignificant (n + 1)).value := by
  have hlength := d.length_digits_pos
  unfold toSignificant
  split
  · next hle =>
    have hexponent : (d.extend (n + 1 - d.digits.length)).exponent = d.leading - n := by
      show d.exponent - ((n + 1 - d.digits.length : ℕ) : ℤ) = _
      rw [leading]
      omega
    have hself := roundsTo_self hexponent
    rwa [value_extend] at hself ⊢
  · next hlt =>
    have hexponent : d.exponent + (d.digits.length - (n + 1) : ℕ) = d.leading - n := by
      rw [leading]
      omega
    have hround := roundsTo_round (d.digits.length - (n + 1)) d
    rw [hexponent] at hround
    dsimp only
    split
    · next hcarry => rwa [(value_truncate_ten hcarry).2]
    · exact hround

end Decimal

end LatexCalc
