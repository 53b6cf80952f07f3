import LatexCalc.Proofs.Decimal.Rounding
import LatexCalc.Proofs.Numeric.Accuracy

/-!
# Decimals as doubles

No double is nearer to a decimal than the one it is read as, unless the decimal is greater than all
doubles (`Decimal.isNearestDouble_toFloat`). Few digits with a small exponent are read by one product or
quotient of doubles that are exact; all others by a product or quotient of natural numbers.
-/

namespace LatexCalc

open Float.Model (Format UnpackedFloat)
open Float.Model.UnpackedFloat

/-! ## Few digits -/

/-- Whether a number is a given natural one. -/
def isNatural (n : Nat) : UnpackedFloat → Bool
  | .finite .positive m e _ => m * 2 ^ e.toNat = n * 2 ^ (-e).toNat
  | _ => false

theorem partsValue_of_isNatural {n : Nat} {u : UnpackedFloat} (h : isNatural n u = true) :
    partsValue u = n := by
  unfold isNatural at h
  split at h
  · next m e hm =>
    have hcast : (m : ℚ) * 2 ^ e.toNat = n * 2 ^ (-e).toNat := by
      exact_mod_cast of_decide_eq_true h
    have hexponent : e = (e.toNat : ℤ) - ((-e).toNat : ℤ) := by omega
    rw [partsValue_positive, hexponent, zpow_sub₀ two_ne_zero, zpow_natCast, zpow_natCast,
      ← mul_div_assoc, div_eq_iff (by positivity)]
    exact hcast
  · cases h

theorem isNatural_powerOfTen : ∀ i : Fin 23,
    isNatural (10 ^ i.val) (Float.exactlyRepresentablePowersOfTen[i]).toModel.unpack = true := by
  decide +kernel

/-- The powers of ten that are kept are exact. -/
theorem exactValue_powerOfTen (i : Fin 23) :
    exactValue Float.exactlyRepresentablePowersOfTen[i] = 10 ^ i.val := by
  rw [exactValue, partsValue_of_isNatural (isNatural_powerOfTen i)]
  push_cast
  rfl

/-- A double of less than half the least positive one is nearest to zero. -/
theorem isNearestDouble_zero {x : ℚ} {y : Float} (hy : y.isFinite = true) (hzero : exactValue y = 0)
    (hx : 0 ≤ x) (hle : x ≤ 2 ^ (-1075 : ℤ)) : IsNearestDouble x y := by
  refine ⟨hy, fun z _ => ?_⟩
  have hnormal : IsNormal z.toModel.unpack := isNormal_unpack _
  rw [hzero, zero_sub, abs_neg, abs_of_nonneg hx]
  unfold exactValue
  generalize z.toModel.unpack = u at hnormal
  cases u with
  | finite s m e hm =>
    have hleast : (2 : ℚ) ^ (-1074 : ℤ) ≤ m * 2 ^ e := by
      have hm' : (1 : ℚ) ≤ m := by exact_mod_cast hm
      calc (2 : ℚ) ^ (-1074 : ℤ) = 1 * 2 ^ (-1074 : ℤ) := (one_mul _).symm
        _ ≤ m * 2 ^ e := by
          gcongr
          · exact one_le_two
          · exact hnormal.2.1
    have htwo : (2 : ℚ) ^ (-1074 : ℤ) = 2 * 2 ^ (-1075 : ℤ) := by
      rw [← zpow_one_add₀ two_ne_zero]
      norm_num
    have htriangle := abs_sub_abs_le_abs_sub (partsValue (.finite s m e hm)) x
    rw [abs_partsValue, abs_of_nonneg hx] at htriangle
    linarith
  | _ =>
    show x ≤ |0 - x|
    rw [zero_sub, abs_neg]
    exact le_abs_self x

/-! ## Any digits -/

section

variable {m : Nat} {e : Int}

/-- A number with so large an exponent is greater than all doubles. -/
theorem greatest_lt (hm : 0 < m) (he : 1024 ≤ e) : greatest < m * 10 ^ e := by
  have hm' : (1 : ℚ) ≤ m := by exact_mod_cast hm
  calc greatest < 2 ^ 53 * 2 ^ (971 : ℤ) := by
        rw [greatest]
        gcongr
        norm_num
    _ = 2 ^ (1024 : ℤ) := by
        rw [← zpow_natCast, ← zpow_add₀ two_ne_zero]
        norm_num
    _ ≤ 2 ^ e := zpow_le_zpow_right₀ one_le_two he
    _ ≤ 10 ^ e := zpow_le_zpow_left₀ (by omega) two_pos.le (by norm_num)
    _ ≤ m * 10 ^ e := le_mul_of_one_le_left (by positivity) hm'

/-- A number with so small an exponent is less than half the least positive double. -/
theorem mul_ten_zpow_le (he : e + m.log2 ≤ -1076) : m * (10 : ℚ) ^ e ≤ 2 ^ (-1075 : ℤ) := by
  have hpow : (10 : ℚ) ^ e ≤ 2 ^ e := by
    have hle : (2 : ℚ) ^ (-e) ≤ 10 ^ (-e) :=
      zpow_le_zpow_left₀ (by omega) two_pos.le (by norm_num)
    rwa [zpow_neg, zpow_neg, inv_le_inv₀ (by positivity) (by positivity)] at hle
  calc (m : ℚ) * 10 ^ e ≤ m * 2 ^ e := by gcongr
    _ ≤ 2 ^ ((m.log2 : ℤ) + 1 + e) := (lt_two_zpow m e).le
    _ ≤ 2 ^ (-1075 : ℤ) := zpow_le_zpow_right₀ one_le_two (by omega)

/-- A coefficient and an exponent are read as the nearest double. -/
theorem isNearestDouble_model (hle : m * 10 ^ e ≤ greatest) :
    IsNearestDouble (m * 10 ^ e) (.ofModel (.ofScientific m e)) := by
  have hbits : (2 : ℤ) ^ Format.binary64.exponentBits = 2048 := rfl
  have hmodel : Float.ofModel (.ofScientific m e) =
    .ofModel (.pack (UnpackedFloat.ofScientific .binary64 m e)) := rfl
  rw [hmodel]
  unfold UnpackedFloat.ofScientific
  split
  · next hm =>
    refine isNearestDouble_zero rfl rfl (by positivity) ?_
    rw [hm, Nat.cast_zero, zero_mul]
    positivity
  · next hm =>
    have hm' : 0 < m := Nat.pos_of_ne_zero hm
    split
    · next hlarge => exact absurd hle (not_le.2 (greatest_lt hm' (by omega)))
    · split
      · next hsmall => exact isNearestDouble_zero rfl rfl (by positivity) (mul_ten_zpow_le (by omega))
      · split
        · next hnonneg =>
          obtain ⟨k, rfl⟩ := Int.eq_ofNat_of_zero_le hnonneg
          have hvalue : (m : ℚ) * (10 : ℚ) ^ (k : ℤ) =
              ((m <<< 53 : ℕ) * 2 ^ (-53 : ℤ)) * ((10 ^ k : ℕ) * 2 ^ (0 : ℤ)) := by
            rw [Nat.shiftLeft_eq, zpow_natCast]
            push_cast
            field_simp
            norm_num
          have hall : 2 ^ 52 ≤ m <<< 53 * 10 ^ k := by
            rw [Nat.shiftLeft_eq]
            calc 2 ^ 52 ≤ m * 2 ^ 53 := by omega
              _ ≤ m * 2 ^ 53 * 10 ^ k := Nat.le_mul_of_pos_right _ (by positivity)
          rw [← abs_of_nonneg (by positivity : (0 : ℚ) ≤ m * (10 : ℚ) ^ (k : ℤ)), hvalue] at hle
          rw [hvalue]
          exact (nearestParts_mul _ _ hall).isNearestDouble hle
        · next hneg =>
          obtain ⟨k, hk⟩ := Int.eq_ofNat_of_zero_le (neg_nonneg.2 (not_le.1 hneg).le)
          have hvalue : (m : ℚ) * (10 : ℚ) ^ e =
              (m * 2 ^ (0 : ℤ)) / ((10 ^ k : ℕ) * 2 ^ (0 : ℤ)) := by
            rw [← neg_neg e, hk, zpow_neg, zpow_natCast, zpow_zero, mul_one, mul_one, div_eq_mul_inv]
            push_cast
            rfl
          rw [← abs_of_nonneg (by positivity : (0 : ℚ) ≤ m * (10 : ℚ) ^ e), hvalue] at hle
          rw [hvalue]
          have hk' : (-e).toNat = k := by omega
          simp only [hk']
          exact (nearestParts_div _ _).isNearestDouble hle

end

/-! ## Reading -/

/-- Few digits and a kept power of ten are exact, and their product or quotient is the nearest double. -/
theorem isNearestDouble_kept {m e : Nat} (hm : m < 2 ^ 53) (he : e < 23) :
    let powerOfTen := Float.exactlyRepresentablePowersOfTen[(⟨e, he⟩ : Fin 23)]
    (m * 10 ^ e ≤ greatest → IsNearestDouble (m * 10 ^ e) (m.toUInt64.toFloat * powerOfTen)) ∧
      IsNearestDouble (m / 10 ^ e) (m.toUInt64.toFloat / powerOfTen) := by
  intro powerOfTen
  have hten : exactValue powerOfTen = 10 ^ e := exactValue_powerOfTen ⟨e, he⟩
  have hten' : 0 < exactValue powerOfTen := by
    rw [hten]
    positivity
  have hmantissa := exactValue_toFloat hm.le
  rcases Nat.eq_zero_or_pos m with rfl | hpos
  · obtain ⟨n, d, hn, hparts, -, -⟩ := parts_of_pos hten'
    have hzero : (Nat.toUInt64 0).toFloat.toModel.unpack = .zero .positive := rfl
    have hmul : (Nat.toUInt64 0).toFloat * powerOfTen = .ofModel (.pack (.zero .positive)) := by
      show Float.ofModel (.pack (mul .binary64 _ powerOfTen.toModel.unpack)) = _
      rw [hzero, hparts]
      rfl
    have hdiv : (Nat.toUInt64 0).toFloat / powerOfTen = .ofModel (.pack (.zero .positive)) := by
      show Float.ofModel (.pack (div .binary64 _ powerOfTen.toModel.unpack)) = _
      rw [hzero, hparts]
      rfl
    rw [hmul, hdiv, Nat.cast_zero, zero_mul, zero_div]
    exact ⟨fun _ => isNearestDouble_zero rfl rfl le_rfl (by positivity),
      isNearestDouble_zero rfl rfl le_rfl (by positivity)⟩
  · have hone : (1 : ℚ) ≤ m := by exact_mod_cast hpos
    have hle : (m : ℚ) / 10 ^ e ≤ greatest :=
      (div_le_self (Nat.cast_nonneg m) (one_le_pow₀ (by norm_num))).trans
        (natCast_le_greatest (hm.trans (by decide)))
    rw [← hten, ← hmantissa] at hle ⊢
    rw [← hmantissa] at hone
    exact ⟨isNearestDouble_mul hone hten', isNearestDouble_div (zero_lt_one.trans_le hone) hten' hle⟩

theorem isNearestDouble_ofScientific {m : Nat} {s : Bool} {e : Nat}
    (h : m * 10 ^ (if s then -(e : ℤ) else e) ≤ greatest) :
    IsNearestDouble (m * 10 ^ (if s then -(e : ℤ) else e)) (Float.ofScientific m s e) := by
  unfold Float.ofScientific
  cases s with
  | false =>
    change (m : ℚ) * 10 ^ (e : ℤ) ≤ greatest at h
    show IsNearestDouble (m * 10 ^ (e : ℤ)) _
    split
    · next hkept =>
      rw [zpow_natCast] at h ⊢
      exact (isNearestDouble_kept hkept.1 (Nat.lt_succ_of_le hkept.2)).1 h
    · exact isNearestDouble_model h
  | true =>
    change (m : ℚ) * 10 ^ (-(e : ℤ)) ≤ greatest at h
    show IsNearestDouble (m * 10 ^ (-(e : ℤ))) _
    split
    · next hkept =>
      rw [zpow_neg, zpow_natCast, ← div_eq_mul_inv]
      exact (isNearestDouble_kept hkept.1 (Nat.lt_succ_of_le hkept.2)).2
    · have hexponent : Int.negOfNat e = -(e : ℤ) := Int.negOfNat_eq
      dsimp only
      rw [if_pos rfl, hexponent]
      exact isNearestDouble_model h

/-- **A decimal is read as the nearest double.** -/
theorem Decimal.isNearestDouble_toFloat {d : Decimal} (h : d.value ≤ greatest) :
    IsNearestDouble d.value d.toFloat := by
  have hexponent : d.exponent =
      if decide (d.exponent < 0) then -(d.exponent.natAbs : ℤ) else d.exponent.natAbs := by
    split
    · next hneg =>
      have hneg' := of_decide_eq_true hneg
      omega
    · next hnonneg =>
      have hnonneg' := of_decide_eq_false (Bool.eq_false_iff.2 hnonneg)
      omega
  rw [value, hexponent] at h ⊢
  exact isNearestDouble_ofScientific h

end LatexCalc
