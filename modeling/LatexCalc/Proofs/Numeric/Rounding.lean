import LatexCalc.Proofs.Numeric.Double

/-!
# Rounding

A number is rounded to a multiple of a power of two, the power being such that 53 bits are left of it
(`round_spec`). Rounding up or down, it does not cross the integers that 53 bits hold (`le_round`).
-/

namespace LatexCalc

open Float.Model (Format UnpackedFloat totalExponent)
open Float.Model.UnpackedFloat

/-! ## Shifting -/

theorem mantissa_shiftRight (em : ExtendedMantissa) (n : Nat) :
    (em >>> n).mantissa = em.mantissa / 2 ^ n := by
  induction n with
  | zero => exact (Nat.div_one _).symm
  | succ n ih =>
    show (em >>> n).mantissa / 2 = _
    rw [ih, Nat.div_div_eq_div_mul, Nat.pow_succ]

/-- Zeros written behind a number do not change it. -/
theorem decreaseExponent_spec (m : Nat) (e t : Int) :
    ((decreaseExponent m e t).1 : ℚ) * 2 ^ (decreaseExponent m e t).2 = m * 2 ^ e ∧
      (decreaseExponent m e t).2 = min e t := by
  obtain ⟨k, hk⟩ : ∃ k, k = (e - t).toNat := ⟨_, rfl⟩
  have hshift : decreaseExponent m e t = (m * 2 ^ k, e - k) := by
    show (m <<< (e - t).toNat, e - ((e - t).toNat : Int)) = _
    rw [Nat.shiftLeft_eq, ← hk]
  rw [hshift]
  refine ⟨?_, by omega⟩
  have he : e = k + (e - k) := by omega
  conv_rhs => rw [he, zpow_add₀ two_ne_zero, zpow_natCast]
  push_cast
  ring

/-- Shifting drops the bits behind the point. -/
theorem shift_eq_floor (m : Nat) (e : Int) :
    m * 2 ^ e.toNat / 2 ^ (-e).toNat = ⌊(m : ℚ) * 2 ^ e⌋₊ := by
  obtain ⟨n, rfl | rfl⟩ := e.eq_nat_or_neg
  · have hvalue : (m : ℚ) * 2 ^ (n : ℤ) = ((m * 2 ^ n : ℕ) : ℚ) := by
      push_cast
      rfl
    rw [hvalue, Nat.floor_natCast]
    simp
  · have hvalue : (m : ℚ) * 2 ^ (-(n : ℤ)) = (m : ℚ) / ((2 ^ n : ℕ) : ℚ) := by
      rw [zpow_neg, zpow_natCast, div_eq_mul_inv]
      push_cast
      rfl
    rw [hvalue, Nat.floor_div_eq_div]
    simp

theorem roundedMantissa_eq (em : ExtendedMantissa) :
    em.roundedMantissa = em.mantissa ∨ em.roundedMantissa = em.mantissa + 1 := by
  rcases em with ⟨m, r, s⟩
  cases r <;> cases s
  · exact .inl rfl
  · exact .inl rfl
  · have hparity : m % 2 = 0 ∨ m % 2 = 1 := by omega
    show m + m % 2 = m ∨ m + m % 2 = m + 1
    omega
  · exact .inr rfl

/-! ## The grain of a number -/

theorem two_zpow_le {m : Nat} (hm : 0 < m) (e : Int) :
    (2 : ℚ) ^ ((m.log2 : ℤ) + e) ≤ m * 2 ^ e := by
  have hm' : (2 : ℚ) ^ (m.log2 : ℤ) ≤ m := by exact_mod_cast Nat.log2_self_le hm.ne'
  rw [zpow_add₀ two_ne_zero]
  gcongr

theorem lt_two_zpow (m : Nat) (e : Int) : (m : ℚ) * 2 ^ e < 2 ^ ((m.log2 : ℤ) + 1 + e) := by
  have hm : (m : ℚ) < 2 ^ ((m.log2 : ℤ) + 1) := by exact_mod_cast Nat.lt_log2_self
  rw [zpow_add₀ two_ne_zero]
  gcongr

/-- The exponent at which a number has 53 bits, or the least one. -/
def grain (m : Nat) (e : Int) : Int :=
  max (m.log2 + e - 52) (-1074)

/-- The first 53 bits of a number. -/
def leading (m : Nat) (e : Int) : Nat :=
  ⌊(m : ℚ) * 2 ^ (e - grain m e)⌋₊

theorem targetExponent_binary64 (t : Int) :
    Format.binary64.targetExponent t = max (t - 53) (-1074) := by
  have hleast : Format.binary64.minExponent = -1074 := by decide
  have hbits : (Format.binary64.mantissaBits : ℤ) = 53 := rfl
  rw [Format.targetExponent, hleast, hbits]

theorem targetExponent_eq (m : Nat) (e : Int) :
    Format.binary64.targetExponent (totalExponent m e) = grain m e := by
  rw [targetExponent_binary64]
  unfold totalExponent grain
  omega

variable {m n : Nat} {d e : Int}

theorem grain_of_value (hm : 0 < m) (hn : 0 < n) (h : (m : ℚ) * 2 ^ d = n * 2 ^ e) :
    grain m d = grain n e := by
  have hle := (two_zpow_le hm d).trans_lt (h.trans_lt (lt_two_zpow n e))
  have hge := (two_zpow_le hn e).trans_lt (h.symm.trans_lt (lt_two_zpow m d))
  rw [zpow_lt_zpow_iff_right₀ one_lt_two] at hle hge
  unfold grain
  omega

theorem leading_of_value (hm : 0 < m) (hn : 0 < n) (h : (m : ℚ) * 2 ^ d = n * 2 ^ e) :
    leading m d = leading n e := by
  unfold leading
  rw [grain_of_value hm hn h, zpow_sub₀ two_ne_zero, zpow_sub₀ two_ne_zero, ← mul_div_assoc,
    ← mul_div_assoc, h]

theorem leading_lt (m : Nat) (e : Int) : leading m e < 2 ^ 53 := by
  have hgrain : (m.log2 : ℤ) + 1 + (e - grain m e) ≤ 53 := by
    unfold grain
    omega
  refine (Nat.floor_lt (by positivity)).2 ?_
  calc (m : ℚ) * 2 ^ (e - grain m e) < 2 ^ ((m.log2 : ℤ) + 1 + (e - grain m e)) := lt_two_zpow m _
    _ ≤ 2 ^ (53 : ℤ) := zpow_le_zpow_right₀ one_le_two hgrain
    _ = (2 ^ 53 : ℕ) := by norm_num

theorem le_leading (hm : 0 < m) (h : -1074 < grain m e) : 2 ^ 52 ≤ leading m e := by
  have hgrain : (m.log2 : ℤ) + (e - grain m e) = 52 := by
    unfold grain at h ⊢
    omega
  refine Nat.le_floor ?_
  calc ((2 ^ 52 : ℕ) : ℚ) = 2 ^ ((m.log2 : ℤ) + (e - grain m e)) := by rw [hgrain]; norm_num
    _ ≤ m * 2 ^ (e - grain m e) := two_zpow_le hm _

theorem shiftToTarget_eq (m : Nat) (e : Int) :
    (shiftToTargetExponent .binary64 m e .exact).1.mantissa = m / 2 ^ (grain m e - e).toNat ∧
      (shiftToTargetExponent .binary64 m e .exact).2 = e + (grain m e - e).toNat := by
  unfold shiftToTargetExponent shiftToExponent
  simp only [targetExponent_eq, mantissa_shiftRight, ExtendedMantissa.ofMantissaAndAccuracy, and_self]

theorem shiftToTarget_of_le (h : e ≤ grain m e) :
    (shiftToTargetExponent .binary64 m e .exact).1.mantissa = leading m e ∧
      (shiftToTargetExponent .binary64 m e .exact).2 = grain m e := by
  obtain ⟨hmantissa, hexponent⟩ := shiftToTarget_eq m e
  have hzero : (e - grain m e).toNat = 0 := by omega
  refine ⟨?_, by omega⟩
  rw [hmantissa, leading, ← shift_eq_floor, hzero, pow_zero, mul_one, neg_sub]

/-! ## Rounding -/

/-- A mantissa at an exponent, as a number. -/
def numberAt (s : Sign) (m : Nat) (e : Int) : UnpackedFloat :=
  if h : m = 0 then .zero s else .finite s m e (Nat.pos_of_ne_zero h)

theorem partsValue_numberAt (s : Sign) (m : Nat) (e : Int) :
    partsValue (numberAt s m e) = (s.apply m : ℤ) * 2 ^ e := by
  unfold numberAt
  split
  · next h =>
    subst h
    cases s <;> simp [partsValue, Sign.apply]
  · rfl

theorem isNormal_numberAt {s : Sign} (hm : m < 2 ^ 53) (he : -1074 ≤ e)
    (h : 2 ^ 52 ≤ m ∨ e = -1074) : IsNormal (numberAt s m e) := by
  unfold numberAt
  split
  · trivial
  · exact ⟨hm, he, h⟩

/-- The second shift of a rounding, which undoes what the rounded bits may have carried over. -/
theorem settle (s : Sign) {r : Nat} {t : Int} (hr : r ≤ 2 ^ 53) (ht : -1074 ≤ t)
    (hnormal : 2 ^ 52 ≤ r ∨ t = -1074) :
    let final := shiftToTargetExponent .binary64 r t .exact
    partsValue (numberAt s final.1.mantissa final.2) = (s.apply r : ℤ) * 2 ^ t ∧
      IsNormal (numberAt s final.1.mantissa final.2) := by
  intro final
  obtain ⟨hmantissa, hexponent⟩ := shiftToTarget_eq r t
  rw [partsValue_numberAt]
  rcases Nat.lt_or_eq_of_le hr with hlt | rfl
  · have hgrain : (grain r t - t).toNat = 0 := by
      have hlog : r.log2 < 53 := by
        rcases Nat.eq_zero_or_pos r with rfl | hpos
        · decide
        · exact (Nat.log2_lt hpos.ne').2 hlt
      unfold grain
      omega
    rw [hgrain, pow_zero, Nat.div_one] at hmantissa
    rw [hgrain, Nat.cast_zero, add_zero] at hexponent
    rw [hmantissa, hexponent]
    exact ⟨rfl, isNormal_numberAt hlt ht hnormal⟩
  · have hgrain : (grain (2 ^ 53) t - t).toNat = 1 := by
      have hlog : (2 ^ 53).log2 = 53 := Nat.log2_two_pow
      unfold grain
      omega
    rw [hgrain] at hmantissa hexponent
    rw [hmantissa, hexponent]
    refine ⟨?_, isNormal_numberAt (by decide) (by omega) (.inl (by decide))⟩
    rw [Nat.cast_one, zpow_add₀ two_ne_zero]
    cases s <;> norm_num [Sign.apply] <;> ring

/-- **Rounding.** The leading bits of a number are kept or increased by one. -/
theorem round_spec (s : Sign) (hm : 0 < m) (e : Int) :
    ∃ r : ℕ, (r = leading m e ∨ r = leading m e + 1) ∧
      partsValue (UnpackedFloat.round .binary64 s m e) = (s.apply r : ℤ) * 2 ^ grain m e ∧
      IsNormal (UnpackedFloat.round .binary64 s m e) := by
  obtain ⟨hvalue, hmin⟩ := decreaseExponent_spec m e (grain m e)
  generalize hp : decreaseExponent m e (grain m e) = p at hvalue hmin
  have hpos : 0 < p.1 := by
    by_contra hzero
    have hm' : (0 : ℚ) < m * 2 ^ e := by positivity
    rw [← hvalue, Nat.eq_zero_of_not_pos hzero, Nat.cast_zero, zero_mul] at hm'
    exact lt_irrefl _ hm'
  have hgrain := grain_of_value hpos hm hvalue
  have hleading := leading_of_value hpos hm hvalue
  obtain ⟨hmantissa, hexponent⟩ := shiftToTarget_of_le (m := p.1) (e := p.2) (by omega)
  generalize hfirst : shiftToTargetExponent .binary64 p.1 p.2 .exact = first at hmantissa hexponent
  rw [hleading] at hmantissa
  rw [hgrain] at hexponent
  have hround : UnpackedFloat.round .binary64 s m e =
      let final := shiftToTargetExponent .binary64 first.1.roundedMantissa first.2 .exact
      numberAt s final.1.mantissa final.2 := by
    rw [← hfirst, ← hp, ← targetExponent_eq]
    rfl
  have hr := roundedMantissa_eq first.1
  rw [hmantissa] at hr
  rw [hround, hexponent]
  have hlt := leading_lt m e
  have hleast : -1074 ≤ grain m e := le_max_right _ _
  refine ⟨_, hr, settle s (by omega) hleast ?_⟩
  rcases eq_or_lt_of_le hleast with heq | hgt
  · exact .inr heq.symm
  · have hnormal := le_leading hm hgt
    exact .inl (by omega)

/-- Cutting a number off does not take it below an integer of 53 bits. -/
theorem le_leading_mul (hm : 0 < m) (hn : n ≤ 2 ^ 53) (h : (n : ℚ) ≤ m * 2 ^ e) :
    (n : ℚ) ≤ leading m e * 2 ^ grain m e := by
  rcases le_or_gt (grain m e) 0 with hgrain | hgrain
  · -- The integer is a multiple of the grain, so the bits cut off are not its own.
    obtain ⟨k, hk⟩ := Int.eq_ofNat_of_zero_le (neg_nonneg.2 hgrain)
    have hunit : (2 : ℚ) ^ k * 2 ^ grain m e = 1 := by
      rw [← zpow_natCast, ← hk, ← zpow_add₀ two_ne_zero, neg_add_cancel, zpow_zero]
    have hfloor : n * 2 ^ k ≤ leading m e := by
      refine Nat.le_floor ?_
      calc ((n * 2 ^ k : ℕ) : ℚ) = n * 2 ^ k := by push_cast; rfl
        _ ≤ m * 2 ^ e * 2 ^ k := by gcongr
        _ = m * 2 ^ (e - grain m e) := by
          rw [sub_eq_add_neg, hk, zpow_add₀ two_ne_zero, mul_assoc]
          rfl
    calc (n : ℚ) = n * 2 ^ k * 2 ^ grain m e := by rw [mul_assoc, hunit, mul_one]
      _ ≤ leading m e * 2 ^ grain m e := by
        gcongr
        exact_mod_cast hfloor
  · have hleading : (2 ^ 52 : ℚ) ≤ leading m e := by
      exact_mod_cast le_leading (e := e) hm (by omega)
    calc (n : ℚ) ≤ 2 ^ 52 * 2 ^ (1 : ℤ) := by
          norm_num
          exact_mod_cast hn
      _ ≤ leading m e * 2 ^ grain m e := by
          gcongr
          · norm_num
          · omega

/-- Rounding does not take a number below an integer of 53 bits. -/
theorem le_round (hm : 0 < m) (hn : n ≤ 2 ^ 53) (h : (n : ℚ) ≤ m * 2 ^ e) :
    (n : ℚ) ≤ partsValue (UnpackedFloat.round .binary64 .positive m e) := by
  obtain ⟨r, hr, hvalue, -⟩ := round_spec .positive hm e
  have hle : (leading m e : ℚ) ≤ r := by
    have hle' : leading m e ≤ r := by omega
    exact_mod_cast hle'
  calc (n : ℚ) ≤ leading m e * 2 ^ grain m e := le_leading_mul hm hn h
    _ ≤ r * 2 ^ grain m e := by gcongr
    _ = (Sign.positive.apply r : ℤ) * 2 ^ grain m e := by
      show _ = (((r : ℤ) : ℤ) : ℚ) * _
      rw [Int.cast_natCast]
    _ = partsValue (UnpackedFloat.round .binary64 .positive m e) := hvalue.symm

/-! ## Differences -/

theorem isNormal_round (s : Sign) (hm : 0 < m) (e : Int) :
    IsNormal (UnpackedFloat.round .binary64 s m e) := by
  obtain ⟨-, -, -, h⟩ := round_spec s hm e
  exact h

theorem isNormal_normalize (m e : Int) (s : Sign) :
    IsNormal (UnpackedFloat.normalize .binary64 m e s) := by
  unfold UnpackedFloat.normalize
  split
  · next h =>
    have hneg := compare_lt_iff_lt.1 h
    exact isNormal_round _ (by omega) e
  · trivial
  · next h =>
    have hpos := compare_gt_iff_gt.1 h
    exact isNormal_round _ (by omega) e

theorem le_normalize {m : Int} (hn : n ≤ 2 ^ 53) (h : (n : ℚ) ≤ m * 2 ^ e) (s : Sign) :
    (n : ℚ) ≤ partsValue (UnpackedFloat.normalize .binary64 m e s) := by
  have hpow : (0 : ℚ) < 2 ^ e := by positivity
  have hm : 0 ≤ m := by
    have hm' : (0 : ℚ) ≤ m * 2 ^ e := (Nat.cast_nonneg n).trans h
    exact_mod_cast nonneg_of_mul_nonneg_left hm' hpow
  obtain ⟨m, rfl⟩ := Int.eq_ofNat_of_zero_le hm
  unfold UnpackedFloat.normalize
  rcases Nat.eq_zero_or_pos m with rfl | hm
  · have hzero : compare ((0 : ℕ) : ℤ) 0 = .eq := rfl
    rw [hzero, partsValue_zero]
    simpa using h
  · rw [compare_gt_iff_gt.2 (Int.natCast_pos.2 hm)]
    exact le_round hm hn h

theorem isNormal_sub {u v : UnpackedFloat} (hu : IsNormal u) (hv : IsNormal v) :
    IsNormal (sub .binary64 u v) := by
  unfold sub
  split <;> try trivial
  · split <;> trivial
  · split <;> trivial
  · exact isNormal_normalize _ _ _

theorem apply_mul (s : Sign) (m : Nat) (x : ℚ) :
    ((s.apply m : ℤ) : ℚ) * x = (s.apply 1 : ℤ) * (m * x) := by
  cases s <;> simp [Sign.apply]

/-- **Differences** are exact where one of the numbers is zero, and rounded otherwise. -/
theorem sub_spec {u v : UnpackedFloat} (hu : u.isFinite = true) (hv : v.isFinite = true) :
    partsValue (sub .binary64 u v) = partsValue u - partsValue v ∨
      ∃ (m e : ℤ), sub .binary64 u v = UnpackedFloat.normalize .binary64 m e .positive ∧
        (m : ℚ) * 2 ^ e = partsValue u - partsValue v := by
  cases u with
  | notANumber | infinity => cases hu
  | zero s =>
    cases v with
    | notANumber | infinity => cases hv
    | zero s' =>
      left
      have hzero : partsValue (sub .binary64 (.zero s) (.zero s')) = 0 := by
        cases s <;> cases s' <;> rfl
      rw [hzero, partsValue_zero, partsValue_zero, sub_zero]
    | finite s' n e hn =>
      left
      rw [partsValue_zero]
      cases s'
      · show partsValue (.finite .positive n e hn) = _
        rw [partsValue_negative, partsValue_positive]
        ring
      · show partsValue (.finite .negative n e hn) = _
        rw [partsValue_negative, partsValue_positive]
        ring
  | finite s m d hm =>
    cases v with
    | notANumber | infinity => cases hv
    | zero s' =>
      left
      rw [partsValue_zero, sub_zero]
      rfl
    | finite s' n e hn =>
      obtain ⟨hvalue, hmin⟩ := decreaseExponent_spec m d (min d e)
      obtain ⟨hvalue', hmin'⟩ := decreaseExponent_spec n e (min d e)
      have hd : min d (min d e) = min d e := by omega
      have he : min e (min d e) = min d e := by omega
      rw [hmin, hd] at hvalue
      rw [hmin', he] at hvalue'
      refine .inr ⟨s.apply (decreaseExponent m d (min d e)).1 -
        s'.apply (decreaseExponent n e (min d e)).1, min d e, rfl, ?_⟩
      rw [Int.cast_sub, sub_mul, apply_mul, apply_mul, hvalue, hvalue', ← apply_mul, ← apply_mul]
      rfl

/-- Differences are not rounded below an integer of 53 bits. -/
theorem le_sub {u v : UnpackedFloat} (hu : u.isFinite = true) (hv : v.isFinite = true)
    (hn : n ≤ 2 ^ 53) (h : partsValue v + n ≤ partsValue u) :
    (n : ℚ) ≤ partsValue (sub .binary64 u v) := by
  have hdifference : (n : ℚ) ≤ partsValue u - partsValue v := by linarith
  rcases sub_spec hu hv with hexact | ⟨m, e, hrounded, hvalue⟩
  · rwa [hexact]
  · rw [hrounded]
    rw [← hvalue] at hdifference
    exact le_normalize hn hdifference .positive

end LatexCalc
