import LatexCalc.Numeric.Arithmetic
import LatexCalc.Proofs.Decimal.Unsigned

/-!
# Doubles as rational numbers

A finite double is a rational number (`exactValue`), and the order of doubles is that of their values
(`lt_iff`). Every operation rounds its result to the parts that a double can be kept in (`IsNormal`)
and packs them; what is unpacked again is the same, or infinite where the exponent is too large
(`unpack_pack`).
-/

namespace LatexCalc

open Float.Model (Format UnpackedFloat)
open Float.Model.UnpackedFloat

/-! ## Values -/

/-- The rational number that the parts of a finite number are; zero for all others. -/
def partsValue : UnpackedFloat → ℚ
  | .finite s m e _ => (s.apply m : ℤ) * 2 ^ e
  | _ => 0

/-- The rational number that a finite double is. -/
def exactValue (x : Float) : ℚ :=
  partsValue x.toModel.unpack

theorem partsValue_positive {m : Nat} {e : Int} (hm : 0 < m) :
    partsValue (.finite .positive m e hm) = (m : ℚ) * 2 ^ e := by
  show (((m : ℤ) : ℤ) : ℚ) * 2 ^ e = _
  rw [Int.cast_natCast]

theorem partsValue_negative {m : Nat} {e : Int} (hm : 0 < m) :
    partsValue (.finite .negative m e hm) = -((m : ℚ) * 2 ^ e) := by
  show ((-(m : ℤ) : ℤ) : ℚ) * 2 ^ e = _
  push_cast
  ring

/-- Without its sign a number is the mantissa at the exponent. -/
theorem abs_partsValue (s : Sign) (m : Nat) (e : Int) (hm : 0 < m) :
    |partsValue (.finite s m e hm)| = m * 2 ^ e := by
  have hnonneg : (0 : ℚ) ≤ m * 2 ^ e := by positivity
  cases s
  · rw [partsValue_negative, abs_neg, abs_of_nonneg hnonneg]
  · rw [partsValue_positive, abs_of_nonneg hnonneg]

/-! ## Parts that doubles are kept in -/

/-- A mantissa of 53 bits, which the first one is set of unless the exponent is the least one. -/
def IsNormal : UnpackedFloat → Prop
  | .finite _ m e _ => m < 2 ^ 53 ∧ -1074 ≤ e ∧ (2 ^ 52 ≤ m ∨ e = -1074)
  | _ => True

/-- What is left of a number whose exponent may be too large. -/
def overflow : UnpackedFloat → UnpackedFloat
  | .finite s m e hm => if 971 < e then .infinity s else .finite s m e hm
  | u => u

theorem exponent_le {s : Sign} {m : Nat} {e : Int} {hm : 0 < m}
    (h : overflow (.finite s m e hm) = .finite s m e hm) : e ≤ 971 := by
  by_contra hlarge
  rw [overflow, if_pos (not_le.1 hlarge)] at h
  cases h

theorem toNat_one_append (v : BitVec 52) : (1#1 ++ v).toNat = 2 ^ 52 + v.toNat := by
  rw [BitVec.toNat_append, ← Nat.shiftLeft_add_eq_or_of_lt v.isLt]
  rfl

/-- What is unpacked is normal. -/
theorem isNormal_unpack (b : BitVec Format.binary64.numBits) : IsNormal (unpack .binary64 b) := by
  have hmantissa : (unpackMantissa b).toNat < 2 ^ 52 := (unpackMantissa b).isLt
  have hbias : (Format.binary64.exponentBias : ℤ) = 1023 := rfl
  unfold unpack
  simp only
  split
  · split <;> trivial
  · split
    · next hzero =>
      split
      · trivial
      · have hexponent : (unpackExponent b).toNat = 0 := by rw [hzero]; rfl
        refine ⟨by omega, ?_, .inr ?_⟩ <;> rw [hexponent, hbias] <;> decide
    · next hzero =>
      have hexponent : (unpackExponent b).toNat ≠ 0 := fun h => hzero (BitVec.eq_of_toNat_eq h)
      refine ⟨?_, ?_, .inl ?_⟩
      · rw [toNat_one_append]; omega
      · rw [hbias]; push_cast; omega
      · rw [toNat_one_append]; omega

/-- What is unpacked has not overflowed. -/
theorem overflow_unpack (b : BitVec Format.binary64.numBits) :
    overflow (unpack .binary64 b) = unpack .binary64 b := by
  have hbias : (Format.binary64.exponentBias : ℤ) = 1023 := rfl
  have hbits : (Format.binary64.mantissaBitsWithoutImplicit : ℤ) = 52 := rfl
  have hexponent : (unpackExponent b).toNat < 2 ^ 11 := (unpackExponent b).isLt
  unfold unpack
  simp only
  split
  · split <;> rfl
  · next hlast =>
    split
    · next hzero =>
      split
      · rfl
      · have hzero' : (unpackExponent b).toNat = 0 := by rw [hzero]; rfl
        exact if_neg (by rw [hbias, hbits]; omega)
    · have hne : (unpackExponent b).toNat ≠ 2047 := fun h => hlast (BitVec.eq_of_toNat_eq h)
      exact if_neg (by rw [hbias, hbits]; omega)

theorem ofBitVec_toBitVec (s : Sign) : Sign.ofBitVec s.toBitVec = s := by
  cases s <;> rfl

section

variable {s s' : Sign} {m n : Nat} {d e : Int} {hm : 0 < m} {hn : 0 < n}

theorem biasedExponent_eq (e : Int) :
    (e + Format.binary64.exponentBias + (52 : Nat)).toNat = (e + 1075).toNat := by
  show (e + 1023 + 52).toNat = _
  omega

theorem ofNat_exponent_ne {c : BitVec 11} (hc : (c.toNat : ℤ) ≠ e + 1075) (hlow : -1074 ≤ e)
    (hhigh : e ≤ 971) : BitVec.ofNat 11 (e + 1075).toNat ≠ c := by
  rintro rfl
  rw [BitVec.toNat_ofNat] at hc
  omega

/-- Of a mantissa of 53 bits the first one is left out, and put back. -/
theorem unpack_pack_of_le (hbits : 2 ^ 52 ≤ m) (hlt : m < 2 ^ 53) (hlow : -1074 ≤ e)
    (hhigh : e ≤ 971) :
    unpack .binary64 (pack .binary64 (.finite s m e hm)) = .finite s m e hm := by
  have hlog : m.log2 = 52 := (Nat.log2_eq_iff (by omega)).2 ⟨hbits, hlt⟩
  have hmantissa : (1#1 ++ BitVec.ofNat 52 m).toNat = m := by
    rw [toNat_one_append, BitVec.toNat_ofNat]
    omega
  have hexponent : ((BitVec.ofNat 11 (e + 1075).toNat).toNat : ℤ) -
      (Format.binary64.exponentBias + Format.binary64.mantissaBitsWithoutImplicit) = e := by
    rw [BitVec.toNat_ofNat]
    show _ - (1023 + 52 : ℤ) = e
    omega
  unfold pack
  simp only [biasedExponent_eq]
  rw [if_neg (by omega), if_pos (by rw [hlog]; rfl)]
  unfold unpack
  simp only [unpackSign_packComponents, unpackExponent_packComponents, unpackMantissa_packComponents,
    ofBitVec_toBitVec]
  rw [if_neg (ofNat_exponent_ne (by show (2047 : ℤ) ≠ _; omega) hlow hhigh),
    if_neg (ofNat_exponent_ne (by show (0 : ℤ) ≠ _; omega) hlow hhigh)]
  simp only [hmantissa, hexponent]

/-- A shorter mantissa is kept with the least exponent. -/
theorem unpack_pack_of_lt (hlt : m < 2 ^ 52) :
    unpack .binary64 (pack .binary64 (.finite s m (-1074) hm)) = .finite s m (-1074) hm := by
  have hlog : m.log2 < 52 := (Nat.log2_lt (by omega)).2 hlt
  have hbits : Format.binary64.mantissaBits = 53 := rfl
  have hmantissa : (BitVec.ofNat 52 m).toNat = m := by
    rw [BitVec.toNat_ofNat]
    omega
  have hne : BitVec.ofNat 52 m ≠ 0#52 := by
    intro h
    rw [h] at hmantissa
    exact hm.ne hmantissa
  have hne' : (0#11) ≠ -1#11 := by decide
  unfold pack
  simp only [biasedExponent_eq]
  rw [if_neg (by omega), if_neg (by rw [hbits]; omega)]
  unfold unpack
  simp only [unpackSign_packComponents, unpackExponent_packComponents, unpackMantissa_packComponents,
    ofBitVec_toBitVec, if_neg hne', if_pos, dif_neg hne, hmantissa]
  rfl

/-- **Packing loses nothing but what overflows.** -/
theorem unpack_pack {u : UnpackedFloat} (h : IsNormal u) :
    unpack .binary64 (pack .binary64 u) = overflow u := by
  cases u with
  | notANumber => rfl
  | infinity s => cases s <;> rfl
  | zero s => cases s <;> rfl
  | finite s m e hm =>
    obtain ⟨hlt, hlow, hnormal⟩ := h
    by_cases hlarge : 971 < e
    · rw [overflow, if_pos hlarge]
      unfold pack
      simp only [biasedExponent_eq]
      rw [if_pos (by omega)]
      cases s <;> rfl
    · rw [overflow, if_neg hlarge]
      by_cases hbits : 2 ^ 52 ≤ m
      · exact unpack_pack_of_le hbits hlt hlow (by omega)
      · obtain rfl := hnormal.resolve_left hbits
        exact unpack_pack_of_lt (by omega)

/-! ## Magnitude -/

/-- A positive number has a positive sign and a mantissa. -/
theorem parts_of_pos {x : Float} (hx : 0 < exactValue x) :
    ∃ m e, ∃ hm : 0 < m, x.toModel.unpack = .finite .positive m e hm ∧
      IsNormal (.finite .positive m e hm) ∧ exactValue x = m * 2 ^ e := by
  have hnormal : IsNormal x.toModel.unpack := isNormal_unpack _
  unfold exactValue at hx ⊢
  generalize x.toModel.unpack = u at hx hnormal
  cases u with
  | finite s m e hm =>
    cases s with
    | positive => exact ⟨m, e, hm, rfl, hnormal, partsValue_positive hm⟩
    | negative =>
      rw [partsValue_negative] at hx
      have hpos : (0 : ℚ) < m * 2 ^ e := by positivity
      linarith
  | _ => exact absurd hx (lt_irrefl _)

theorem unpack_abs (x : Float) : x.abs.toModel.unpack = x.toModel.unpack.abs := by
  have hnormal : IsNormal x.toModel.unpack := isNormal_unpack _
  have hoverflow : overflow x.toModel.unpack = x.toModel.unpack := overflow_unpack _
  have habs : IsNormal x.toModel.unpack.abs ∧
      overflow x.toModel.unpack.abs = x.toModel.unpack.abs := by
    generalize x.toModel.unpack = u at hnormal hoverflow
    cases u with
    | finite s m e hm => exact ⟨hnormal, if_neg (not_lt.2 (exponent_le hoverflow))⟩
    | _ => exact ⟨trivial, rfl⟩
  exact (unpack_pack habs.1).trans habs.2

/-- The magnitude of a double is that of its value. -/
theorem exactValue_abs (x : Float) : exactValue x.abs = |exactValue x| := by
  rw [exactValue, unpack_abs, exactValue]
  cases x.toModel.unpack with
  | finite s m e hm =>
    rw [abs_partsValue, ← partsValue_positive hm]
    rfl
  | _ => exact abs_zero.symm

/-! ## Order -/

theorem magnitude_lt (h : IsNormal (.finite s m d hm)) (h' : IsNormal (.finite s' n e hn))
    (hlt : d < e) : (m : ℚ) * 2 ^ d < n * 2 ^ e := by
  have hm' : (m : ℚ) < 2 ^ 53 := by exact_mod_cast h.1
  have hn' : (2 ^ 52 : ℚ) ≤ n := by
    have hnormal : 2 ^ 52 ≤ n := by
      have hlow := h.2.1
      have hnormal := h'.2.2
      omega
    exact_mod_cast hnormal
  calc (m : ℚ) * 2 ^ d < 2 ^ 53 * 2 ^ d := by gcongr
    _ = 2 ^ 52 * 2 ^ (d + 1) := by rw [zpow_add₀ two_ne_zero]; ring
    _ ≤ n * 2 ^ e := by
      gcongr
      · norm_num
      · exact hlt

/-- Magnitudes are compared by their exponents first. -/
theorem compare_magnitudes (h : IsNormal (.finite s m d hm)) (h' : IsNormal (.finite s' n e hn)) :
    (compare d e).then (compare m n) = compare ((m : ℚ) * 2 ^ d) ((n : ℚ) * 2 ^ e) := by
  rcases lt_trichotomy d e with hlt | rfl | hgt
  · rw [compare_lt_iff_lt.2 hlt, compare_lt_iff_lt.2 (magnitude_lt h h' hlt)]
    rfl
  · have hmono : StrictMono fun k : ℕ => (k : ℚ) * 2 ^ d := fun j k hjk => by
      have hjk' : (j : ℚ) < k := by exact_mod_cast hjk
      show (j : ℚ) * 2 ^ d < k * 2 ^ d
      gcongr
    rw [compare_eq_iff_eq.2 rfl, ← cmp_eq_compare, ← cmp_eq_compare]
    exact (hmono.cmp_map_eq m n).symm
  · rw [compare_gt_iff_gt.2 hgt, compare_gt_iff_gt.2 (magnitude_lt h' h hgt)]
    rfl

theorem partsValue_zero (s : Sign) : partsValue (.zero s) = 0 :=
  rfl

theorem partsValue_positive_pos (hm : 0 < m) : 0 < partsValue (.finite .positive m d hm) := by
  rw [partsValue_positive]
  positivity

theorem partsValue_negative_neg (hm : 0 < m) : partsValue (.finite .negative m d hm) < 0 := by
  rw [partsValue_negative]
  exact neg_lt_zero.2 (by positivity)

/-- **The order of doubles** is that of their values. -/
theorem compare_eq {u v : UnpackedFloat} (hu : u.isFinite = true) (hv : v.isFinite = true)
    (hu' : IsNormal u) (hv' : IsNormal v) :
    UnpackedFloat.compare u v = some (compare (partsValue u) (partsValue v)) := by
  cases u with
  | notANumber | infinity => cases hu
  | zero s =>
    cases v with
    | notANumber | infinity => cases hv
    | zero s' => rfl
    | finite s' n e hn =>
      rw [partsValue_zero]
      cases s' with
      | negative =>
        rw [compare_gt_iff_gt.2 (partsValue_negative_neg hn)]
        rfl
      | positive =>
        rw [compare_lt_iff_lt.2 (partsValue_positive_pos hn)]
        rfl
  | finite s m d hm =>
    cases v with
    | notANumber | infinity => cases hv
    | zero s' =>
      rw [partsValue_zero]
      cases s with
      | negative =>
        rw [compare_lt_iff_lt.2 (partsValue_negative_neg hm)]
        rfl
      | positive =>
        rw [compare_gt_iff_gt.2 (partsValue_positive_pos hm)]
        rfl
    | finite s' n e hn =>
      have hmag := compare_magnitudes hu' hv'
      cases s <;> cases s'
      case negative.negative =>
        have hanti : StrictAnti fun x : ℚ => -x := fun _ _ => neg_lt_neg
        have hneg := hanti.cmp_map_eq ((n : ℚ) * 2 ^ e) (m * 2 ^ d)
        rw [partsValue_negative, partsValue_negative, ← cmp_eq_compare, ← cmp_swap, hneg,
          cmp_eq_compare, ← hmag]
        rfl
      case negative.positive =>
        rw [compare_lt_iff_lt.2 ((partsValue_negative_neg hm).trans (partsValue_positive_pos hn))]
        rfl
      case positive.negative =>
        rw [compare_gt_iff_gt.2 ((partsValue_negative_neg hn).trans (partsValue_positive_pos hm))]
        rfl
      case positive.positive =>
        rw [partsValue_positive, partsValue_positive, ← hmag]
        rfl

theorem lt_iff {x y : Float} (hx : x.isFinite = true) (hy : y.isFinite = true) :
    Arithmetic.lt x y = true ↔ exactValue x < exactValue y := by
  have hlt : Arithmetic.lt x y = true ↔
      (UnpackedFloat.compare x.toModel.unpack y.toModel.unpack == some .lt) = true := by
    show decide (x.lt y = true) = true ↔ _
    rw [decide_eq_true_iff]
    show decide (_ = true) = true ↔ _
    rw [decide_eq_true_iff]
    rfl
  rw [hlt, compare_eq hx hy (isNormal_unpack _) (isNormal_unpack _), beq_iff_eq, Option.some.injEq,
    compare_lt_iff_lt]
  rfl

end

end LatexCalc
