import LatexCalc.Numeric.Range
import LatexCalc.Proofs.Numeric.Rounding

/-!
# Lengths of ranges

The length of a range of doubles is found from the whole part of a difference and kept in a word of 64
bits. `termCount` is what it is without the bound of the word (`rangeLength_eq`). Differences are
rounded, but not below the integers of 53 bits: a range that has more terms than such an integer is
found to be longer (`lt_termCount`).
-/

namespace LatexCalc

open Arithmetic
open Float.Model (UnpackedFloat)
open Float.Model.UnpackedFloat

/-! ## Whole parts -/

/-- The whole part of a number by its parts. -/
def wholeOfParts : UnpackedFloat → ℕ∞
  | .infinity .positive => ⊤
  | u => ⌊partsValue u⌋₊

/-- The whole part of a double: that of a negative or undefined one is zero, and that of the positive
infinity is infinite. -/
def wholePart (x : Float) : ℕ∞ :=
  wholeOfParts x.toModel.unpack

theorem toNat_roundToInt (s : Sign) (m : Nat) (e : Int) (hm : 0 < m) :
    (roundToInt s m e).toNat = ⌊partsValue (.finite s m e hm)⌋₊ := by
  have hround : roundToInt s m e = s.apply (m * 2 ^ e.toNat / 2 ^ (-e).toNat : Nat) := by
    have hshift : (0 - (e - e.toNat)).toNat = (-e).toNat := by omega
    unfold roundToInt decreaseExponent shiftToExponent
    simp only [Int.sub_zero, hshift, mantissa_shiftRight, ExtendedMantissa.ofMantissaAndAccuracy,
      Nat.shiftLeft_eq]
  rw [hround, shift_eq_floor]
  cases s with
  | negative =>
    have hvalue : (0 : ℚ) ≤ m * 2 ^ e := by positivity
    rw [partsValue_negative, Nat.floor_of_nonpos (neg_nonpos.2 hvalue)]
    exact Int.toNat_neg_natCast _
  | positive =>
    rw [partsValue_positive]
    exact Int.toNat_natCast _

theorem toNat_ofNatClamp (n : Nat) : (UInt64.ofNatClamp n).toNat = min n maxCount := by
  have hsize : maxCount + 1 = UInt64.size := rfl
  rcases Nat.lt_or_ge n UInt64.size with h | h
  · rw [UInt64.toNat_ofNatClamp_of_lt h]
    omega
  · rw [UInt64.toNat_ofNatClamp_of_le h]
    omega

/-- **The count of steps in a double** is its whole part, at most `maxCount`. -/
theorem toCount_eq (x : Float) : (toCount x : ℕ∞) = min (wholePart x) maxCount := by
  show ((UInt64.ofNatClamp (x.toModel.unpack.toInt 0 (UInt64.size - 1)).toNat).toNat : ℕ∞) = _
  rw [toNat_ofNatClamp, Nat.mono_cast.map_min, wholePart]
  cases x.toModel.unpack with
  | notANumber => rfl
  | zero s => rfl
  | infinity s =>
    cases s with
    | negative => rfl
    | positive =>
      rw [wholeOfParts, min_eq_right le_top]
      rfl
  | finite s m e hm =>
    show min (((roundToInt s m e).toNat : ℕ) : ℕ∞) maxCount = _
    rw [toNat_roundToInt s m e hm]
    rfl

theorem le_wholeOfParts_overflow {u : UnpackedFloat} {n : ℕ} (h : (n : ℚ) ≤ partsValue u) :
    (n : ℕ∞) ≤ wholeOfParts (overflow u) := by
  have hfloor : (n : ℕ∞) ≤ (⌊partsValue u⌋₊ : ℕ) := by exact_mod_cast Nat.le_floor h
  have htop : (n : ℕ∞) ≤ wholeOfParts (.infinity .positive) :=
    (le_top : (n : ℕ∞) ≤ ⊤)
  cases u with
  | notANumber => exact hfloor
  | zero s => exact hfloor
  | infinity s =>
    cases s with
    | negative => exact hfloor
    | positive => exact htop
  | finite s m e hm =>
    by_cases hlarge : 971 < e
    · rw [overflow, if_pos hlarge]
      cases s with
      | negative =>
        have hvalue : (0 : ℚ) < m * 2 ^ e := by positivity
        have hnonneg : (0 : ℚ) ≤ n := Nat.cast_nonneg n
        rw [partsValue_negative] at h
        linarith
      | positive => exact htop
    · rw [overflow, if_neg hlarge]
      exact hfloor

/-- Differences have the integers of 53 bits that the distances have. -/
theorem le_wholePart_sub {x y : Float} (hx : x.isFinite = true) (hy : y.isFinite = true) {n : ℕ}
    (hn : n ≤ 2 ^ 53) (h : exactValue x + n ≤ exactValue y) : (n : ℕ∞) ≤ wholePart (y - x) := by
  have hunpack : (y - x).toModel.unpack =
      overflow (sub .binary64 y.toModel.unpack x.toModel.unpack) :=
    unpack_pack (isNormal_sub (isNormal_unpack _) (isNormal_unpack _))
  rw [wholePart, hunpack]
  exact le_wholeOfParts_overflow (le_sub hy hx hn h)

/-! ## Terms -/

/-- How many terms a range has: its length, were it not for the word that the length is kept in. -/
def termCount (start stop : Float) : ℕ∞ :=
  if lt stop start then 0 else wholePart (stop - start) + 1

/-- **The length of a range** is its number of terms, at most `maxCount`. -/
theorem rangeLength_eq (start stop : Float) :
    (rangeLength start stop : ℕ∞) = min (termCount start stop) maxCount := by
  unfold rangeLength termCount
  split
  · rfl
  · rw [Nat.mono_cast.map_min, Nat.cast_add, toCount_eq]
    rw [Nat.cast_one, ← min_add_add_right, min_assoc, min_eq_right le_self_add]

/-- A range that reaches its first number increased by `n` has more than `n` terms. -/
theorem lt_termCount {start stop : Float} (hstart : start.isFinite = true)
    (hstop : stop.isFinite = true) {n : ℕ} (hn : n ≤ 2 ^ 53)
    (h : exactValue start + n ≤ exactValue stop) : (n : ℕ∞) < termCount start stop := by
  have hle : exactValue start ≤ exactValue stop := by
    have hnonneg : (0 : ℚ) ≤ n := Nat.cast_nonneg n
    linarith
  rw [termCount, if_neg (fun hlt => absurd ((lt_iff hstop hstart).1 hlt) (not_lt.2 hle))]
  exact ENat.natCast_lt_add_one_iff.2 (le_wholePart_sub hstart hstop hn h)

end LatexCalc
