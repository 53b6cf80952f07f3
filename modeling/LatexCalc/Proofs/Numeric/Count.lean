import LatexCalc.Numeric.Arithmetic
import LatexCalc.Proofs.Numeric.Overflow

/-!
# Counts as doubles

Counts are rounded (`isRounded_ofCount`), those of 53 bits to themselves (`exactValue_ofCount`), and greater
ones to no lesser doubles (`exactValue_ofCount_mono`). So no number is rounded across a count of 53 bits
(`IsNearestDouble.le_natCast`), and none that is not negative to a negative one
(`IsRounded.exactValue_nonneg`).
-/

namespace LatexCalc

open Arithmetic

section

variable {i j k : ℕ}

theorem isRounded_ofCount (hk : k ≤ maxCount) : IsRounded k (ofCount k) :=
  isRounded_word (hk.trans_lt (by decide))

theorem isFinite_ofCount (hk : k ≤ maxCount) : (ofCount k : Float).isFinite = true :=
  (isNearestDouble_word (hk.trans_lt (by decide))).isFinite

theorem exactValue_ofCount (hk : k ≤ 2 ^ 53) : exactValue (ofCount k) = k :=
  exactValue_toFloat hk

theorem exactValue_ofCount_zero : exactValue (ofCount 0) = 0 :=
  exactValue_ofCount (Nat.zero_le _)

theorem exactValue_ofCount_mono (hij : i ≤ j) (hj : j ≤ maxCount) :
    exactValue (ofCount i) ≤ exactValue (ofCount j) := by
  rcases hij.eq_or_lt with rfl | hlt
  · exact le_rfl
  · have hi := hij.trans hj
    have hlow : -greatest ≤ i := (neg_nonpos.2 zero_le_greatest).trans i.cast_nonneg
    have hmono := (isRounded_ofCount hi).mono (isRounded_ofCount hj) hlow (by exact_mod_cast hlt)
    exact (le_iff (isFinite_ofCount hi) (isFinite_ofCount hj)).1 hmono

theorem exactValue_ofCount_nonneg (hk : k ≤ maxCount) : 0 ≤ exactValue (ofCount k) := by
  rw [← exactValue_ofCount_zero]
  exact exactValue_ofCount_mono (Nat.zero_le k) hk

theorem one_le_exactValue_ofCount (hpos : 0 < k) (hk : k ≤ maxCount) : 1 ≤ exactValue (ofCount k) := by
  have hone : exactValue (ofCount 1) = (1 : ℕ) := exactValue_ofCount (by decide)
  rw [← Nat.cast_one, ← hone]
  exact exactValue_ofCount_mono hpos hk

theorem exactValue_ofCount_le (hpos : 0 < k) (hk : k ≤ maxCount) : exactValue (ofCount k) ≤ 2 * k := by
  have hround := (isRounded_ofCount hk).exactValue_le_add k.cast_nonneg
  have hone : (1 : ℚ) ≤ k := by exact_mod_cast hpos
  have hgrain : (2 : ℚ) ^ (-1075 : ℤ) ≤ 1 / 2 :=
    (zpow_le_zpow_right₀ (n := -1) one_le_two (by decide)).trans_eq (by norm_num)
  linarith

end

/-! ## Rounding across counts -/

section

variable {x : ℚ} {y : Float} {k : ℕ}

/-- A number is not rounded across an integer of 53 bits. -/
theorem IsNearestDouble.le_natCast (h : IsNearestDouble x y) (hk : k ≤ 2 ^ 53) (hle : x ≤ k) :
    exactValue y ≤ k := by
  rw [← exactValue_ofCount hk] at hle ⊢
  exact h.le_of_le (isFinite_ofCount (hk.trans (by decide))) hle

theorem IsNearestDouble.natCast_le (h : IsNearestDouble x y) (hk : k ≤ 2 ^ 53) (hle : k ≤ x) :
    k ≤ exactValue y := by
  rw [← exactValue_ofCount hk] at hle ⊢
  exact h.ge_of_ge (isFinite_ofCount (hk.trans (by decide))) hle

/-- A number that is not negative is rounded to one that is not negative. -/
theorem IsRounded.exactValue_nonneg (h : IsRounded x y) (hx : 0 ≤ x) (hy : y.isFinite = true) :
    0 ≤ exactValue y := by
  have hzero : (ofCount 0 : Float).isFinite = true := isFinite_ofCount (Nat.zero_le _)
  have hle := h.le hzero (exactValue_ofCount_zero.trans_le hx)
  rwa [le_iff hzero hy, exactValue_ofCount_zero] at hle

end

end LatexCalc
