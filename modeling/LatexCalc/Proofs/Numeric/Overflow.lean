import LatexCalc.Proofs.Numeric.Sum

/-!
# Overflow

What lies far enough beyond the greatest double is rounded to infinity. Rounding keeps order there, too
(`IsRounded.mono`): what a double does not exceed is rounded to nothing below it (`IsRounded.le`), and what
does not exceed a double is rounded to nothing beyond it (`IsRounded.ge`).
-/

namespace LatexCalc

open Float.Model (UnpackedFloat)
open Float.Model.UnpackedFloat

/-! ## Infinity -/

/-- The positive infinity. -/
def IsInfinite (x : Float) : Prop :=
  x.toModel.unpack = .infinity .positive

section

variable {x y : Float}

theorem unpack_of_isFinite (hx : x.isFinite = true) :
    (∃ s, x.toModel.unpack = .zero s) ∨ ∃ s m e hm, x.toModel.unpack = .finite s m e hm := by
  change x.toModel.unpack.isFinite = true at hx
  cases hu : x.toModel.unpack with
  | notANumber | infinity =>
    rw [hu] at hx
    cases hx
  | zero s => exact .inl ⟨s, rfl⟩
  | finite s m e hm => exact .inr ⟨s, m, e, hm, rfl⟩

theorem IsInfinite.ge_of_isFinite (hy : IsInfinite y) (hx : x.isFinite = true) : x ≤ y := by
  rw [le_iff_compare, hy]
  rcases unpack_of_isFinite hx with ⟨s, hu⟩ | ⟨s, m, e, hm, hu⟩ <;> rw [hu] <;> rfl

theorem IsInfinite.not_le (hx : IsInfinite x) (hy : y.isFinite = true) : ¬x ≤ y := by
  rw [le_iff_compare, hx]
  rcases unpack_of_isFinite hy with ⟨s, hu⟩ | ⟨s, m, e, hm, hu⟩ <;> rw [hu] <;> exact Bool.false_ne_true

theorem IsInfinite.le (hx : IsInfinite x) (hy : IsInfinite y) : x ≤ y := by
  rw [le_iff_compare, hx, hy]
  rfl

theorem IsInfinite.add (hx : x.isFinite = true) (hy : IsInfinite y) : IsInfinite (x + y) := by
  have hadd : x + y = .ofModel (.pack (UnpackedFloat.add .binary64 x.toModel.unpack y.toModel.unpack)) := rfl
  have hsum : UnpackedFloat.add .binary64 x.toModel.unpack y.toModel.unpack = .infinity .positive := by
    rw [hy]
    rcases unpack_of_isFinite hx with ⟨s, hu⟩ | ⟨s, m, e, hm, hu⟩ <;> rw [hu] <;> rfl
  rw [IsInfinite, hadd, hsum]
  exact unpack_pack (u := .infinity .positive) trivial

end

theorem zero_le_greatest : 0 ≤ greatest :=
  (abs_nonneg _).trans (abs_exactValue_le 0)

theorem neg_greatest_le (x : Float) : -greatest ≤ exactValue x :=
  (abs_le.1 (abs_exactValue_le x)).1

/-- Beyond the greatest double all parts overflow. -/
theorem overflow_eq_infinity {u : UnpackedFloat} (hu : IsNormal u) (h : greatest < partsValue u) :
    overflow u = .infinity .positive := by
  cases u with
  | finite s m e hm =>
    have hlarge : 971 < e := by
      by_contra hsmall
      exact absurd (abs_partsValue_le hu (if_neg hsmall)) (not_le.2 (h.trans_le (le_abs_self _)))
    rw [overflow, if_pos hlarge]
    cases s with
    | positive => rfl
    | negative =>
      rw [partsValue_negative] at h
      have hvalue : (0 : ℚ) < m * 2 ^ e := by positivity
      linarith [zero_le_greatest]
  | _ => exact absurd h (not_lt.2 zero_le_greatest)

/-! ## Order -/

/-- A number that is not farther from the greater one of two numbers is not before their middle. -/
theorem add_le_two_mul {x a b : ℚ} (h : |b - x| ≤ |a - x|) (hlt : a < b) : a + b ≤ 2 * x := by
  have hsquares : (b - x) ^ 2 ≤ (a - x) ^ 2 := sq_le_sq.2 h
  have hproduct : (b - a) * (a + b - 2 * x) ≤ 0 := by linarith
  linarith [nonpos_of_mul_nonpos_right hproduct (sub_pos.2 hlt)]

/-- A greater number does not have lesser nearest parts. -/
theorem IsNearestParts.mono {x x' : ℚ} {u u' : UnpackedFloat} (h : IsNearestParts x u)
    (h' : IsNearestParts x' u') (hlt : x < x') : partsValue u ≤ partsValue u' := by
  by_contra hgt
  have hmiddle := add_le_two_mul (h.le u' h'.isNormal) (not_le.1 hgt)
  have hdistance : |-partsValue u' - -x'| ≤ |-partsValue u - -x'| := by
    rw [← neg_sub', ← neg_sub', abs_neg, abs_neg]
    exact h'.le u h.isNormal
  have hmiddle' := add_le_two_mul hdistance (neg_lt_neg (not_le.1 hgt))
  linarith

namespace IsRounded

variable {x x' : ℚ} {y y' z : Float}

/-- A number that is not below all doubles is rounded to a double, or to the positive infinity if its nearest
parts are beyond the greatest double. -/
theorem finite_or_infinite (h : IsRounded x y) (hx : -greatest ≤ x) :
    ∃ u, IsNearestParts x u ∧
      (y.isFinite = true ∧ exactValue y = partsValue u ∨ IsInfinite y ∧ greatest < partsValue u) := by
  obtain ⟨u, hu, rfl⟩ := h
  have hunpack : (Float.ofModel (.pack u)).toModel.unpack = overflow u := unpack_pack hu.isNormal
  refine ⟨u, hu, ?_⟩
  rcases le_or_gt (partsValue u) greatest with hle | hgt
  · rw [overflow_eq_self hu.isNormal (abs_le.2 ⟨hu.neg_greatest_le hx, hle⟩)] at hunpack
    refine .inl ⟨?_, congrArg partsValue hunpack⟩
    show (Float.ofModel (.pack u)).toModel.unpack.isFinite = true
    rw [hunpack]
    exact hu.isFinite
  · exact .inr ⟨hunpack.trans (overflow_eq_infinity hu.isNormal hgt), hgt⟩

theorem isFinite_or_isInfinite (h : IsRounded x y) (hx : -greatest ≤ x) :
    y.isFinite = true ∨ IsInfinite y := by
  obtain ⟨u, -, hy⟩ := h.finite_or_infinite hx
  exact hy.imp And.left And.left

theorem le_self (h : IsRounded x y) (hx : -greatest ≤ x) : y ≤ y := by
  rcases h.isFinite_or_isInfinite hx with hy | hy
  · exact (le_iff hy hy).2 le_rfl
  · exact hy.le hy

/-- **Rounding keeps order**, also where numbers overflow. -/
theorem mono (h : IsRounded x y) (h' : IsRounded x' y') (hx : -greatest ≤ x) (hlt : x < x') :
    y ≤ y' := by
  obtain ⟨u, hu, hy⟩ := h.finite_or_infinite hx
  obtain ⟨u', hu', hy'⟩ := h'.finite_or_infinite (hx.trans hlt.le)
  have hle := hu.mono hu' hlt
  rcases hy with ⟨hfinite, hvalue⟩ | ⟨hinfinite, hgt⟩
  · rcases hy' with ⟨hfinite', hvalue'⟩ | ⟨hinfinite', -⟩
    · rwa [le_iff hfinite hfinite', hvalue, hvalue']
    · exact hinfinite'.ge_of_isFinite hfinite
  · rcases hy' with ⟨-, hvalue'⟩ | ⟨hinfinite', -⟩
    · have hgreatest := (le_abs_self _).trans (abs_exactValue_le y')
      rw [hvalue'] at hgreatest
      exact absurd (hgt.trans_le hle) (not_lt.2 hgreatest)
    · exact hinfinite.le hinfinite'

/-- What a double does not exceed is rounded to nothing below it. -/
theorem le (h : IsRounded x y) (hz : z.isFinite = true) (hle : exactValue z ≤ x) : z ≤ y := by
  obtain ⟨u, hu, ⟨hfinite, hvalue⟩ | ⟨hinfinite, -⟩⟩ :=
    h.finite_or_infinite ((neg_greatest_le z).trans hle)
  · rw [le_iff hz hfinite, hvalue]
    exact hu.ge_of_ge (isNormal_unpack _) hle
  · exact hinfinite.ge_of_isFinite hz

/-- What does not exceed a double is rounded to a double that does not, either. -/
theorem ge (h : IsRounded x y) (hx : -greatest ≤ x) (hle : x ≤ exactValue z) :
    y.isFinite = true ∧ exactValue y ≤ exactValue z := by
  obtain ⟨u, hu, hy⟩ := h.finite_or_infinite hx
  have hparts : partsValue u ≤ exactValue z := hu.le_of_le (isNormal_unpack _) hle
  rcases hy with ⟨hfinite, hvalue⟩ | ⟨-, hgt⟩
  · exact ⟨hfinite, hvalue.trans_le hparts⟩
  · exact absurd (hgt.trans_le hparts) (not_lt.2 ((le_abs_self _).trans (abs_exactValue_le z)))

/-- Only what is beyond the greatest double is rounded to infinity. -/
theorem greatest_lt (h : IsRounded x y) (hx : -greatest ≤ x) (hy : IsInfinite y) : greatest < x := by
  obtain ⟨u, hu, ⟨hfinite, -⟩ | ⟨-, hgt⟩⟩ := h.finite_or_infinite hx
  · exact absurd (hy.le hy) (hy.not_le hfinite)
  · by_contra hle
    exact absurd (hu.le_greatest (not_lt.1 hle)) (not_le.2 hgt)

/-- A number beyond a double is rounded to a double that is at most twice as far beyond it. -/
theorem exactValue_le_add_two_mul {d : ℚ} (h : IsRounded x y) (hx : -greatest ≤ x) (hy : y.isFinite = true)
    (hd : 0 ≤ d) (hle : x ≤ exactValue z + d) : exactValue y ≤ exactValue z + 2 * d := by
  obtain ⟨u, hu, ⟨-, hvalue⟩ | ⟨hinfinite, -⟩⟩ := h.finite_or_infinite hx
  · rw [hvalue]
    rcases le_or_gt x (exactValue z) with hin | hout
    · have hparts : partsValue u ≤ exactValue z := hu.le_of_le (isNormal_unpack _) hin
      linarith
    · have hdistance : |partsValue u - x| ≤ |exactValue z - x| := hu.le _ (isNormal_unpack _)
      rw [abs_of_neg (sub_neg.2 hout)] at hdistance
      linarith [le_abs_self (partsValue u - x)]
  · exact absurd (hinfinite.le hinfinite) (hinfinite.not_le hy)

/-- **The error of a rounded number**, from above. -/
theorem exactValue_le_add (h : IsRounded x y) (hx : 0 ≤ x) :
    exactValue y ≤ x + (x / 2 ^ 53 + 2 ^ (-1075 : ℤ)) := by
  rcases le_or_gt x greatest with hle | hgt
  · have hnearest := h.isNearestDouble (by rwa [abs_of_nonneg hx])
    linarith [le_abs_self (exactValue y - x), hnearest.abs_sub_le_add hx hle]
  · have hgreatest := (le_abs_self _).trans (abs_exactValue_le y)
    have herror : 0 ≤ x / 2 ^ 53 + 2 ^ (-1075 : ℤ) := by positivity
    linarith

end IsRounded

/-! ## Doubles of one value -/

theorem grain_of_isNormal {s : Sign} {m : Nat} {e : Int} {hm : 0 < m} (h : IsNormal (.finite s m e hm)) :
    grain m e = e := by
  obtain ⟨hbits, hlow, hnormal⟩ := h
  have hlog : m.log2 < 53 := (Nat.log2_lt hm.ne').2 hbits
  have hlog' : 2 ^ 52 ≤ m → 52 ≤ m.log2 := (Nat.le_log2 hm.ne').2
  unfold grain
  omega

/-- Positive doubles of one value have the same parts. -/
theorem unpack_eq_of_exactValue_eq {x y : Float} (hx : 0 < exactValue x)
    (h : exactValue x = exactValue y) : x.toModel.unpack = y.toModel.unpack := by
  obtain ⟨m, d, hm, hxu, hxn, hxv⟩ := parts_of_pos hx
  obtain ⟨n, e, hn, hyu, hyn, hyv⟩ := parts_of_pos (h ▸ hx)
  rw [hxv, hyv] at h
  have hexponent := grain_of_value hm hn h
  rw [grain_of_isNormal hxn, grain_of_isNormal hyn] at hexponent
  subst hexponent
  have hmantissa : m = n := by exact_mod_cast mul_right_cancel₀ (by positivity) h
  subst hmantissa
  rw [hxu, hyu]

end LatexCalc
