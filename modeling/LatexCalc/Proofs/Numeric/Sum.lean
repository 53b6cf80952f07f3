import LatexCalc.Proofs.Numeric.Accuracy

/-!
# Sums

Sums and differences are rounded (`isRounded_add`, `isRounded_sub`). The nearest double lies on the same side
of any other double as the number itself (`IsNearestDouble.le_of_le`), and it differs from the number by no
more than one part in two to the power of 53 (`IsNearestDouble.abs_sub_le_div`), or half of the least positive
double where the number is too small for that (`IsNearestDouble.abs_sub_le_add`).
-/

namespace LatexCalc

open Float.Model (Format UnpackedFloat)
open Float.Model.UnpackedFloat

/-! ## Negation -/

theorem partsValue_neg (u : UnpackedFloat) : partsValue u.neg = -partsValue u := by
  cases u with
  | finite s m e hm =>
    cases s with
    | negative =>
      rw [partsValue_negative, neg_neg]
      exact partsValue_positive hm
    | positive =>
      rw [partsValue_positive]
      exact partsValue_negative hm
  | _ => exact neg_zero.symm

theorem IsNormal.neg {u : UnpackedFloat} (h : IsNormal u) : IsNormal u.neg := by
  cases u <;> exact h

theorem IsNearestParts.neg {x : ℚ} {u : UnpackedFloat} (h : IsNearestParts x u) :
    IsNearestParts (-x) u.neg where
  isFinite := by
    have hu := h.isFinite
    cases u with
    | notANumber | infinity => cases hu
    | _ => rfl
  isNormal := h.isNormal.neg
  le v hv := by
    have hle := h.le v.neg hv.neg
    rw [partsValue_neg, ← abs_neg (-partsValue v - x), neg_sub', neg_neg] at hle
    rwa [partsValue_neg, ← neg_sub', abs_neg]

theorem unpack_neg (x : Float) : (-x).toModel.unpack = x.toModel.unpack.neg := by
  have hnormal : IsNormal x.toModel.unpack := isNormal_unpack _
  refine unpack_pack_eq hnormal.neg ?_
  rw [partsValue_neg, abs_neg]
  exact abs_exactValue_le x

theorem exactValue_neg (x : Float) : exactValue (-x) = -exactValue x := by
  rw [exactValue, unpack_neg, partsValue_neg, exactValue]

theorem isFinite_neg (x : Float) : (-x).isFinite = x.isFinite := by
  show (-x).toModel.unpack.isFinite = x.toModel.unpack.isFinite
  rw [unpack_neg]
  cases x.toModel.unpack <;> rfl

/-! ## Order -/

theorem le_iff_compare {x y : Float} :
    x ≤ y ↔ (UnpackedFloat.compare x.toModel.unpack y.toModel.unpack).any Ordering.isLE = true := by
  show decide (_ = true) = true ↔ _
  rw [decide_eq_true_iff]
  rfl

theorem le_iff {x y : Float} (hx : x.isFinite = true) (hy : y.isFinite = true) :
    x ≤ y ↔ exactValue x ≤ exactValue y := by
  rw [le_iff_compare, compare_eq hx hy (isNormal_unpack _) (isNormal_unpack _), Option.any_some,
    Ordering.isLE_iff_ne_gt, compare_gt_iff_gt, not_lt]
  rfl

namespace IsNearestDouble

variable {x : ℚ} {y z : Float}

theorem neg (h : IsNearestDouble x y) : IsNearestDouble (-x) (-y) where
  isFinite := (isFinite_neg y).trans h.isFinite
  le z hz := by
    have hle := h.le (-z) ((isFinite_neg z).trans hz)
    rw [exactValue_neg, ← abs_neg (-exactValue z - x), neg_sub', neg_neg] at hle
    rwa [exactValue_neg, ← neg_sub', abs_neg]

/-- **A number is not rounded beyond a double** that it does not exceed. -/
theorem le_of_le (h : IsNearestDouble x y) (hz : z.isFinite = true) (hle : x ≤ exactValue z) :
    exactValue y ≤ exactValue z := by
  have hdistance := h.le z hz
  rw [abs_of_nonneg (sub_nonneg.2 hle)] at hdistance
  linarith [le_abs_self (exactValue y - x)]

theorem ge_of_ge (h : IsNearestDouble x y) (hz : z.isFinite = true) (hle : exactValue z ≤ x) :
    exactValue z ≤ exactValue y := by
  have hneg := h.neg.le_of_le ((isFinite_neg z).trans hz) (by rw [exactValue_neg]; exact neg_le_neg hle)
  rw [exactValue_neg, exactValue_neg] at hneg
  exact neg_le_neg_iff.1 hneg

end IsNearestDouble

/-! ## Sums and differences -/

theorem round_negative (m : Nat) (e : Int) :
    UnpackedFloat.round .binary64 .negative m e = (UnpackedFloat.round .binary64 .positive m e).neg := by
  unfold UnpackedFloat.round roundWithAccuracy
  dsimp only
  split <;> rfl

theorem isFinite_round (s : Sign) (m : Nat) (e : Int) :
    (UnpackedFloat.round .binary64 s m e).isFinite = true :=
  isFinite_roundWithAccuracy s _ _ _

theorem isFinite_normalize (m e : Int) (s : Sign) :
    (UnpackedFloat.normalize .binary64 m e s).isFinite = true := by
  unfold UnpackedFloat.normalize
  split
  · exact isFinite_round _ _ e
  · rfl
  · exact isFinite_round _ _ e

theorem nearestParts_normalize (m e : Int) (s : Sign) :
    IsNearestParts (m * 2 ^ e) (UnpackedFloat.normalize .binary64 m e s) := by
  unfold UnpackedFloat.normalize
  rcases lt_trichotomy m 0 with hneg | rfl | hpos
  · have hvalue : (m : ℚ) = -((-m).toNat : ℕ) := by
      have hmantissa : ((-m).toNat : ℤ) = -m := Int.toNat_of_nonneg (by omega)
      rw [← Int.cast_natCast, hmantissa, Int.cast_neg, neg_neg]
    rw [compare_lt_iff_lt.2 hneg, hvalue, neg_mul, round_negative]
    exact (nearestParts_round (by omega) e).neg
  · rw [Int.cast_zero, zero_mul]
    exact IsNearestParts.self (u := .zero s) rfl trivial
  · have hvalue : (m : ℚ) = (m.toNat : ℕ) := by
      have hmantissa : (m.toNat : ℤ) = m := Int.toNat_of_nonneg hpos.le
      rw [← Int.cast_natCast, hmantissa]
    rw [compare_gt_iff_gt.2 hpos, hvalue]
    exact nearestParts_round (by omega) e

theorem isFinite_sub {u v : UnpackedFloat} (hu : u.isFinite = true) (hv : v.isFinite = true) :
    (sub .binary64 u v).isFinite = true := by
  cases u with
  | notANumber | infinity => cases hu
  | zero s =>
    cases v with
    | notANumber | infinity => cases hv
    | zero s' => cases s <;> cases s' <;> rfl
    | finite s' n e hn => rfl
  | finite s m d hm =>
    cases v with
    | notANumber | infinity => cases hv
    | zero s' => rfl
    | finite s' n e hn => exact isFinite_normalize _ _ _

/-- **Differences** are rounded. -/
theorem isRounded_sub {x y : Float} (hx : x.isFinite = true) (hy : y.isFinite = true) :
    IsRounded (exactValue x - exactValue y) (x - y) := by
  refine ⟨sub .binary64 x.toModel.unpack y.toModel.unpack, ?_, rfl⟩
  have hnormal : IsNormal (sub .binary64 x.toModel.unpack y.toModel.unpack) :=
    isNormal_sub (isNormal_unpack _) (isNormal_unpack _)
  unfold exactValue
  rcases sub_spec hx hy with hexact | ⟨m, e, hrounded, hvalue⟩
  · rw [← hexact]
    exact .self (isFinite_sub hx hy) hnormal
  · rw [hrounded, ← hvalue]
    exact nearestParts_normalize m e .positive

theorem isNearestDouble_sub {x y : Float} (hx : x.isFinite = true) (hy : y.isFinite = true)
    (hle : |exactValue x - exactValue y| ≤ greatest) :
    IsNearestDouble (exactValue x - exactValue y) (x - y) :=
  (isRounded_sub hx hy).isNearestDouble hle

theorem apply_neg (s : Sign) (m : Int) : (-s).apply m = -s.apply m := by
  cases s with
  | negative => exact (neg_neg m).symm
  | positive => rfl

theorem add_eq_sub_neg (u v : UnpackedFloat) : add .binary64 u v = sub .binary64 u v.neg := by
  cases u with
  | notANumber => rfl
  | infinity s =>
    cases v with
    | infinity s' => cases s <;> cases s' <;> rfl
    | _ => rfl
  | zero s =>
    cases v with
    | notANumber => rfl
    | infinity s' => cases s' <;> rfl
    | zero s' => cases s <;> cases s' <;> rfl
    | finite s' n e hn => cases s' <;> rfl
  | finite s m d hm =>
    cases v with
    | infinity s' => cases s' <;> rfl
    | finite s' n e hn =>
      show UnpackedFloat.normalize .binary64 (_ + s'.apply _) _ _ =
        UnpackedFloat.normalize .binary64 (_ - (-s').apply _) _ _
      rw [apply_neg, sub_neg_eq_add]
    | _ => rfl

/-- **Sums** are rounded. -/
theorem isRounded_add {x y : Float} (hx : x.isFinite = true) (hy : y.isFinite = true) :
    IsRounded (exactValue x + exactValue y) (x + y) := by
  have hadd : x + y = x - -y := by
    show Float.ofModel (.pack (add .binary64 x.toModel.unpack y.toModel.unpack)) =
      .ofModel (.pack (sub .binary64 x.toModel.unpack (-y).toModel.unpack))
    rw [unpack_neg, add_eq_sub_neg]
  rw [← sub_neg_eq_add, ← exactValue_neg, hadd]
  exact isRounded_sub hx ((isFinite_neg y).trans hy)

theorem isNearestDouble_add {x y : Float} (hx : x.isFinite = true) (hy : y.isFinite = true)
    (hle : |exactValue x + exactValue y| ≤ greatest) :
    IsNearestDouble (exactValue x + exactValue y) (x + y) :=
  (isRounded_add hx hy).isNearestDouble hle

/-! ## Relative errors -/

/-- The exponent at which a number has 53 bits. -/
theorem exists_grain {x : ℚ} (hx : 0 < x) : ∃ g : ℤ, 2 ^ 52 ≤ x / 2 ^ g ∧ x / 2 ^ g < 2 ^ 53 := by
  have hlow := Int.zpow_log_le_self one_lt_two hx
  have hhigh := Int.lt_zpow_succ_log_self one_lt_two x
  obtain ⟨g, hg⟩ : ∃ g, Int.log 2 x = 52 + g := ⟨Int.log 2 x - 52, by ring⟩
  have hg' : Int.log 2 x + 1 = 53 + g := by omega
  rw [hg', Nat.cast_ofNat, zpow_add₀ two_ne_zero] at hhigh
  rw [hg, Nat.cast_ofNat, zpow_add₀ two_ne_zero] at hlow
  exact ⟨g, (le_div_iff₀ (by positivity)).2 hlow, (div_lt_iff₀ (by positivity)).2 hhigh⟩

/-- **The relative error** of a nearest double. -/
theorem IsNearestDouble.abs_sub_le_div {x : ℚ} {y : Float} (h : IsNearestDouble x y)
    (hlow : 2 ^ (-1022 : ℤ) ≤ x) (hhigh : x ≤ greatest) : |exactValue y - x| ≤ x / 2 ^ 53 := by
  obtain ⟨g, hbits, hbits'⟩ := exists_grain (x := x) (lt_of_lt_of_le (by positivity) hlow)
  obtain ⟨n, hn⟩ := IsNearest.exists_isNearest (x / 2 ^ g)
  have hunit : (0 : ℚ) < 2 ^ g := by positivity
  have hlow' : (2 ^ 52 : ℕ) ≤ n := (IsNearest.intCast _).mono hn (by exact_mod_cast hbits)
  have hhigh' : n ≤ (2 ^ 53 : ℕ) := hn.mono (.intCast _) (by exact_mod_cast hbits'.le)
  lift n to ℕ using (Int.natCast_nonneg _).trans hlow'
  have hg : -1074 ≤ g := by
    have hlt : (2 : ℚ) ^ (-1022 : ℤ) < 2 ^ (53 + g) := by
      rw [zpow_add₀ two_ne_zero]
      exact hlow.trans_lt ((div_lt_iff₀ hunit).1 hbits')
    have hexponent := (zpow_lt_zpow_iff_right₀ one_lt_two).1 hlt
    omega
  obtain ⟨z, hz, hvalue⟩ := exists_exactValue_eq (.inl (by exact_mod_cast hlow'))
    (by exact_mod_cast hhigh') hg (le_greatest hn (.inr hbits) hhigh)
  calc |exactValue y - x| ≤ |exactValue z - x| := h.le z hz
    _ = |n - x / 2 ^ g| * 2 ^ g := by rw [hvalue, distance_mul hunit]
    _ ≤ 1 / 2 * (x / 2 ^ 52) := by
      gcongr
      · exact hn.near
      · rw [le_div_iff₀ (by positivity), mul_comm]
        exact (le_div_iff₀ hunit).1 hbits
    _ = x / 2 ^ 53 := by ring

/-- **The error** of a nearest double: a number that is too small for all bits is rounded to a multiple of the
least positive double. -/
theorem IsNearestDouble.abs_sub_le_add {x : ℚ} {y : Float} (h : IsNearestDouble x y) (hx : 0 ≤ x)
    (hhigh : x ≤ greatest) : |exactValue y - x| ≤ x / 2 ^ 53 + 2 ^ (-1075 : ℤ) := by
  rcases le_or_gt (2 ^ (-1022 : ℤ)) x with hlow | hsmall
  · have herror := h.abs_sub_le_div hlow hhigh
    have hpos : (0 : ℚ) < 2 ^ (-1075 : ℤ) := by positivity
    linarith
  obtain ⟨unit, hunit⟩ : ∃ unit : ℚ, unit = 2 ^ (-1074 : ℤ) := ⟨_, rfl⟩
  have hpos : 0 < unit := by rw [hunit]; positivity
  have hsmallest : (2 ^ 52 : ℕ) * unit = 2 ^ (-1022 : ℤ) := by
    rw [hunit, Nat.cast_pow, Nat.cast_ofNat, ← zpow_natCast, ← zpow_add₀ two_ne_zero]
    rfl
  have hhalf : unit / 2 = 2 ^ (-1075 : ℤ) := by
    rw [hunit, div_eq_iff two_ne_zero, ← zpow_add_one₀ two_ne_zero]
    rfl
  obtain ⟨n, hn⟩ := IsNearest.exists_isNearest (x / unit)
  have hlow : (0 : ℕ) ≤ n := (IsNearest.intCast _).mono hn (by push_cast; positivity)
  have hhigh' : n ≤ (2 ^ 52 : ℕ) := hn.mono (.intCast _) (by
    rw [div_le_iff₀ hpos]
    exact_mod_cast hsmall.le.trans hsmallest.ge)
  lift n to ℕ using hlow
  have hle : (n : ℚ) * 2 ^ (-1074 : ℤ) ≤ greatest := by
    rw [← hunit]
    calc (n : ℚ) * unit ≤ (2 ^ 52 : ℕ) * unit := by
          gcongr
          exact_mod_cast hhigh'
      _ = 2 ^ (-1022 : ℤ) := hsmallest
      _ ≤ ((1 : ℕ) : ℚ) := by
          rw [Nat.cast_one]
          exact zpow_le_one_of_nonpos₀ one_le_two (by decide)
      _ ≤ greatest := natCast_le_greatest (by decide)
  obtain ⟨z, hz, hvalue⟩ := exists_exactValue_eq (.inr rfl) (by omega) le_rfl hle
  calc |exactValue y - x| ≤ |exactValue z - x| := h.le z hz
    _ = |n - x / unit| * unit := by rw [hvalue, ← hunit, distance_mul hpos]
    _ ≤ 1 / 2 * unit := by
      gcongr
      exact hn.near
    _ = 2 ^ (-1075 : ℤ) := by rw [← hhalf, one_div_mul_eq_div]
    _ ≤ x / 2 ^ 53 + 2 ^ (-1075 : ℤ) := le_add_of_nonneg_left (by positivity)

end LatexCalc
