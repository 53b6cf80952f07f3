import LatexCalc.Proofs.Numeric.Count
import LatexCalc.Proofs.Numeric.Samples

/-!
# Where doubles are sampled

The distance of two samples is a rounded quotient of a rounded difference, and every sample point a rounded
sum of the lower bound and a rounded product. All that keeps order, so the points ascend from the lower bound
(`IsSampled.samplePoint_mono`), and it is the last one that decides whether all lie between the bounds
(`simpsonCalls_bounds`). It may lie beyond the upper bound, as it does from 0.3 to 0.9
(`simpsonCalls_beyond_upper`), but only by little (`sampleMargin`).
-/

namespace LatexCalc

open Arithmetic
open Float.Model (UnpackedFloat)
open Float.Model.UnpackedFloat

/-! ## Products with zero -/

theorem unpack_of_exactValue_eq_zero {x : Float} (hx : x.isFinite = true) (h : exactValue x = 0) :
    ∃ s, x.toModel.unpack = .zero s := by
  rcases unpack_of_isFinite hx with hzero | ⟨s, m, e, hm, hu⟩
  · exact hzero
  · have hpos : (0 : ℚ) < m * 2 ^ e := by positivity
    rw [exactValue, hu, ← abs_eq_zero, abs_partsValue] at h
    exact absurd h hpos.ne'

theorem isRounded_mul_of_eq_zero {x y : Float} (hx : x.isFinite = true) (hy : y.isFinite = true)
    (h : exactValue x = 0 ∨ exactValue y = 0) : IsRounded (exactValue x * exactValue y) (x * y) := by
  have hproduct : ∃ s, mul .binary64 x.toModel.unpack y.toModel.unpack = .zero s := by
    rcases h with h | h
    · obtain ⟨s, hzero⟩ := unpack_of_exactValue_eq_zero hx h
      rw [hzero]
      rcases unpack_of_isFinite hy with ⟨s', hu⟩ | ⟨s', m, e, hm, hu⟩ <;> exact ⟨_, by rw [hu]; rfl⟩
    · obtain ⟨s, hzero⟩ := unpack_of_exactValue_eq_zero hy h
      rw [hzero]
      rcases unpack_of_isFinite hx with ⟨s', hu⟩ | ⟨s', m, e, hm, hu⟩ <;> exact ⟨_, by rw [hu]; rfl⟩
  have hmul : x * y = .ofModel (.pack (mul .binary64 x.toModel.unpack y.toModel.unpack)) := rfl
  obtain ⟨s, hs⟩ := hproduct
  rw [mul_eq_zero.2 h, hmul, hs]
  exact ⟨_, .self (u := .zero _) rfl trivial, rfl⟩

theorem isRounded_zero_div {x y : Float} (hx : x.isFinite = true) (h : exactValue x = 0)
    (hy : 0 < exactValue y) : IsRounded (exactValue x / exactValue y) (x / y) := by
  obtain ⟨n, e, hn, hyu, -⟩ := parts_of_pos hy
  obtain ⟨s, hxu⟩ := unpack_of_exactValue_eq_zero hx h
  have hdiv : x / y = .ofModel (.pack (div .binary64 x.toModel.unpack y.toModel.unpack)) := rfl
  rw [h, zero_div, hdiv, hxu, hyu]
  exact ⟨_, .self (u := .zero _) rfl trivial, rfl⟩

/-! ## Order of products and sums -/

/-- Two doubles that a double is rounded to are equal in order. -/
theorem IsRounded.le_of_exactValue {y y' z : Float} (h : IsRounded (exactValue z) y)
    (h' : IsRounded (exactValue z) y') : y ≤ y' := by
  obtain ⟨hfinite, hle⟩ := h.ge (neg_greatest_le z) le_rfl
  exact h'.le hfinite hle

section

variable {h : Float} {i j k : ℕ}

/-- The products of counts and a distance are rounded. -/
theorem isRounded_count_mul (hk : k ≤ maxCount) (hh : h.isFinite = true) (hnonneg : 0 ≤ exactValue h) :
    IsRounded (exactValue (ofCount k) * exactValue h) (ofCount k * h) := by
  rcases hnonneg.eq_or_lt with hzero | hpos
  · exact isRounded_mul_of_eq_zero (isFinite_ofCount hk) hh (.inr hzero.symm)
  rcases Nat.eq_zero_or_pos k with rfl | hkpos
  · exact isRounded_mul_of_eq_zero (isFinite_ofCount hk) hh (.inl exactValue_ofCount_zero)
  · exact isRounded_mul (one_le_exactValue_ofCount hkpos hk) hpos

theorem neg_greatest_le_count_mul (hk : k ≤ maxCount) (hnonneg : 0 ≤ exactValue h) :
    -greatest ≤ exactValue (ofCount k) * exactValue h :=
  (neg_nonpos.2 zero_le_greatest).trans (mul_nonneg (exactValue_ofCount_nonneg hk) hnonneg)

theorem count_mul_mono (hij : i ≤ j) (hj : j ≤ maxCount) (hh : h.isFinite = true)
    (hnonneg : 0 ≤ exactValue h) : ofCount i * h ≤ ofCount j * h := by
  have hi := hij.trans hj
  have hround := isRounded_count_mul hi hh hnonneg
  have hround' := isRounded_count_mul hj hh hnonneg
  have hle : exactValue (ofCount i) * exactValue h ≤ exactValue (ofCount j) * exactValue h :=
    mul_le_mul_of_nonneg_right (exactValue_ofCount_mono hij hj) hnonneg
  rcases hle.eq_or_lt with heq | hlt
  · rcases (mul_nonneg (exactValue_ofCount_nonneg hi) hnonneg).eq_or_lt with hzero | hpos
    · rw [← hzero, ← exactValue_ofCount_zero] at hround
      rw [← heq, ← hzero, ← exactValue_ofCount_zero] at hround'
      exact hround.le_of_exactValue hround'
    · -- Nearness alone leaves ties open; but counts of one value are one double, and so are their products.
      have hvalue : 0 < exactValue h := pos_of_mul_pos_right hpos (exactValue_ofCount_nonneg hi)
      have hcount : 0 < exactValue (ofCount i) := pos_of_mul_pos_left hpos hnonneg
      have hparts := unpack_eq_of_exactValue_eq hcount (mul_right_cancel₀ hvalue.ne' heq)
      have hproduct : ofCount i * h = ofCount j * h :=
        congrArg (fun u => Float.ofModel (.pack (mul .binary64 u h.toModel.unpack))) hparts
      rw [← hproduct]
      exact hround.le_self (neg_greatest_le_count_mul hi hnonneg)
  · exact hround.mono hround' (neg_greatest_le_count_mul hi hnonneg) hlt

end

/-- Sums with greater numbers are not less. -/
theorem add_mono_right {x p q : Float} (hx : x.isFinite = true) (hp : p.isFinite = true)
    (hq : q.isFinite = true ∨ IsInfinite q) (hnonneg : 0 ≤ exactValue p) (hle : p ≤ q) : x + p ≤ x + q := by
  have hlow : -greatest ≤ exactValue x + exactValue p := by linarith [neg_greatest_le x]
  rcases hq with hq | hq
  · rcases ((le_iff hp hq).1 hle).eq_or_lt with heq | hlt
    · rcases hnonneg.eq_or_lt with hzero | hpos
      · have hround := isRounded_add hx hp
        have hround' := isRounded_add hx hq
        rw [← hzero, add_zero] at hround
        rw [← heq, ← hzero, add_zero] at hround'
        exact hround.le_of_exactValue hround'
      · have hsum : x + p = x + q :=
          congrArg (fun u => Float.ofModel (.pack (add .binary64 x.toModel.unpack u)))
            (unpack_eq_of_exactValue_eq hpos heq)
        rw [← hsum]
        exact (isRounded_add hx hp).le_self hlow
    · exact (isRounded_add hx hp).mono (isRounded_add hx hq) hlow (by linarith)
  · rcases (isRounded_add hx hp).isFinite_or_isInfinite hlow with hsum | hsum
    · exact (hq.add hx).ge_of_isFinite hsum
    · exact hsum.le (hq.add hx)

/-! ## The points of a rule -/

/-- Finite bounds in order, whose difference is finite, too, and at least two steps between them. -/
structure IsSampled (lower upper : Float) (n : ℕ) : Prop where
  isFinite_lower : lower.isFinite = true
  isFinite_upper : upper.isFinite = true
  le : lower ≤ upper
  isFinite_difference : (upper - lower).isFinite = true
  two_le : 2 ≤ n
  le_maxCount : n ≤ maxCount

/-- How far a sample of a rule is beyond its upper bound at most: a small part of the distance of the bounds,
and a few least positive doubles for every step. -/
def sampleMargin (lower upper : Float) (n : ℕ) : ℚ :=
  (exactValue upper - exactValue lower) / 2 ^ 50 + n * 2 ^ (-1072 : ℤ)

namespace IsSampled

variable {lower upper : Float} {n i j : ℕ}

theorem width_nonneg (h : IsSampled lower upper n) : 0 ≤ exactValue upper - exactValue lower :=
  sub_nonneg.2 ((le_iff h.isFinite_lower h.isFinite_upper).1 h.le)

theorem sampleMargin_nonneg (h : IsSampled lower upper n) : 0 ≤ sampleMargin lower upper n :=
  add_nonneg (div_nonneg h.width_nonneg (by positivity)) (by positivity)

theorem isRounded_difference (h : IsSampled lower upper n) :
    IsRounded (exactValue upper - exactValue lower) (upper - lower) :=
  isRounded_sub h.isFinite_upper h.isFinite_lower

theorem difference_nonneg (h : IsSampled lower upper n) : 0 ≤ exactValue (upper - lower) :=
  h.isRounded_difference.exactValue_nonneg h.width_nonneg h.isFinite_difference

theorem one_le_count (h : IsSampled lower upper n) : 1 ≤ exactValue (ofCount n) :=
  one_le_exactValue_ofCount (Nat.zero_lt_two.trans_le h.two_le) h.le_maxCount

theorem isRounded_distance (h : IsSampled lower upper n) :
    IsRounded (exactValue (upper - lower) / exactValue (ofCount n)) (sampleDistance lower upper n) := by
  have hcount := zero_lt_one.trans_le h.one_le_count
  rcases h.difference_nonneg.eq_or_lt with hzero | hpos
  · exact isRounded_zero_div h.isFinite_difference hzero.symm hcount
  · exact isRounded_div hpos hcount

theorem quotient_nonneg (h : IsSampled lower upper n) :
    0 ≤ exactValue (upper - lower) / exactValue (ofCount n) :=
  div_nonneg h.difference_nonneg (zero_le_one.trans h.one_le_count)

theorem isFinite_distance (h : IsSampled lower upper n) :
    (sampleDistance lower upper n).isFinite = true := by
  have hlow := (neg_nonpos.2 zero_le_greatest).trans h.quotient_nonneg
  exact (h.isRounded_distance.ge hlow (div_le_self h.difference_nonneg h.one_le_count)).1

theorem distance_nonneg (h : IsSampled lower upper n) : 0 ≤ exactValue (sampleDistance lower upper n) :=
  h.isRounded_distance.exactValue_nonneg h.quotient_nonneg h.isFinite_distance

/-- How far the points are from the lower bound is a rounded product. -/
theorem isRounded_product (h : IsSampled lower upper n) (hi : i ≤ n) :
    IsRounded (exactValue (ofCount i) * exactValue (sampleDistance lower upper n))
      (ofCount i * sampleDistance lower upper n) :=
  isRounded_count_mul (hi.trans h.le_maxCount) h.isFinite_distance h.distance_nonneg

theorem neg_greatest_le_product (h : IsSampled lower upper n) (hi : i ≤ n) :
    -greatest ≤ exactValue (ofCount i) * exactValue (sampleDistance lower upper n) :=
  neg_greatest_le_count_mul (hi.trans h.le_maxCount) h.distance_nonneg

theorem product_nonneg (h : IsSampled lower upper n) (hi : i ≤ n)
    (hfinite : (ofCount i * sampleDistance lower upper n).isFinite = true) :
    0 ≤ exactValue (ofCount i * sampleDistance lower upper n) :=
  (h.isRounded_product hi).exactValue_nonneg
    (mul_nonneg (exactValue_ofCount_nonneg (hi.trans h.le_maxCount)) h.distance_nonneg) hfinite

/-- A point is a rounded sum, or infinite as the product is. -/
theorem isRounded_samplePoint_or (h : IsSampled lower upper n) (hi : i ≤ n) :
    let p := ofCount i * sampleDistance lower upper n
    let x := samplePoint lower (sampleDistance lower upper n) i
    p.isFinite = true ∧ 0 ≤ exactValue p ∧ IsRounded (exactValue lower + exactValue p) x ∨
      IsInfinite p ∧ IsInfinite x := by
  intro p x
  rcases (h.isRounded_product hi).isFinite_or_isInfinite (h.neg_greatest_le_product hi) with hp | hp
  · exact .inl ⟨hp, h.product_nonneg hi hp, isRounded_add h.isFinite_lower hp⟩
  · exact .inr ⟨hp, hp.add h.isFinite_lower⟩

theorem lower_le_samplePoint (h : IsSampled lower upper n) (hi : i ≤ n) :
    lower ≤ samplePoint lower (sampleDistance lower upper n) i := by
  rcases h.isRounded_samplePoint_or hi with ⟨-, hp, hx⟩ | ⟨-, hx⟩
  · exact hx.le h.isFinite_lower (le_add_of_nonneg_right hp)
  · exact hx.ge_of_isFinite h.isFinite_lower

theorem isFinite_or_isInfinite_samplePoint (h : IsSampled lower upper n) (hi : i ≤ n) :
    (samplePoint lower (sampleDistance lower upper n) i).isFinite = true ∨
      IsInfinite (samplePoint lower (sampleDistance lower upper n) i) := by
  rcases h.isRounded_samplePoint_or hi with ⟨-, hp, hx⟩ | ⟨-, hx⟩
  · exact hx.isFinite_or_isInfinite ((neg_greatest_le lower).trans (le_add_of_nonneg_right hp))
  · exact .inr hx

/-- **The points ascend.** -/
theorem samplePoint_mono (h : IsSampled lower upper n) (hij : i ≤ j) (hj : j ≤ n) :
    samplePoint lower (sampleDistance lower upper n) i ≤
      samplePoint lower (sampleDistance lower upper n) j := by
  have hproducts : ofCount i * sampleDistance lower upper n ≤ ofCount j * sampleDistance lower upper n :=
    count_mul_mono hij (hj.trans h.le_maxCount) h.isFinite_distance h.distance_nonneg
  have hq := (h.isRounded_product hj).isFinite_or_isInfinite (h.neg_greatest_le_product hj)
  rcases h.isRounded_samplePoint_or (hij.trans hj) with ⟨hfinite, hnonneg, -⟩ | ⟨hinfinite, hx⟩
  · exact add_mono_right h.isFinite_lower hfinite hq hnonneg hproducts
  · have hq' := hq.resolve_left fun hfinite => hinfinite.not_le hfinite hproducts
    exact hx.le (hq'.add h.isFinite_lower)

/-- A point is not beyond the upper bound if the last one is not. -/
theorem samplePoint_le (h : IsSampled lower upper n) (hi : i ≤ n)
    (hlast : samplePoint lower (sampleDistance lower upper n) n ≤ upper) :
    samplePoint lower (sampleDistance lower upper n) i ≤ upper := by
  have hmono := h.samplePoint_mono hi le_rfl
  have hlast' := (h.isFinite_or_isInfinite_samplePoint le_rfl).resolve_right
    fun hinfinite => hinfinite.not_le h.isFinite_upper hlast
  have hx := (h.isFinite_or_isInfinite_samplePoint hi).resolve_right
    fun hinfinite => hinfinite.not_le hlast' hmono
  rw [le_iff hx h.isFinite_upper]
  exact ((le_iff hx hlast').1 hmono).trans ((le_iff hlast' h.isFinite_upper).1 hlast)

/-- The last point is not beyond the upper bound if neither the difference nor the distance is too great. -/
theorem last_le (h : IsSampled lower upper n)
    (hdifference : exactValue (upper - lower) ≤ exactValue upper - exactValue lower)
    (hdistance : exactValue (ofCount n) * exactValue (sampleDistance lower upper n) ≤
      exactValue (upper - lower)) :
    samplePoint lower (sampleDistance lower upper n) n ≤ upper := by
  obtain ⟨hfinite, hle⟩ := (h.isRounded_product le_rfl).ge (h.neg_greatest_le_product le_rfl) hdistance
  have hsum :
      exactValue lower + exactValue (ofCount n * sampleDistance lower upper n) ≤ exactValue upper := by
    linarith
  have hlow := (neg_greatest_le lower).trans (le_add_of_nonneg_right (h.product_nonneg le_rfl hfinite))
  obtain ⟨hx, hle'⟩ := (isRounded_add h.isFinite_lower hfinite).ge hlow hsum
  exact (le_iff hx h.isFinite_upper).2 hle'

/-- The distance comes close to the part of the width that it is meant to be. -/
theorem count_mul_distance_le (h : IsSampled lower upper n) :
    exactValue (ofCount n) * exactValue (sampleDistance lower upper n) ≤
      exactValue (upper - lower) + exactValue (upper - lower) / 2 ^ 53 +
        exactValue (ofCount n) * 2 ^ (-1075 : ℤ) := by
  have hcount := zero_lt_one.trans_le h.one_le_count
  have hround := h.isRounded_distance.exactValue_le_add h.quotient_nonneg
  calc exactValue (ofCount n) * exactValue (sampleDistance lower upper n)
      ≤ exactValue (ofCount n) * (exactValue (upper - lower) / exactValue (ofCount n) +
          (exactValue (upper - lower) / exactValue (ofCount n) / 2 ^ 53 + 2 ^ (-1075 : ℤ))) :=
        mul_le_mul_of_nonneg_left hround hcount.le
    _ = exactValue (ofCount n) * (exactValue (upper - lower) / exactValue (ofCount n)) +
          exactValue (ofCount n) * (exactValue (upper - lower) / exactValue (ofCount n)) / 2 ^ 53 +
          exactValue (ofCount n) * 2 ^ (-1075 : ℤ) := by
        ring
    _ = exactValue (upper - lower) + exactValue (upper - lower) / 2 ^ 53 +
          exactValue (ofCount n) * 2 ^ (-1075 : ℤ) := by
        rw [mul_div_cancel₀ _ hcount.ne']

/-- No product is far beyond the width. -/
theorem product_le (h : IsSampled lower upper n) (hi : i ≤ n) :
    let width := exactValue upper - exactValue lower
    let product := exactValue (ofCount i) * exactValue (sampleDistance lower upper n)
    product + (product / 2 ^ 53 + 2 ^ (-1075 : ℤ)) ≤ width + sampleMargin lower upper n / 2 := by
  intro width product
  obtain ⟨grain, hgrain⟩ : ∃ grain : ℚ, grain = 2 ^ (-1075 : ℤ) := ⟨_, rfl⟩
  have hpos : 0 < grain := by rw [hgrain]; positivity
  have hmargin : sampleMargin lower upper n = width / 2 ^ 50 + 8 * (n * grain) := by
    have hgrain' : (2 : ℚ) ^ (-1072 : ℤ) = 2 ^ (3 : ℤ) * 2 ^ (-1075 : ℤ) := by
      rw [← zpow_add₀ two_ne_zero]
      rfl
    rw [sampleMargin, hgrain', ← hgrain]
    ring
  have hdifference := h.isRounded_difference.exactValue_le_add h.width_nonneg
  have hdistance := h.count_mul_distance_le
  have hproduct : product ≤ exactValue (ofCount n) * exactValue (sampleDistance lower upper n) :=
    mul_le_mul_of_nonneg_right (exactValue_ofCount_mono hi h.le_maxCount) h.distance_nonneg
  have hcount : exactValue (ofCount n) * grain ≤ 2 * n * grain :=
    mul_le_mul_of_nonneg_right
      (exactValue_ofCount_le (Nat.zero_lt_two.trans_le h.two_le) h.le_maxCount) hpos.le
  have hsteps : 2 * grain ≤ n * grain :=
    mul_le_mul_of_nonneg_right (by exact_mod_cast h.two_le) hpos.le
  have hwidth : 0 ≤ width := h.width_nonneg
  rw [hmargin]
  rw [← hgrain] at hdifference hdistance ⊢
  linarith

/-- **No point is far beyond the upper bound**, unless numbers overflow. -/
theorem exactValue_samplePoint_le (h : IsSampled lower upper n) (hi : i ≤ n) :
    let x := samplePoint lower (sampleDistance lower upper n) i
    x.isFinite = true ∧ exactValue x ≤ exactValue upper + sampleMargin lower upper n ∨
      IsInfinite x ∧ greatest <
        max (exactValue upper) (exactValue upper - exactValue lower) + sampleMargin lower upper n := by
  intro x
  have hmargin := h.sampleMargin_nonneg
  have hproduct := h.product_le hi
  have hnonneg : 0 ≤ exactValue (ofCount i) * exactValue (sampleDistance lower upper n) :=
    mul_nonneg (exactValue_ofCount_nonneg (hi.trans h.le_maxCount)) h.distance_nonneg
  rcases h.isRounded_samplePoint_or hi with ⟨-, hp, hx⟩ | ⟨hp, hx⟩
  · have hlow := (neg_greatest_le lower).trans (le_add_of_nonneg_right hp)
    have hround := ((h.isRounded_product hi).exactValue_le_add hnonneg).trans hproduct
    have hsum : exactValue lower + exactValue (ofCount i * sampleDistance lower upper n) ≤
        exactValue upper + sampleMargin lower upper n / 2 := by linarith
    rcases hx.isFinite_or_isInfinite hlow with hfinite | hinfinite
    · have hle := hx.exactValue_le_add_two_mul hlow hfinite (div_nonneg hmargin zero_le_two) hsum
      exact .inl ⟨hfinite, by linarith⟩
    · have hgt := hx.greatest_lt hlow hinfinite
      exact .inr ⟨hinfinite, by
        linarith [le_max_left (exactValue upper) (exactValue upper - exactValue lower)]⟩
  · have hgt := (h.isRounded_product hi).greatest_lt (h.neg_greatest_le_product hi) hp
    have herror : (0 : ℚ) ≤ exactValue (ofCount i) * exactValue (sampleDistance lower upper n) / 2 ^ 53 +
        2 ^ (-1075 : ℤ) := by positivity
    exact .inr ⟨hx, by
      linarith [le_max_right (exactValue upper) (exactValue upper - exactValue lower)]⟩

end IsSampled

/-! ## What a rule samples -/

section

variable {ε : Type} {lower upper : Float} {n : ℕ}

/-- The points at which a function is called ascend. -/
theorem pairwise_simpsonCalls (h : IsSampled lower upper n) (f : Float → Except ε Float) :
    (simpsonCalls lower upper n f).Pairwise (· ≤ ·) := by
  rw [simpsonCalls_eq]
  refine List.Pairwise.sublist (upToFailure_isPrefix f _).sublist (List.pairwise_map.2 ?_)
  refine List.pairwise_lt_range.imp_of_mem fun _ hj hij => ?_
  exact h.samplePoint_mono hij.le (Nat.lt_succ_iff.1 (List.mem_range.1 hj))

/-- A function that does not fail is called on the last point. -/
theorem samplePoint_mem_simpsonCalls {f : Float → Except ε Float} (hf : ∀ x, ∃ y, f x = .ok y) :
    samplePoint lower (sampleDistance lower upper n) n ∈ simpsonCalls lower upper n f := by
  rw [simpsonCalls_of_ok hf]
  exact List.mem_map_of_mem List.self_mem_range_succ

/-- **Simpson's rule for doubles** samples its function at ascending points, none of which is before the lower
bound or behind the last one. So none is beyond the upper bound if the last one is not. That one is
not if neither the difference of the bounds nor the distance is rounded to more than there is room for.
Otherwise it may be, but no point is far beyond the upper bound, unless it is infinite. -/
theorem simpsonCalls_bounds (hlower : lower.isFinite = true) (hupper : upper.isFinite = true)
    (hle : lower ≤ upper) (hdifference : (upper - lower).isFinite = true) (hn : 2 ≤ n)
    (hmax : n ≤ maxCount) (f : Float → Except ε Float) :
    let width := exactValue upper - exactValue lower
    let h := sampleDistance lower upper n
    let last := samplePoint lower h n
    let calls := simpsonCalls lower upper n f
    (calls.Pairwise (· ≤ ·) ∧ ∀ x ∈ calls, lower ≤ x ∧ x ≤ last) ∧
    (last ≤ upper → ∀ x ∈ calls, x ≤ upper) ∧
    ((∀ x, ∃ y, f x = .ok y) → (∀ x ∈ calls, x ≤ upper) → last ≤ upper) ∧
    (exactValue (upper - lower) ≤ width →
      exactValue (ofCount n) * exactValue h ≤ exactValue (upper - lower) → ∀ x ∈ calls, x ≤ upper) ∧
    ∀ x ∈ calls,
      x.isFinite = true ∧ exactValue x ≤ exactValue upper + sampleMargin lower upper n ∨
        IsInfinite x ∧ greatest < max (exactValue upper) width + sampleMargin lower upper n := by
  intro width h last calls
  have hsampled : IsSampled lower upper n := ⟨hlower, hupper, hle, hdifference, hn, hmax⟩
  have hinside (hlast : last ≤ upper) : ∀ x ∈ calls, x ≤ upper := by
    intro x hx
    obtain ⟨i, hi, rfl⟩ := exists_of_mem_simpsonCalls hx
    exact hsampled.samplePoint_le hi hlast
  refine ⟨⟨pairwise_simpsonCalls hsampled f, fun x hx => ?_⟩, hinside,
    fun hf hcalls => hcalls last (samplePoint_mem_simpsonCalls hf),
    fun hwidth hsteps => hinside (hsampled.last_le hwidth hsteps), fun x hx => ?_⟩
  · obtain ⟨i, hi, rfl⟩ := exists_of_mem_simpsonCalls hx
    exact ⟨hsampled.lower_le_samplePoint hi, hsampled.samplePoint_mono hi le_rfl⟩
  · obtain ⟨i, hi, rfl⟩ := exists_of_mem_simpsonCalls hx
    exact hsampled.exactValue_samplePoint_le hi

/-- From zero to one in two steps. -/
theorem simpsonCalls_bounds_halves :
    (0.0 : Float).isFinite = true ∧ (1.0 : Float).isFinite = true ∧ (0.0 : Float) ≤ 1.0 ∧
      ((1.0 : Float) - 0.0).isFinite = true ∧ 2 ≤ maxCount ∧
      samplePoint (0.0 : Float) (sampleDistance 0.0 1.0 2) 2 ≤ 1.0 ∧
      ∀ x ∈ simpsonCalls (ε := String) (0.0 : Float) 1.0 2 .ok, x ≤ 1.0 := by
  have hlast : samplePoint (0.0 : Float) (sampleDistance 0.0 1.0 2) 2 ≤ 1.0 := by decide +kernel
  exact ⟨by decide +kernel, by decide +kernel, by decide +kernel, by decide +kernel, by decide, hlast,
    (simpsonCalls_bounds (by decide +kernel) (by decide +kernel) (by decide +kernel) (by decide +kernel)
      le_rfl (by decide) .ok).2.1 hlast⟩

/-- From 0.3 to 0.9 in two steps: the difference is rounded up, and the last point lies beyond 0.9. A function
that has no value there fails, and the rule with it. -/
theorem simpsonCalls_beyond_upper :
    let lower : Float := 0.3
    let upper : Float := 0.9
    let f (x : Float) : Except Float Float := if x ≤ upper then .ok 1.0 else .error x
    let last := Float.ofBits 0x3fecccccccccccce
    lower.isFinite = true ∧ upper.isFinite = true ∧ lower ≤ upper ∧ (upper - lower).isFinite = true ∧
      last ∈ simpsonCalls lower upper 2 f ∧ upper < last ∧ simpson lower upper 2 f = .error last := by
  intro lower upper f last
  have hinside (i : ℕ) (hi : i < 2) : samplePoint lower (sampleDistance lower upper 2) i ≤ upper := by
    interval_cases i <;> decide +kernel
  have hlast : samplePoint lower (sampleDistance lower upper 2) 2 = last := by decide +kernel
  have hbeyond : f last = .error last := if_neg (by decide +kernel)
  have hcalls : simpsonCalls lower upper 2 f = [lower, Float.ofBits 0x3fe3333333333334, last] := by
    decide +kernel
  refine ⟨by decide +kernel, by decide +kernel, by decide +kernel, by decide +kernel, ?_, by decide +kernel,
    simpson_of_error le_rfl (fun i hi => ⟨1.0, if_pos (hinside i hi)⟩) (by rw [hlast, hbeyond])⟩
  rw [hcalls]
  exact List.mem_of_getLast? rfl

end

end LatexCalc
