import Mathlib

/-!
# Nearest multiples

A number is rounded to the nearest integer, and a tie goes to the even one (`IsNearest`). That is one
integer for each number, and a greater number is not rounded to a smaller one (`IsNearest.mono`). The
same holds of multiples of any unit (`RoundsTo`).
-/

namespace LatexCalc

/-! ## Integers -/

/-- Distances are measured in units. -/
theorem distance_mul {unit : ℚ} (hunit : 0 < unit) (k x : ℚ) :
    |k * unit - x| = |k - x / unit| * unit := by
  rw [← abs_of_pos hunit, ← abs_mul, abs_of_pos hunit, sub_mul, div_mul_cancel₀ _ hunit.ne']

/-- The integer nearest to a number; a tie goes to the even one. -/
structure IsNearest (x : ℚ) (n : ℤ) : Prop where
  near : |(n : ℚ) - x| ≤ 1 / 2
  even : |(n : ℚ) - x| = 1 / 2 → Even n

namespace IsNearest

variable {x y : ℚ} {m n : ℤ}

theorem intCast (n : ℤ) : IsNearest n n where
  near := by norm_num
  even h := by norm_num at h

/-- An integer with less than one half above it. -/
theorem add_of_le_half (hx : 0 ≤ x) (hle : x ≤ 1 / 2) (heven : x = 1 / 2 → Even n) :
    IsNearest (n + x) n := by
  have hdistance : |(n : ℚ) - (n + x)| = x := by rw [sub_add_cancel_left, abs_neg, abs_of_nonneg hx]
  exact ⟨hdistance.trans_le hle, fun heq => heven (hdistance ▸ heq)⟩

/-- An integer with less than one half to the next one. -/
theorem add_of_half_le (hx : x ≤ 1) (hge : 1 / 2 ≤ x) (heven : x = 1 / 2 → Even (n + 1)) :
    IsNearest (n + x) (n + 1) := by
  have hdistance : |((n + 1 : ℤ) : ℚ) - (n + x)| = 1 - x := by
    rw [Int.cast_add, Int.cast_one, add_sub_add_left_eq_sub, abs_of_nonneg (sub_nonneg.2 hx)]
  exact ⟨by rw [hdistance]; linarith, fun heq => heven (by rw [hdistance] at heq; linarith)⟩

/-- Every number is rounded. -/
theorem exists_isNearest (x : ℚ) : ∃ n, IsNearest x n := by
  have hsplit : (⌊x⌋ : ℚ) + Int.fract x = x := Int.floor_add_fract x
  have hnonneg := Int.fract_nonneg x
  have hlt := Int.fract_lt_one x
  rw [← hsplit]
  rcases lt_trichotomy (Int.fract x) (1 / 2) with hlow | htie | hhigh
  · exact ⟨⌊x⌋, .add_of_le_half hnonneg hlow.le fun heq => absurd heq hlow.ne⟩
  · rcases Int.even_or_odd ⌊x⌋ with heven | hodd
    · exact ⟨⌊x⌋, .add_of_le_half hnonneg htie.le fun _ => heven⟩
    · exact ⟨⌊x⌋ + 1, .add_of_half_le hlt.le htie.ge fun _ => hodd.add_one⟩
  · exact ⟨⌊x⌋ + 1, .add_of_half_le hlt.le hhigh.le fun heq => absurd heq hhigh.ne'⟩

theorem neg (h : IsNearest x n) : IsNearest (-x) (-n) := by
  have hdistance : |((-n : ℤ) : ℚ) - -x| = |(n : ℚ) - x| := by
    rw [Int.cast_neg, ← neg_sub', abs_neg]
  exact ⟨hdistance ▸ h.near, fun heq => (h.even (hdistance ▸ heq)).neg⟩

/-- **Rounding keeps order.** -/
theorem mono (h : IsNearest x m) (h' : IsNearest y n) (hxy : x ≤ y) : m ≤ n := by
  by_contra hlt
  have hstep : n + 1 ≤ m := not_le.1 hlt
  have hstep' : (n : ℚ) + 1 ≤ m := by exact_mod_cast hstep
  have hm := abs_le.1 h.near
  have hn := abs_le.1 h'.near
  -- Both numbers lie in the middle of two neighbours, of which only one is even.
  have hmx : (m : ℚ) - x = 1 / 2 := by linarith [hm.2, hn.1]
  have hny : (n : ℚ) - y = -(1 / 2) := by linarith [hm.2, hn.1]
  have hsucc : m = n + 1 := by
    have heq : (m : ℚ) = n + 1 := by linarith
    exact_mod_cast heq
  have hmeven := h.even (by rw [hmx]; norm_num)
  have hneven := h'.even (by rw [hny]; norm_num)
  rw [hsucc, Int.even_add_one] at hmeven
  exact hmeven hneven

theorem unique (h : IsNearest x m) (h' : IsNearest x n) : m = n :=
  le_antisymm (h.mono h' le_rfl) (h'.mono h le_rfl)

/-- No integer is nearer. -/
theorem le_distance (h : IsNearest x n) (k : ℤ) : |(n : ℚ) - x| ≤ |k - x| := by
  rcases eq_or_ne k n with rfl | hne
  · exact le_rfl
  · have hstep : (1 : ℚ) ≤ |(k : ℚ) - n| := by
      exact_mod_cast Int.one_le_abs (sub_ne_zero.2 hne)
    have htriangle : |(k : ℚ) - n| ≤ |k - x| + |(n : ℚ) - x| := by
      rw [abs_sub_comm (n : ℚ) x]
      exact abs_sub_le _ _ _
    linarith [h.near]

/-- No multiple of a unit is nearer than the one by the nearest integer. -/
theorem le_distance_mul {unit : ℚ} (hunit : 0 < unit) (h : IsNearest (x / unit) n) (k : ℤ) :
    |n * unit - x| ≤ |k * unit - x| := by
  rw [distance_mul hunit, distance_mul hunit]
  exact mul_le_mul_of_nonneg_right (h.le_distance k) hunit.le

/-- What is no farther from the integer than the number itself is rounded to it, too. -/
theorem of_le (h : IsNearest x n) (hy : |(n : ℚ) - y| ≤ |(n : ℚ) - x|) : IsNearest y n where
  near := hy.trans h.near
  even heq := h.even (le_antisymm h.near (heq ▸ hy))

end IsNearest

/-! ## Quotients -/

section

variable {c p r : ℕ}

theorem div_le_half_iff (hp : 0 < p) : (r : ℚ) / p ≤ 1 / 2 ↔ 2 * r ≤ p := by
  have hp' : (0 : ℚ) < p := by exact_mod_cast hp
  rw [div_le_div_iff₀ hp' two_pos, one_mul, mul_comm]
  exact_mod_cast Iff.rfl

theorem half_le_div_iff (hp : 0 < p) : 1 / 2 ≤ (r : ℚ) / p ↔ p ≤ 2 * r := by
  have hp' : (0 : ℚ) < p := by exact_mod_cast hp
  rw [div_le_div_iff₀ two_pos hp', one_mul, mul_comm (r : ℚ)]
  exact_mod_cast Iff.rfl

theorem div_eq_half_iff (hp : 0 < p) : (r : ℚ) / p = 1 / 2 ↔ 2 * r = p := by
  rw [le_antisymm_iff, div_le_half_iff hp, half_le_div_iff hp, le_antisymm_iff]

theorem cast_div_eq (c : ℕ) (hp : 0 < p) :
    (c : ℚ) / p = ((c / p : ℕ) : ℤ) + ((c % p : ℕ) : ℚ) / p := by
  have hp' : (p : ℚ) ≠ 0 := by exact_mod_cast hp.ne'
  have hdivision : ((p * (c / p) + c % p : ℕ) : ℚ) = c := congrArg _ (Nat.div_add_mod c p)
  rw [div_eq_iff hp', add_mul, div_mul_cancel₀ _ hp', mul_comm, Int.cast_natCast, ← hdivision,
    Nat.cast_add, Nat.cast_mul]

/-- A quotient is rounded down where the remainder is at most half the divisor. -/
theorem isNearest_div (hp : 0 < p) (hle : 2 * (c % p) ≤ p)
    (heven : 2 * (c % p) = p → Even (c / p)) : IsNearest ((c : ℚ) / p) (c / p : ℕ) := by
  rw [cast_div_eq c hp]
  refine .add_of_le_half (by positivity) ((div_le_half_iff hp).2 hle) fun htie => ?_
  exact_mod_cast heven ((div_eq_half_iff hp).1 htie)

/-- It is rounded up where the remainder is at least half the divisor. -/
theorem isNearest_div_add_one (hp : 0 < p) (hge : p ≤ 2 * (c % p))
    (heven : 2 * (c % p) = p → Even (c / p + 1)) :
    IsNearest ((c : ℚ) / p) (c / p + 1 : ℕ) := by
  have hone : ((c % p : ℕ) : ℚ) / p ≤ 1 := by
    rw [div_le_one (by exact_mod_cast hp)]
    exact_mod_cast (Nat.mod_lt c hp).le
  rw [cast_div_eq c hp]
  refine .add_of_half_le hone ((half_le_div_iff hp).2 hge) fun htie => ?_
  exact_mod_cast heven ((div_eq_half_iff hp).1 htie)

end

/-! ## Multiples -/

/-- The multiple of `unit` nearest to `x`; a tie goes to the even multiple. -/
def RoundsTo (unit x t : ℚ) : Prop :=
  ∃ n : ℤ, t = n * unit ∧ IsNearest (x / unit) n

namespace RoundsTo

variable {unit x y t u : ℚ}

theorem neg (h : RoundsTo unit x t) : RoundsTo unit (-x) (-t) := by
  obtain ⟨n, rfl, hn⟩ := h
  exact ⟨-n, by push_cast; ring, by rw [neg_div]; exact hn.neg⟩

/-- Multiples of the unit stay as they are. -/
theorem of_multiple (hunit : unit ≠ 0) (n : ℤ) : RoundsTo unit (n * unit) (n * unit) :=
  ⟨n, rfl, by rw [mul_div_cancel_right₀ _ hunit]; exact .intCast n⟩

theorem zero (hunit : unit ≠ 0) : RoundsTo unit 0 0 := by
  have h := of_multiple hunit 0
  rwa [Int.cast_zero, zero_mul] at h

theorem isNearest {n : ℤ} (hunit : unit ≠ 0) (h : RoundsTo unit x (n * unit)) :
    IsNearest (x / unit) n := by
  obtain ⟨m, hm, hnearest⟩ := h
  obtain rfl : n = m := by exact_mod_cast mul_right_cancel₀ hunit hm
  exact hnearest

theorem mono (hunit : 0 < unit) (h : RoundsTo unit x t) (h' : RoundsTo unit y u) (hxy : x ≤ y) :
    t ≤ u := by
  obtain ⟨m, rfl, hm⟩ := h
  obtain ⟨n, rfl, hn⟩ := h'
  have hle : m ≤ n := hm.mono hn (by gcongr)
  gcongr

theorem unique (hunit : 0 < unit) (h : RoundsTo unit x t) (h' : RoundsTo unit x u) : t = u :=
  le_antisymm (h.mono hunit h' le_rfl) (h'.mono hunit h le_rfl)

end RoundsTo

end LatexCalc
