import LatexCalc.Proofs.Numeric.Count
import LatexCalc.Proofs.Numeric.Fold
import LatexCalc.Proofs.Numeric.RangeLength

/-!
# Ends of ranges

The length of a range of doubles is found from a rounded difference, and its terms are rounded sums. The two
agree on which numbers do not exceed the end, unless the difference is rounded up to a whole number
(`lt_rangeLength_iff_le_or_eq`): then the range has one term more, which may lie beyond its end
(`foldCalls_end`), if only by little.
-/

namespace LatexCalc

open Arithmetic

/-! ## Integers -/

section

variable {y : Float}

theorem wholePart_of_isFinite (hy : y.isFinite = true) : wholePart y = ⌊exactValue y⌋₊ := by
  change y.toModel.unpack.isFinite = true at hy
  unfold wholePart exactValue
  cases hu : y.toModel.unpack with
  | infinity s =>
    rw [hu] at hy
    cases hy
  | _ => rfl

/-- The other doubles are far below the greatest one. -/
theorem exactValue_eq_greatest_or_le (y : Float) :
    exactValue y = greatest ∨ exactValue y + 2 ^ 53 ≤ greatest := by
  obtain ⟨unit, hunit⟩ : ∃ unit : ℚ, unit = 2 ^ (971 : ℤ) := ⟨_, rfl⟩
  have hlarge : 2 ^ 53 ≤ unit := by
    rw [hunit, ← zpow_natCast]
    exact zpow_le_zpow_right₀ one_le_two (by decide)
  rw [greatest, ← hunit]
  rcases le_or_gt (exactValue y) 0 with hneg | hpos
  · right
    linarith only [hneg, hlarge]
  obtain ⟨m, e, hm, hparts, ⟨hbits, -, -⟩, hvalue⟩ := parts_of_pos hpos
  have hoverflow : overflow y.toModel.unpack = y.toModel.unpack := overflow_unpack _
  rw [hparts] at hoverflow
  rw [hvalue]
  rcases (exponent_le hoverflow).eq_or_lt with rfl | hlt
  · rw [← hunit]
    obtain rfl | hm' : m = 2 ^ 53 - 1 ∨ m + 2 ≤ 2 ^ 53 := by omega
    · left
      norm_num
    · right
      have hbelow : (m : ℚ) + 2 ≤ 2 ^ 53 := by exact_mod_cast hm'
      nlinarith only [hbelow, hlarge]
  · right
    have hlow : partsValue (.finite .positive m e hm) ≤ 2 ^ 52 * 2 ^ (971 : ℤ) :=
      partsValue_le_of_lt hbits hlt
    rw [partsValue_positive, ← hunit] at hlow
    linarith only [hlow, hlarge]

end

/-! ## Short ranges -/

/-- How far the ends of a range are apart. -/
def rangeWidth (start stop : Float) : ℚ :=
  exactValue stop - exactValue start

/-- A range of finite doubles whose end is not below its start, and less than two to the power of 53 away
from it. -/
structure IsShortRange (start stop : Float) : Prop where
  isFinite_start : start.isFinite = true
  isFinite_stop : stop.isFinite = true
  le : start ≤ stop
  width_lt : rangeWidth start stop < 2 ^ 53

namespace IsShortRange

variable {start stop : Float} {k : ℕ}

theorem width_nonneg (h : IsShortRange start stop) : 0 ≤ rangeWidth start stop :=
  sub_nonneg.2 ((le_iff h.isFinite_start h.isFinite_stop).1 h.le)

theorem width_le_greatest (h : IsShortRange start stop) : rangeWidth start stop ≤ greatest := by
  have hgreatest : ((2 ^ 53 : ℕ) : ℚ) ≤ greatest := natCast_le_greatest (by decide)
  exact le_trans (by exact_mod_cast h.width_lt.le) hgreatest

theorem isNearestDouble_width (h : IsShortRange start stop) :
    IsNearestDouble (rangeWidth start stop) (stop - start) := by
  refine isNearestDouble_sub h.isFinite_stop h.isFinite_start ?_
  rw [← rangeWidth, abs_of_nonneg h.width_nonneg]
  exact h.width_le_greatest

theorem le_of_le_width (h : IsShortRange start stop) (hk : k ≤ rangeWidth start stop) : k ≤ 2 ^ 53 := by
  have hlt := hk.trans_lt h.width_lt
  have hlt' : k < 2 ^ 53 := by exact_mod_cast hlt
  exact hlt'.le

theorem exactValue_sub_le (h : IsShortRange start stop) : exactValue (stop - start) ≤ (2 ^ 53 : ℕ) :=
  h.isNearestDouble_width.le_natCast le_rfl (by exact_mod_cast h.width_lt.le)

/-- **The length of a short range** is not bounded by the word that it is kept in. -/
theorem rangeLength_eq (h : IsShortRange start stop) :
    rangeLength start stop = ⌊exactValue (stop - start)⌋₊ + 1 := by
  have hle := (le_iff h.isFinite_start h.isFinite_stop).1 h.le
  have hterms : termCount start stop = (⌊exactValue (stop - start)⌋₊ + 1 : ℕ) := by
    rw [termCount, if_neg fun hlt => absurd ((lt_iff h.isFinite_stop h.isFinite_start).1 hlt)
      (not_lt.2 hle), wholePart_of_isFinite h.isNearestDouble_width.isFinite, Nat.cast_add, Nat.cast_one]
  have hfloor : ⌊exactValue (stop - start)⌋₊ ≤ 2 ^ 53 := Nat.floor_le_of_le h.exactValue_sub_le
  have hmax : 2 ^ 53 + 1 ≤ maxCount := by decide
  have hlength := LatexCalc.rangeLength_eq start stop
  rw [hterms, min_eq_left (by exact_mod_cast (Nat.succ_le_succ hfloor).trans hmax)] at hlength
  exact_mod_cast hlength

/-- **The terms of a short range** are the numbers up to its width, and the width rounded if it is rounded
to a whole number. -/
theorem lt_rangeLength_iff_le_or_eq (h : IsShortRange start stop) :
    k < rangeLength start stop ↔ k ≤ rangeWidth start stop ∨ exactValue (stop - start) = k := by
  have hnearest := h.isNearestDouble_width
  have hnonneg : ((0 : ℕ) : ℚ) ≤ exactValue (stop - start) :=
    hnearest.natCast_le (Nat.zero_le _) (by exact_mod_cast h.width_nonneg)
  rw [h.rangeLength_eq, Nat.lt_succ_iff, Nat.le_floor_iff (by exact_mod_cast hnonneg)]
  refine ⟨fun hk => or_iff_not_imp_left.2 fun hlt => ?_, ?_⟩
  · have hk' : k ≤ 2 ^ 53 := by exact_mod_cast hk.trans h.exactValue_sub_le
    exact le_antisymm (hnearest.le_natCast hk' (not_le.1 hlt).le) hk
  · rintro (hk | hk)
    · exact hnearest.natCast_le (h.le_of_le_width hk) hk
    · exact hk.ge

theorem le_of_lt_rangeLength (h : IsShortRange start stop) (hk : k < rangeLength start stop) :
    k ≤ 2 ^ 53 := by
  rw [h.rangeLength_eq, Nat.lt_succ_iff] at hk
  exact hk.trans (Nat.floor_le_of_le h.exactValue_sub_le)

theorem start_add_le_greatest (h : IsShortRange start stop) (hk : k < rangeLength start stop) :
    exactValue start + k ≤ greatest := by
  have hk' : (k : ℚ) ≤ 2 ^ 53 := by exact_mod_cast h.le_of_lt_rangeLength hk
  rcases exactValue_eq_greatest_or_le start with hgreatest | hbelow
  · -- A range from the greatest double has no other term.
    have hwidth : rangeWidth start stop ≤ (0 : ℕ) := by
      rw [rangeWidth, hgreatest, Nat.cast_zero, sub_nonpos]
      exact (le_abs_self _).trans (abs_exactValue_le stop)
    have hrounded := h.isNearestDouble_width.le_natCast (Nat.zero_le _) hwidth
    have hzero : (k : ℚ) ≤ (0 : ℕ) := by
      rcases h.lt_rangeLength_iff_le_or_eq.1 hk with hle | heq
      · exact hle.trans hwidth
      · exact heq ▸ hrounded
    rw [hgreatest]
    push_cast at hzero
    linarith
  · linarith

/-- The terms are rounded sums. -/
theorem isNearestDouble_rangePoint (h : IsShortRange start stop) (hk : k < rangeLength start stop) :
    IsNearestDouble (exactValue start + k) (rangePoint start k) := by
  have hk' := h.le_of_lt_rangeLength hk
  have hgreatest := h.start_add_le_greatest hk
  have hlow := (abs_le.1 (abs_exactValue_le start)).1
  rw [← exactValue_ofCount hk'] at hgreatest ⊢
  refine isNearestDouble_add h.isFinite_start (isFinite_ofCount (hk'.trans (by decide))) (abs_le.2 ⟨?_, hgreatest⟩)
  have hnonneg : (0 : ℚ) ≤ k := k.cast_nonneg
  rw [exactValue_ofCount hk']
  linarith

/-- A number that does not exceed the width is that of a term that does not exceed the end. -/
theorem rangePoint_le (h : IsShortRange start stop) (hk : k ≤ rangeWidth start stop) :
    rangePoint start k ≤ stop := by
  have hnearest := h.isNearestDouble_rangePoint (h.lt_rangeLength_iff_le_or_eq.2 (.inl hk))
  refine (le_iff hnearest.isFinite h.isFinite_stop).2 (hnearest.le_of_le h.isFinite_stop ?_)
  rw [rangeWidth] at hk
  linarith

/-- A width that is rounded up to a whole number is rounded by little. -/
theorem sub_width_le (h : IsShortRange start stop) (hk : rangeWidth start stop < k)
    (heq : exactValue (stop - start) = k) :
    k - rangeWidth start stop ≤ rangeWidth start stop / 2 ^ 53 := by
  have hnearest := h.isNearestDouble_width
  have hone : (1 : ℚ) ≤ k := by
    have hpos : (0 : ℚ) < k := h.width_nonneg.trans_lt hk
    exact_mod_cast hpos
  have hlow : (2 : ℚ) ^ (-1022 : ℤ) ≤ rangeWidth start stop := by
    -- No double is nearer, not even zero.
    have hzero := hnearest.le (ofCount 0) (isFinite_ofCount (Nat.zero_le _))
    rw [exactValue_ofCount (Nat.zero_le _), heq, Nat.cast_zero, zero_sub, abs_neg,
      abs_of_nonneg h.width_nonneg] at hzero
    calc (2 : ℚ) ^ (-1022 : ℤ) ≤ 2 ^ (-1 : ℤ) := zpow_le_zpow_right₀ one_le_two (by decide)
      _ = 1 / 2 := by norm_num
      _ ≤ rangeWidth start stop := by linarith [le_abs_self (k - rangeWidth start stop)]
  have herror := hnearest.abs_sub_le_div hlow h.width_le_greatest
  rw [heq] at herror
  exact (le_abs_self _).trans herror

/-- The term beyond the end is not far beyond it. -/
theorem rangePoint_le_add (h : IsShortRange start stop) (hk : rangeWidth start stop < k)
    (heq : exactValue (stop - start) = k) :
    exactValue (rangePoint start k) ≤ exactValue stop + rangeWidth start stop / 2 ^ 52 := by
  have hnearest := h.isNearestDouble_rangePoint (h.lt_rangeLength_iff_le_or_eq.2 (.inr heq))
  have hdistance := hnearest.le stop h.isFinite_stop
  have hrounding := h.sub_width_le hk heq
  have hstop : exactValue stop = exactValue start + rangeWidth start stop := (add_sub_cancel _ _).symm
  have hbeyond : |exactValue stop - (exactValue start + k)| = k - rangeWidth start stop := by
    rw [hstop, add_sub_add_left_eq_sub, abs_sub_comm, abs_of_pos (sub_pos.2 hk)]
  rw [hbeyond] at hdistance
  linarith [le_abs_self (exactValue (rangePoint start k) - (exactValue start + k))]

end IsShortRange

/-! ## What a fold visits -/

/-- **A fold over a short range of doubles** visits numbers that do not exceed its end, if the difference of
its ends is not rounded up to a whole number. Otherwise the last one of them may: it is the start increased
by the rounded difference, and it exceeds the end by no more than one part of the width in two to the power
of 52. -/
theorem foldCalls_end {ε : Type} {start stop : Float} (hstart : start.isFinite = true)
    (hstop : stop.isFinite = true) (hle : start ≤ stop)
    (hwidth : exactValue stop - exactValue start < 2 ^ 53) (identity : Float)
    (combine : Float → Float → Float) (body : Float → Except ε Float) :
    let width := exactValue stop - exactValue start
    let calls := foldCalls start stop identity combine body
    ((∀ n : ℕ, exactValue (stop - start) = n → n ≤ width) → ∀ x ∈ calls, x ≤ stop) ∧
    ∀ x ∈ calls, ∃ k : ℕ, x = rangePoint start k ∧
      (k ≤ width ∧ x ≤ stop ∨
        width < k ∧ exactValue (stop - start) = k ∧ x.isFinite = true ∧
          exactValue x ≤ exactValue stop + width / 2 ^ 52) := by
  intro width calls
  have hshort : IsShortRange start stop := ⟨hstart, hstop, hle, hwidth⟩
  refine ⟨fun hwhole x hx => ?_, fun x hx => ?_⟩
  · obtain ⟨k, hk, rfl⟩ := exists_of_mem_foldCalls hx
    exact hshort.rangePoint_le ((hshort.lt_rangeLength_iff_le_or_eq.1 hk).elim id (hwhole k))
  · obtain ⟨k, hk, rfl⟩ := exists_of_mem_foldCalls hx
    refine ⟨k, rfl, ?_⟩
    rcases le_or_gt (k : ℚ) width with hin | hout
    · exact .inl ⟨hin, hshort.rangePoint_le hin⟩
    · have heq := (hshort.lt_rangeLength_iff_le_or_eq.1 hk).resolve_left (not_le.2 hout)
      exact .inr ⟨hout, heq, (hshort.isNearestDouble_rangePoint hk).isFinite,
        hshort.rangePoint_le_add hout heq⟩

/-- From one half to two and a half. -/
theorem foldCalls_end_halves :
    (0.5 : Float).isFinite = true ∧ (2.5 : Float).isFinite = true ∧ (0.5 : Float) ≤ 2.5 ∧
      exactValue 2.5 - exactValue 0.5 < 2 ^ 53 ∧
      (∀ n : ℕ, exactValue (2.5 - 0.5) = n → (n : ℚ) ≤ exactValue 2.5 - exactValue 0.5) ∧
      ∀ x ∈ foldCalls (ε := String) (0.5 : Float) 2.5 0 (· + ·) .ok, x ≤ 2.5 := by
  have hwidth : exactValue 2.5 - exactValue 0.5 = 2 := by decide +kernel
  have hrounded : exactValue (2.5 - 0.5) = 2 := by decide +kernel
  have hwhole (n : ℕ) (hn : exactValue (2.5 - 0.5) = n) : (n : ℚ) ≤ exactValue 2.5 - exactValue 0.5 := by
    rw [hwidth, ← hn, hrounded]
  have hlt : exactValue 2.5 - exactValue 0.5 < 2 ^ 53 := by
    rw [hwidth]
    norm_num
  exact ⟨by decide +kernel, by decide +kernel, by decide +kernel, hlt, hwhole,
    (foldCalls_end (by decide +kernel) (by decide +kernel) (by decide +kernel) hlt 0 (· + ·) .ok).1 hwhole⟩

/-- A range from just above minus one to just above zero: its width is rounded to one, and the second number
that is visited lies beyond the end. -/
theorem foldCalls_beyond_end :
    let start := Float.ofBits 0xbfefffffffffffff
    let stop := Float.ofBits 0x3c90000000000000
    start.isFinite = true ∧ stop.isFinite = true ∧ start ≤ stop ∧
      exactValue stop - exactValue start < 2 ^ 53 ∧
      ∃ x ∈ foldCalls (ε := String) start stop 0 (· + ·) .ok, stop < x := by
  intro start stop
  have hcalls : foldCalls (ε := String) (Float.ofBits 0xbfefffffffffffff) (Float.ofBits 0x3c90000000000000)
      0 (· + ·) .ok = [Float.ofBits 0xbfefffffffffffff, Float.ofBits 0x3ca0000000000000] := by rfl
  refine ⟨by decide +kernel, by decide +kernel, by decide +kernel, by decide +kernel,
    Float.ofBits 0x3ca0000000000000, ?_, by decide +kernel⟩
  rw [hcalls]
  exact List.mem_cons_of_mem _ (List.mem_singleton_self _)

end LatexCalc
