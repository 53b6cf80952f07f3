import LatexCalc.Proofs.Numeric.Nearest
import LatexCalc.Proofs.Numeric.Rounding

/-!
# Correct rounding

Two bits behind a mantissa tell enough of the rest of a number to round it to the nearest mantissa
(`Represents.isNearest`). Were exponents not bounded from above, no double would be nearer to a number than
what it is rounded to (`nearestParts_roundWithAccuracy`); that holds of products and quotients, too
(`nearestParts_mul`, `nearestParts_div`). So no double is nearer, unless the number is beyond the greatest one
(`IsNearestParts.isNearestDouble`).
-/

namespace LatexCalc

open Float.Model (Format UnpackedFloat totalExponent)
open Float.Model.UnpackedFloat

/-! ## Bits behind a mantissa -/

/-- What two bits tell of the rest behind a mantissa: whether it is one half or more, and whether that
leaves more of it. -/
structure IsRest (round sticky : Bool) (f : ℚ) : Prop where
  nonneg : 0 ≤ f
  lt_one : f < 1
  round_iff : round = true ↔ 1 / 2 ≤ f
  sticky_iff : sticky = true ↔ f ≠ 0 ∧ f ≠ 1 / 2

theorem IsRest.half {round sticky : Bool} {f : ℚ} (h : IsRest round sticky f) {b : ℕ} (hb : b < 2) :
    IsRest (b != 0) (round || sticky) ((b + f) / 2) := by
  obtain ⟨hnonneg, hlt, hround, hsticky⟩ := h
  have hrest : (round || sticky) = true ↔ f ≠ 0 := by
    rw [Bool.or_eq_true, hround, hsticky]
    refine ⟨?_, fun hne => ?_⟩
    · rintro (hhalf | hne)
      · exact (lt_of_lt_of_le (by norm_num) hhalf).ne'
      · exact hne.1
    · by_cases hhalf : f = 1 / 2
      · exact .inl hhalf.ge
      · exact .inr ⟨hne, hhalf⟩
  obtain rfl | rfl : b = 0 ∨ b = 1 := by omega
  · refine ⟨by positivity, by push_cast; linarith, ?_, hrest.trans ?_⟩
    · refine iff_of_false (by decide) (not_le.2 ?_)
      push_cast
      linarith
    · rw [Nat.cast_zero, zero_add]
      refine ⟨fun hne => ⟨by positivity, fun hhalf => ?_⟩, fun hne hzero => hne.1 (by rw [hzero, zero_div])⟩
      linarith
  · refine ⟨by positivity, by push_cast; linarith, ?_, hrest.trans ?_⟩
    · refine iff_of_true (by decide) ?_
      push_cast
      linarith
    · rw [Nat.cast_one]
      refine ⟨fun hne => ⟨by positivity, fun hhalf => hne (by linarith)⟩, fun hne hzero => hne.2 ?_⟩
      rw [hzero, add_zero]

/-- A number of which a mantissa is the whole part and the bits behind it tell the rest. -/
def Represents (em : ExtendedMantissa) (x : ℚ) : Prop :=
  IsRest em.roundBit em.stickyBit (x - em.mantissa)

namespace Represents

variable {em : ExtendedMantissa} {x : ℚ}

theorem shiftRightOne (h : Represents em x) : Represents em.shiftRightOne (x / 2) := by
  have hbit : em.mantissa % 2 < 2 := Nat.mod_lt _ two_pos
  have hsplit : (em.mantissa : ℚ) = 2 * (em.mantissa / 2 : ℕ) + (em.mantissa % 2 : ℕ) := by
    exact_mod_cast (Nat.div_add_mod em.mantissa 2).symm
  have hrest : x / 2 - (em.mantissa / 2 : ℕ) = ((em.mantissa % 2 : ℕ) + (x - em.mantissa)) / 2 := by
    rw [hsplit]
    ring
  show IsRest _ _ (x / 2 - (em.mantissa / 2 : ℕ))
  rw [hrest]
  exact h.half hbit

theorem shiftRight (h : Represents em x) (n : ℕ) : Represents (em >>> n) (x / 2 ^ n) := by
  induction n with
  | zero => rwa [pow_zero, div_one]
  | succ n ih =>
    rw [pow_succ, ← div_div]
    exact ih.shiftRightOne

/-- **The rounded mantissa** is the nearest integer. -/
theorem isNearest (h : Represents em x) : IsNearest x em.roundedMantissa := by
  obtain ⟨m, r, s⟩ := em
  obtain ⟨hnonneg, hlt, hround, hsticky⟩ := h
  obtain ⟨f, rfl⟩ : ∃ f, x = ((m : ℤ) : ℚ) + f := ⟨x - (m : ℤ), by ring⟩
  simp only [Int.cast_natCast, add_sub_cancel_left] at hnonneg hlt hround hsticky
  cases r with
  | false =>
    have hhalf : f < 1 / 2 := by simpa using hround
    have hrounded : (ExtendedMantissa.mk m false s).roundedMantissa = m := by cases s <;> rfl
    rw [hrounded]
    exact .add_of_le_half hnonneg hhalf.le fun htie => absurd htie hhalf.ne
  | true =>
    have hhalf : 1 / 2 ≤ f := hround.1 rfl
    cases s with
    | false =>
      have htie : f = 1 / 2 := by
        by_contra hne
        have hzero : f ≠ 0 := (lt_of_lt_of_le (by norm_num) hhalf).ne'
        exact absurd (hsticky.2 ⟨hzero, hne⟩) (by decide)
      have hrounded : (ExtendedMantissa.mk m true false).roundedMantissa = m + m % 2 := rfl
      rw [hrounded]
      rcases Nat.mod_two_eq_zero_or_one m with heven | hodd
      · rw [heven, add_zero]
        exact .add_of_le_half hnonneg htie.le fun _ => by exact_mod_cast Nat.even_iff.2 heven
      · rw [hodd]
        exact_mod_cast IsNearest.add_of_half_le hlt.le hhalf fun _ => by
          exact_mod_cast (Nat.odd_iff.2 hodd).add_one
    | true =>
      have hgt : f ≠ 1 / 2 := (hsticky.1 rfl).2
      have hrounded : (ExtendedMantissa.mk m true true).roundedMantissa = m + 1 := rfl
      rw [hrounded]
      exact_mod_cast IsNearest.add_of_half_le hlt.le hhalf fun htie => absurd htie hgt

end Represents

theorem represents_exact (m : Nat) : Represents (.ofMantissaAndAccuracy m .exact) m := by
  show IsRest false false ((m : ℚ) - m)
  rw [sub_self]
  exact ⟨le_rfl, one_pos, by norm_num, by norm_num⟩

/-- The accuracy of a quotient is that of its remainder. -/
theorem represents_div (a : Nat) {b : Nat} (hb : 0 < b) :
    Represents (.ofMantissaAndAccuracy (a / b) (accuracyOfFraction (a % b) b)) (a / b) := by
  have hb' : (0 : ℚ) < b := by exact_mod_cast hb
  have hlt : ((a % b : ℕ) : ℚ) / b < 1 := by
    rw [div_lt_one hb']
    exact_mod_cast Nat.mod_lt a hb
  have hrest (em : ExtendedMantissa) (hem : em.mantissa = a / b)
      (h : IsRest em.roundBit em.stickyBit ((a % b : ℕ) / b)) : Represents em (a / b) := by
    rwa [Represents, hem, cast_div_eq a hb, Int.cast_natCast, add_sub_cancel_left]
  have hhalf := half_le_div_iff (r := a % b) hb
  have htie := div_eq_half_iff (r := a % b) hb
  have hnonneg : (0 : ℚ) ≤ (a % b : ℕ) / b := by positivity
  unfold accuracyOfFraction
  split
  · next hzero =>
    refine hrest _ rfl ?_
    rw [hzero, Nat.cast_zero, zero_div]
    exact ⟨le_rfl, one_pos, by norm_num [ExtendedMantissa.ofMantissaAndAccuracy],
      by norm_num [ExtendedMantissa.ofMantissaAndAccuracy]⟩
  · next hne =>
    have hzero : ((a % b : ℕ) : ℚ) / b ≠ 0 := div_ne_zero (by exact_mod_cast hne) hb'.ne'
    rcases hc : compare (2 * (a % b)) b with _ | _ | _
    · have hlt' := compare_lt_iff_lt.1 hc
      exact hrest _ rfl ⟨hnonneg, hlt, iff_of_false Bool.false_ne_true (by rw [hhalf]; omega),
        iff_of_true rfl ⟨hzero, by rw [Ne, htie]; omega⟩⟩
    · have heq := compare_eq_iff_eq.1 hc
      exact hrest _ rfl ⟨hnonneg, hlt, iff_of_true rfl (by rw [hhalf]; omega),
        iff_of_false Bool.false_ne_true fun h => h.2 (htie.2 heq)⟩
    · have hgt := compare_gt_iff_gt.1 hc
      exact hrest _ rfl ⟨hnonneg, hlt, iff_of_true rfl (by rw [hhalf]; omega),
        iff_of_true rfl ⟨hzero, by rw [Ne, htie]; omega⟩⟩

/-! ## Rounding -/

section

variable {m : Nat} {e : Int} {y : ℚ}

/-- Of 53 bits a number makes less than the power of two. -/
theorem scaled_lt (hy : y < m + 1) : y * 2 ^ (e - grain m e) < 2 ^ 53 := by
  have hm : (m : ℚ) + 1 ≤ 2 ^ (m.log2 + 1) := by
    exact_mod_cast Nat.lt_log2_self
  have hexponent : (m.log2 + 1 : ℕ) + (e - grain m e) ≤ 53 := by
    unfold grain
    omega
  calc y * 2 ^ (e - grain m e) < 2 ^ (m.log2 + 1) * 2 ^ (e - grain m e) := by
        gcongr
        exact hy.trans_le hm
    _ = 2 ^ ((m.log2 + 1 : ℕ) + (e - grain m e)) := by
        rw [zpow_add₀ two_ne_zero, zpow_natCast]
    _ ≤ 2 ^ (53 : ℤ) := zpow_le_zpow_right₀ one_le_two hexponent
    _ = 2 ^ 53 := by norm_num

/-- It has all of them unless its grain is the least one. -/
theorem le_scaled (hy : m ≤ y) (he : e ≤ grain m e) (hgrain : grain m e ≠ -1074) :
    2 ^ 52 ≤ y * 2 ^ (e - grain m e) := by
  have hm : 0 < m := by
    refine Nat.pos_of_ne_zero fun hzero => hgrain ?_
    unfold grain at he ⊢
    rw [hzero, Nat.log2_zero] at he ⊢
    omega
  have hexponent : (m.log2 : ℤ) + (e - grain m e) = 52 := by
    unfold grain at hgrain ⊢
    omega
  calc (2 : ℚ) ^ 52 = 2 ^ ((m.log2 : ℤ) + (e - grain m e)) := by rw [hexponent]; norm_num
    _ ≤ m * 2 ^ (e - grain m e) := two_zpow_le hm _
    _ ≤ y * 2 ^ (e - grain m e) := by gcongr

theorem shiftToTarget_fst (acc : Accuracy) (he : e ≤ grain m e) :
    shiftToTargetExponent .binary64 m e acc =
      (ExtendedMantissa.ofMantissaAndAccuracy m acc >>> (grain m e - e).toNat, grain m e) := by
  have hexponent : e + ((grain m e - e).toNat : ℤ) = grain m e := by omega
  unfold shiftToTargetExponent shiftToExponent
  simp only [targetExponent_eq, hexponent]

/-- **Rounding** takes the nearest multiple of the grain. -/
theorem roundWithAccuracy_spec (s : Sign) {acc : Accuracy}
    (hy : Represents (.ofMantissaAndAccuracy m acc) y) (he : e ≤ grain m e) :
    ∃ n : ℕ, IsNearest (y * 2 ^ (e - grain m e)) n ∧
      (grain m e = -1074 ∨ 2 ^ 52 ≤ y * 2 ^ (e - grain m e)) ∧
      partsValue (roundWithAccuracy .binary64 s m e acc) = (s.apply n : ℤ) * 2 ^ grain m e ∧
      IsNormal (roundWithAccuracy .binary64 s m e acc) := by
  have hmantissa : (ExtendedMantissa.ofMantissaAndAccuracy m acc).mantissa = m := by
    unfold ExtendedMantissa.ofMantissaAndAccuracy
    split <;> rfl
  have hle : (m : ℚ) ≤ y := by
    rw [← hmantissa]
    exact sub_nonneg.1 hy.nonneg
  have hlt : y < m + 1 := by
    rw [← hmantissa]
    exact sub_lt_iff_lt_add'.1 hy.lt_one
  have hscale : y / 2 ^ (grain m e - e).toNat = y * 2 ^ (e - grain m e) := by
    have hexponent : e - grain m e = -((grain m e - e).toNat : ℤ) := by omega
    rw [hexponent, zpow_neg, zpow_natCast, div_eq_mul_inv]
  have hnearest := (hy.shiftRight (grain m e - e).toNat).isNearest
  rw [hscale] at hnearest
  have hround : roundWithAccuracy .binary64 s m e acc =
      let first := shiftToTargetExponent .binary64 m e acc
      let final := shiftToTargetExponent .binary64 first.1.roundedMantissa first.2 .exact
      numberAt s final.1.mantissa final.2 := rfl
  rw [hround, shiftToTarget_fst acc he]
  dsimp only
  generalize (ExtendedMantissa.ofMantissaAndAccuracy m acc >>>
    (grain m e - e).toNat).roundedMantissa = n at hnearest
  have hbits : grain m e = -1074 ∨ 2 ^ 52 ≤ y * 2 ^ (e - grain m e) :=
    or_iff_not_imp_left.2 (le_scaled hle he)
  have hhigh : (n : ℤ) ≤ (2 ^ 53 : ℕ) :=
    hnearest.mono (.intCast _) (by exact_mod_cast (scaled_lt hlt).le)
  have hlow : 2 ^ 52 ≤ n ∨ grain m e = -1074 := hbits.symm.imp_left fun hle => by
    have hle' : ((2 ^ 52 : ℕ) : ℤ) ≤ n := (IsNearest.intCast _).mono hnearest (by exact_mod_cast hle)
    exact_mod_cast hle'
  exact ⟨n, hnearest, hbits, settle s (by exact_mod_cast hhigh) (le_max_right _ _) hlow⟩

end

/-! ## Nearest doubles -/

/-- The greatest number that a double is. -/
def greatest : ℚ :=
  (2 ^ 53 - 1) * 2 ^ (971 : ℤ)

/-- The parts of the greatest double, or of its opposite. -/
def greatestParts (s : Sign) : UnpackedFloat :=
  .finite s (2 ^ 53 - 1) 971 (by decide)

theorem isNormal_greatest (s : Sign) : IsNormal (greatestParts s) := by
  simp [greatestParts, IsNormal]

theorem partsValue_greatest : partsValue (greatestParts .positive) = greatest := by
  rw [greatestParts, partsValue_positive, greatest]
  norm_num

theorem partsValue_neg_greatest : partsValue (greatestParts .negative) = -greatest := by
  rw [greatestParts, partsValue_negative, greatest]
  norm_num

theorem exists_natCast_greatest : ∃ n : ℕ, greatest = n := by
  refine ⟨(2 ^ 53 - 1) * 2 ^ 971, ?_⟩
  rw [Nat.cast_mul, Nat.cast_pow 2 971, Nat.cast_ofNat, greatest]
  norm_num

/-- No finite double is nearer to `x`. -/
structure IsNearestDouble (x : ℚ) (y : Float) : Prop where
  isFinite : y.isFinite = true
  le : ∀ z : Float, z.isFinite = true → |exactValue y - x| ≤ |exactValue z - x|

theorem abs_partsValue_le {u : UnpackedFloat} (hu : IsNormal u) (h : overflow u = u) :
    |partsValue u| ≤ greatest := by
  cases u with
  | finite s m e hm =>
    have hexponent : e ≤ 971 := exponent_le h
    have hmantissa : (m : ℚ) ≤ 2 ^ 53 - 1 := by
      have hlt : m + 1 ≤ 2 ^ 53 := hu.1
      have hlt' : (m : ℚ) + 1 ≤ 2 ^ 53 := by exact_mod_cast hlt
      linarith
    rw [abs_partsValue, greatest]
    exact mul_le_mul hmantissa (zpow_le_zpow_right₀ one_le_two hexponent) (by positivity) (by norm_num)
  | _ =>
    show |(0 : ℚ)| ≤ greatest
    rw [abs_zero, greatest]
    norm_num

theorem abs_exactValue_le (x : Float) : |exactValue x| ≤ greatest :=
  abs_partsValue_le (isNormal_unpack _) (overflow_unpack _)

/-- Numbers up to the greatest do not overflow. -/
theorem overflow_eq_self {u : UnpackedFloat} (hu : IsNormal u) (h : |partsValue u| ≤ greatest) :
    overflow u = u := by
  cases u with
  | finite s m e hm =>
    refine if_neg fun hlarge => absurd h (not_le.2 ?_)
    have hmantissa : (2 : ℚ) ^ 52 ≤ m := by
      have hbits : 2 ^ 52 ≤ m := hu.2.2.resolve_right (by omega)
      exact_mod_cast hbits
    rw [abs_partsValue]
    calc greatest < 2 ^ 53 * 2 ^ (971 : ℤ) := by
          rw [greatest]
          gcongr
          norm_num
      _ = 2 ^ 52 * 2 ^ (971 + 1 : ℤ) := by
          rw [zpow_add_one₀ two_ne_zero]
          ring
      _ ≤ m * 2 ^ e := by
          gcongr
          · norm_num
          · exact hlarge
  | _ => rfl

theorem unpack_pack_eq {u : UnpackedFloat} (hu : IsNormal u) (hle : |partsValue u| ≤ greatest) :
    (Float.ofModel (.pack u)).toModel.unpack = u :=
  (unpack_pack hu).trans (overflow_eq_self hu hle)

/-- What is a double already is not rounded. -/
theorem IsNearestDouble.exactValue_of_eq {x : ℚ} {y z : Float} (h : IsNearestDouble x y)
    (hz : z.isFinite = true) (heq : exactValue z = x) : exactValue y = x := by
  have hdistance := h.le z hz
  rw [heq, sub_self, abs_zero, abs_nonpos_iff] at hdistance
  exact sub_eq_zero.1 hdistance

theorem isFinite_numberAt (s : Sign) (m : Nat) (e : Int) : (numberAt s m e).isFinite = true := by
  unfold numberAt
  split <;> rfl

/-- A number of 53 bits at an exponent is a double, and a shorter one at the least exponent. -/
theorem exists_exactValue_eq {n : ℕ} {g : ℤ} (hlow : 2 ^ 52 ≤ n ∨ g = -1074) (hhigh : n ≤ 2 ^ 53)
    (hg : -1074 ≤ g)
    (hle : n * 2 ^ g ≤ greatest) : ∃ z : Float, z.isFinite = true ∧ exactValue z = n * 2 ^ g := by
  obtain ⟨hvalue, hnormal⟩ := settle .positive hhigh hg hlow
  have hfinite := isFinite_numberAt .positive
    (shiftToTargetExponent .binary64 n g .exact).1.mantissa
    (shiftToTargetExponent .binary64 n g .exact).2
  generalize numberAt .positive _ _ = u at hvalue hnormal hfinite
  change partsValue u = (n : ℤ) * 2 ^ g at hvalue
  rw [Int.cast_natCast] at hvalue
  have hunpack := unpack_pack_eq hnormal (by rwa [hvalue, abs_of_nonneg (by positivity)])
  refine ⟨.ofModel (.pack u), ?_, (congrArg partsValue hunpack).trans hvalue⟩
  show (Float.ofModel (.pack u)).toModel.unpack.isFinite = true
  rwa [hunpack]

/-- A double with a smaller grain lies below the first number that has all bits of a grain. -/
theorem partsValue_le_of_lt {s : Sign} {m : Nat} {e g : ℤ} {hm : 0 < m} (hm' : m < 2 ^ 53)
    (hlt : e < g) : partsValue (.finite s m e hm) ≤ 2 ^ 52 * 2 ^ g := by
  have hbits : (m : ℚ) ≤ 2 ^ 53 := by exact_mod_cast hm'.le
  calc partsValue (.finite s m e hm) ≤ m * 2 ^ e := by
        rw [← abs_partsValue s m e hm]
        exact le_abs_self _
    _ ≤ 2 ^ 53 * 2 ^ (g - 1) := by
        gcongr
        · norm_num
        · omega
    _ = 2 ^ 52 * 2 ^ g := by
        rw [zpow_sub_one₀ two_ne_zero]
        ring

/-- A number with all bits of its grain, rounded, is nearer than any double. -/
theorem distance_le {x : ℚ} {n : ℤ} {g : ℤ} (hn : IsNearest (x / 2 ^ g) n)
    (hbits : g = -1074 ∨ 2 ^ 52 ≤ x / 2 ^ g) {u : UnpackedFloat} (hu : IsNormal u) :
    |n * 2 ^ g - x| ≤ |partsValue u - x| := by
  have hunit : (0 : ℚ) < 2 ^ g := by positivity
  have hmultiple := hn.le_distance_mul hunit
  cases u with
  | finite s m e hm =>
    rcases le_or_gt g e with hge | hlt
    · obtain ⟨k, hk⟩ := Int.le.dest hge
      have hvalue : partsValue (.finite s m e hm) = ((s.apply m * 2 ^ k : ℤ) : ℚ) * 2 ^ g := by
        show ((s.apply m : ℤ) : ℚ) * 2 ^ e = _
        rw [← hk, zpow_add₀ two_ne_zero, zpow_natCast]
        push_cast
        ring
      rw [hvalue]
      exact hmultiple _
    · obtain ⟨hm', he, -⟩ := hu
      have hx : 2 ^ 52 * 2 ^ g ≤ x := (le_div_iff₀ hunit).1 (hbits.resolve_left (by omega))
      have hvalue : partsValue (.finite s m e hm) ≤ 2 ^ 52 * 2 ^ g := partsValue_le_of_lt hm' hlt
      calc |(n : ℚ) * 2 ^ g - x| ≤ |((2 ^ 52 : ℤ) : ℚ) * 2 ^ g - x| := hmultiple _
        _ = x - 2 ^ 52 * 2 ^ g := by
          rw [Int.cast_pow, Int.cast_ofNat, abs_sub_comm, abs_of_nonneg (sub_nonneg.2 hx)]
        _ ≤ x - partsValue (.finite s m e hm) := by linarith
        _ ≤ |partsValue (.finite s m e hm) - x| := by
          rw [abs_sub_comm]
          exact le_abs_self _
  | _ =>
    have hzero := hmultiple 0
    rwa [Int.cast_zero, zero_mul] at hzero

/-- Rounding does not take a number beyond the greatest double. -/
theorem le_greatest {x : ℚ} {n : ℤ} {g : ℤ} (hn : IsNearest (x / 2 ^ g) n)
    (hbits : g = -1074 ∨ 2 ^ 52 ≤ x / 2 ^ g) (hx : x ≤ greatest) : n * 2 ^ g ≤ greatest := by
  have hdistance := distance_le hn hbits (isNormal_greatest .positive)
  rw [partsValue_greatest, abs_of_nonneg (sub_nonneg.2 hx)] at hdistance
  linarith [le_abs_self (n * 2 ^ g - x)]

theorem isFinite_roundWithAccuracy (s : Sign) (m : Nat) (e : Int) (acc : Accuracy) :
    (roundWithAccuracy .binary64 s m e acc).isFinite = true := by
  unfold roundWithAccuracy
  dsimp only
  split <;> rfl

/-- No parts of a double are nearer to `x`, were exponents not bounded from above. -/
structure IsNearestParts (x : ℚ) (u : UnpackedFloat) : Prop where
  isFinite : u.isFinite = true
  isNormal : IsNormal u
  le : ∀ v : UnpackedFloat, IsNormal v → |partsValue u - x| ≤ |partsValue v - x|

namespace IsNearestParts

variable {x : ℚ} {u : UnpackedFloat}

/-- Parts are nearest to their own value. -/
theorem self (hu : u.isFinite = true) (hu' : IsNormal u) : IsNearestParts (partsValue u) u where
  isFinite := hu
  isNormal := hu'
  le v _ := by
    rw [sub_self, abs_zero]
    exact abs_nonneg _

/-- A number is not rounded beyond parts that it does not exceed. -/
theorem le_of_le (h : IsNearestParts x u) {v : UnpackedFloat} (hv : IsNormal v)
    (hle : x ≤ partsValue v) : partsValue u ≤ partsValue v := by
  have hdistance := h.le v hv
  rw [abs_of_nonneg (sub_nonneg.2 hle)] at hdistance
  linarith [le_abs_self (partsValue u - x)]

theorem ge_of_ge (h : IsNearestParts x u) {v : UnpackedFloat} (hv : IsNormal v)
    (hle : partsValue v ≤ x) : partsValue v ≤ partsValue u := by
  have hdistance := h.le v hv
  rw [abs_sub_comm (partsValue v), abs_of_nonneg (sub_nonneg.2 hle)] at hdistance
  linarith [neg_abs_le (partsValue u - x)]

theorem le_greatest (h : IsNearestParts x u) (hx : x ≤ greatest) : partsValue u ≤ greatest := by
  rw [← partsValue_greatest] at hx ⊢
  exact h.le_of_le (isNormal_greatest .positive) hx

theorem neg_greatest_le (h : IsNearestParts x u) (hx : -greatest ≤ x) : -greatest ≤ partsValue u := by
  rw [← partsValue_neg_greatest] at hx ⊢
  exact h.ge_of_ge (isNormal_greatest .negative) hx

/-- **The nearest parts are those of the nearest double**, unless the number is beyond the greatest one. -/
theorem isNearestDouble (h : IsNearestParts x u) (hx : |x| ≤ greatest) :
    IsNearestDouble x (.ofModel (.pack u)) := by
  obtain ⟨hlow, hhigh⟩ := abs_le.1 hx
  have hparts := unpack_pack_eq h.isNormal (abs_le.2 ⟨h.neg_greatest_le hlow, h.le_greatest hhigh⟩)
  refine ⟨?_, fun z _ => ?_⟩
  · show (Float.ofModel (.pack u)).toModel.unpack.isFinite = true
    rw [hparts]
    exact h.isFinite
  · rw [exactValue, hparts]
    exact h.le _ (isNormal_unpack _)

end IsNearestParts

/-- What a number is rounded to: its nearest parts, packed. -/
def IsRounded (x : ℚ) (y : Float) : Prop :=
  ∃ u : UnpackedFloat, IsNearestParts x u ∧ y = .ofModel (.pack u)

theorem IsRounded.isNearestDouble {x : ℚ} {y : Float} (h : IsRounded x y) (hx : |x| ≤ greatest) :
    IsNearestDouble x y := by
  obtain ⟨u, hu, rfl⟩ := h
  exact hu.isNearestDouble hx

/-- **Rounding gives the nearest parts.** -/
theorem nearestParts_roundWithAccuracy {m : Nat} {e : Int} {acc : Accuracy} {y : ℚ}
    (hy : Represents (.ofMantissaAndAccuracy m acc) y) (he : e ≤ grain m e) :
    IsNearestParts (y * 2 ^ e) (roundWithAccuracy .binary64 .positive m e acc) := by
  obtain ⟨n, hn, hbits, hvalue, hnormal⟩ := roundWithAccuracy_spec .positive hy he
  have hshift : y * 2 ^ (e - grain m e) = y * 2 ^ e / 2 ^ grain m e := by
    rw [zpow_sub₀ two_ne_zero, mul_div_assoc]
  rw [hshift] at hn hbits
  refine ⟨isFinite_roundWithAccuracy .positive m e acc, hnormal, fun v hv => ?_⟩
  rw [hvalue]
  exact distance_le hn hbits hv

theorem nearestParts_round {m : Nat} (hm : 0 < m) (e : Int) :
    IsNearestParts (m * 2 ^ e) (UnpackedFloat.round .binary64 .positive m e) := by
  obtain ⟨hvalue, hmin⟩ := decreaseExponent_spec m e (grain m e)
  have hround : UnpackedFloat.round .binary64 .positive m e =
      let p := decreaseExponent m e (grain m e)
      roundWithAccuracy .binary64 .positive p.1 p.2 .exact := by
    rw [← targetExponent_eq]
    rfl
  rw [hround]
  generalize decreaseExponent m e (grain m e) = p at hvalue hmin
  have hp : 0 < p.1 := by
    by_contra hzero
    rw [Nat.eq_zero_of_not_pos hzero, Nat.cast_zero, zero_mul] at hvalue
    have hpos : (0 : ℚ) < m * 2 ^ e := by positivity
    exact hpos.ne hvalue
  have hgrain : p.2 ≤ grain p.1 p.2 := by
    rw [grain_of_value hp hm hvalue]
    omega
  rw [← hvalue]
  exact nearestParts_roundWithAccuracy (represents_exact _) hgrain

/-! ## Products and quotients -/

section

variable {m n : Nat} {d e : Int} (hm : 0 < m) (hn : 0 < n)

/-- **Products** are nearest if one of the factors has all its bits. -/
theorem nearestParts_mul (hbits : 2 ^ 52 ≤ m * n) :
    IsNearestParts ((m * 2 ^ d) * (n * 2 ^ e))
      (mul .binary64 (.finite .positive m d hm) (.finite .positive n e hn)) := by
  have hvalue : ((m : ℚ) * 2 ^ d) * (n * 2 ^ e) = (m * n : ℕ) * 2 ^ (d + e) := by
    rw [zpow_add₀ two_ne_zero]
    push_cast
    ring
  have hgrain : d + e ≤ grain (m * n) (d + e) := by
    have hlog : 52 ≤ (m * n).log2 := (Nat.le_log2 (by positivity)).2 hbits
    unfold grain
    omega
  rw [hvalue]
  exact nearestParts_roundWithAccuracy (represents_exact _) hgrain

include hm hn in
/-- A quotient is taken with enough digits for all bits of its grain. -/
theorem le_grain_quotient {t : Int} {k : ℕ} (hk : t = d - e - k)
    (ht : t ≤ Format.binary64.targetExponent (totalExponent m d - totalExponent n e)) :
    t ≤ grain (m * 2 ^ k / n) t := by
  rw [targetExponent_binary64] at ht
  unfold totalExponent at ht
  have hlog : -1074 < t → 52 ≤ (m * 2 ^ k / n).log2 := by
    intro hlarge
    obtain ⟨j, hj⟩ : ∃ j, m.log2 + k = n.log2 + 1 + 52 + j :=
      Nat.exists_eq_add_of_le (by omega)
    have hquotient : 2 ^ 52 ≤ m * 2 ^ k / n := by
      rw [Nat.le_div_iff_mul_le hn]
      calc 2 ^ 52 * n ≤ 2 ^ 52 * 2 ^ (n.log2 + 1) := by
            gcongr
            exact Nat.lt_log2_self.le
        _ ≤ 2 ^ 52 * 2 ^ (n.log2 + 1) * 2 ^ j := Nat.le_mul_of_pos_right _ (by positivity)
        _ = 2 ^ m.log2 * 2 ^ k := by
            rw [← pow_add, ← pow_add, ← pow_add, hj]
            congr 1
            omega
        _ ≤ m * 2 ^ k := by
            gcongr
            exact Nat.log2_self_le hm.ne'
    exact (Nat.le_log2 (by omega)).2 hquotient
  unfold grain
  omega

/-- **Quotients** are nearest. -/
theorem nearestParts_div :
    IsNearestParts ((m * 2 ^ d) / (n * 2 ^ e))
      (div .binary64 (.finite .positive m d hm) (.finite .positive n e hn)) := by
  obtain ⟨t, ht⟩ : ∃ t, t = min (d - e)
    (Format.binary64.targetExponent (totalExponent m d - totalExponent n e)) := ⟨_, rfl⟩
  obtain ⟨k, hk⟩ : ∃ k : ℕ, k = (d - e - t).toNat := ⟨_, rfl⟩
  have hshift : t = d - e - k := by omega
  have hdiv : div .binary64 (.finite .positive m d hm) (.finite .positive n e hn) =
      roundWithAccuracy .binary64 .positive (m * 2 ^ k / n) t
        (accuracyOfFraction (m * 2 ^ k % n) n) := by
    rw [← Nat.shiftLeft_eq, hk, ht]
    rfl
  have hvalue : (m * 2 ^ d) / (n * 2 ^ e) = ((m * 2 ^ k : ℕ) : ℚ) / n * 2 ^ t := by
    rw [hshift, zpow_sub₀ two_ne_zero, zpow_sub₀ two_ne_zero, zpow_natCast]
    push_cast
    field_simp
  rw [hvalue, hdiv]
  exact nearestParts_roundWithAccuracy (represents_div _ hn)
    (le_grain_quotient hm hn hshift (ht ▸ min_le_right _ _))

end

/-! ## Arithmetic -/

section

variable {x y : Float}

/-- **Products** are rounded: a number of at least one has all bits. -/
theorem isRounded_mul (hx : 1 ≤ exactValue x) (hy : 0 < exactValue y) :
    IsRounded (exactValue x * exactValue y) (x * y) := by
  obtain ⟨m, d, hm, hxu, ⟨hbits, -, hnormal⟩, hxv⟩ := parts_of_pos (zero_lt_one.trans_le hx)
  obtain ⟨n, e, hn, hyu, -, hyv⟩ := parts_of_pos hy
  have hm' : 2 ^ 52 ≤ m := by
    refine hnormal.resolve_right fun hleast => absurd hx (not_le.2 ?_)
    have hbits' : (m : ℚ) < 2 ^ 53 := by exact_mod_cast hbits
    rw [hxv, hleast]
    calc (m : ℚ) * 2 ^ (-1074 : ℤ) < 2 ^ 53 * 2 ^ (-53 : ℤ) := by
          gcongr
          · norm_num
          · decide
      _ = 1 := by norm_num
  have hmul : x * y = .ofModel (.pack (mul .binary64 x.toModel.unpack y.toModel.unpack)) := rfl
  rw [hmul, hxu, hyu, hxv, hyv]
  exact ⟨_, nearestParts_mul hm hn (hm'.trans (Nat.le_mul_of_pos_right m hn)), rfl⟩

/-- **Quotients** are rounded. -/
theorem isRounded_div (hx : 0 < exactValue x) (hy : 0 < exactValue y) :
    IsRounded (exactValue x / exactValue y) (x / y) := by
  obtain ⟨m, d, hm, hxu, -, hxv⟩ := parts_of_pos hx
  obtain ⟨n, e, hn, hyu, -, hyv⟩ := parts_of_pos hy
  have hdiv : x / y = .ofModel (.pack (div .binary64 x.toModel.unpack y.toModel.unpack)) := rfl
  rw [hdiv, hxu, hyu, hxv, hyv]
  exact ⟨_, nearestParts_div hm hn, rfl⟩

theorem isNearestDouble_mul (hx : 1 ≤ exactValue x) (hy : 0 < exactValue y)
    (hle : exactValue x * exactValue y ≤ greatest) :
    IsNearestDouble (exactValue x * exactValue y) (x * y) :=
  (isRounded_mul hx hy).isNearestDouble (by rwa [abs_of_pos (mul_pos (zero_lt_one.trans_le hx) hy)])

theorem isNearestDouble_div (hx : 0 < exactValue x) (hy : 0 < exactValue y)
    (hle : exactValue x / exactValue y ≤ greatest) :
    IsNearestDouble (exactValue x / exactValue y) (x / y) :=
  (isRounded_div hx hy).isNearestDouble (by rwa [abs_of_pos (div_pos hx hy)])

end

theorem natCast_le_greatest {n : Nat} (hn : n < 2 ^ 64) : (n : ℚ) ≤ greatest := by
  have hn' : (n : ℚ) ≤ 2 ^ 64 := by exact_mod_cast hn.le
  calc (n : ℚ) ≤ 2 ^ 64 := hn'
    _ ≤ (2 ^ 53 - 1) * 2 ^ (12 : ℤ) := by norm_num
    _ ≤ greatest := mul_le_mul_of_nonneg_left
      (zpow_le_zpow_right₀ one_le_two (by decide)) (by norm_num)

/-- **Words** are rounded. -/
theorem isRounded_word {n : Nat} (hn : n < 2 ^ 64) : IsRounded n n.toUInt64.toFloat := by
  have hword : n.toUInt64.toNat = n := Nat.mod_eq_of_lt hn
  have hfloat : n.toUInt64.toFloat =
      .ofModel (.pack (UnpackedFloat.ofNat .binary64 n.toUInt64.toNat)) := rfl
  rw [hfloat, hword]
  rcases Nat.eq_zero_or_pos n with rfl | hpos
  · rw [Nat.cast_zero]
    exact ⟨_, .self (u := .zero _) rfl trivial, rfl⟩
  · have hround : UnpackedFloat.ofNat .binary64 n = UnpackedFloat.round .binary64 .positive n 0 := by
      unfold UnpackedFloat.ofNat UnpackedFloat.ofInt UnpackedFloat.normalize
      rw [compare_gt_iff_gt.2 (Int.natCast_pos.2 hpos)]
      rfl
    have hnearest := nearestParts_round hpos 0
    rw [zpow_zero, mul_one] at hnearest
    rw [hround]
    exact ⟨_, hnearest, rfl⟩

theorem isNearestDouble_word {n : Nat} (hn : n < 2 ^ 64) : IsNearestDouble n n.toUInt64.toFloat :=
  (isRounded_word hn).isNearestDouble (by rw [Nat.abs_cast]; exact natCast_le_greatest hn)

/-- Integers of 53 bits are doubles. -/
theorem exactValue_toFloat {n : Nat} (hn : n ≤ 2 ^ 53) : exactValue n.toUInt64.toFloat = n := by
  rcases Nat.eq_zero_or_pos n with rfl | hpos
  · rfl
  obtain ⟨k, hk⟩ : ∃ k, k = 52 - n.log2 := ⟨_, rfl⟩
  have hlow : 2 ^ 52 ≤ n * 2 ^ k := by
    calc 2 ^ 52 ≤ 2 ^ (n.log2 + k) := Nat.pow_le_pow_right two_pos (by omega)
      _ = 2 ^ n.log2 * 2 ^ k := pow_add ..
      _ ≤ n * 2 ^ k := Nat.mul_le_mul_right _ (Nat.log2_self_le hpos.ne')
  have hhigh : n * 2 ^ k ≤ 2 ^ 53 := by
    rcases Nat.eq_zero_or_pos k with rfl | hk'
    · rwa [pow_zero, mul_one]
    · have hexponent : 53 = n.log2 + 1 + k := by omega
      rw [hexponent, pow_add]
      exact Nat.mul_le_mul_right _ Nat.lt_log2_self.le
  have hvalue : ((n * 2 ^ k : ℕ) : ℚ) * 2 ^ (-k : ℤ) = n := by
    rw [zpow_neg, zpow_natCast]
    push_cast
    field_simp
  have hword : n < 2 ^ 64 := hn.trans_lt (by decide)
  obtain ⟨z, hz, hz'⟩ := exists_exactValue_eq (.inl hlow) hhigh (by omega)
    (hvalue.trans_le (natCast_le_greatest hword))
  exact (isNearestDouble_word hword).exactValue_of_eq hz (hz'.trans hvalue)

end LatexCalc
