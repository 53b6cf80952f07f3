import Mathlib.Algebra.BigOperators.Field
import Mathlib.Algebra.BigOperators.Intervals
import Mathlib.Algebra.Polynomial.Derivative
import Mathlib.Algebra.Polynomial.Eval.Degree
import LatexCalc.Proofs.Numeric.Exact
import LatexCalc.Proofs.Numeric.Samples

/-!
# Simpson's rule in exact arithmetic

Without rounding, Simpson's rule is a weighted sum of samples (`simpson_of_pure`). The weights are the same
from both ends, and a rule may be cut after an even number of steps: there the last weight of the first part
and the first weight of the second one add up to the weight inside (`weightedSum_add`). Cut into panels of two
steps, the rule is exact on cubics, as it is on every panel (`simpson_cubic`). The same facts tell what it
comes to between exchanged bounds and on the halves of an interval (`simpson_interval`).
-/

namespace LatexCalc

open Arithmetic Exact Polynomial

/-! ## Weights -/

section

variable {k n i : ℕ}

theorem sampleWeight_eq (n i : ℕ) :
    (sampleWeight n i : ℚ) = if i = 0 ∨ i = n then 1 else if i % 2 = 1 then 4 else 2 := by
  unfold sampleWeight
  norm_num

/-- The weights are the same from both ends. -/
theorem sampleWeight_sub (hn : Even n) (hi : i ≤ n) :
    (sampleWeight n (n - i) : ℚ) = sampleWeight n i := by
  obtain ⟨j, rfl⟩ := hn
  have hends : (j + j - i = 0 ∨ j + j - i = j + j) ↔ (i = 0 ∨ i = j + j) := by omega
  have hparity : (j + j - i) % 2 = 1 ↔ i % 2 = 1 := by omega
  simp only [sampleWeight_eq, hends, hparity]

theorem sampleWeight_of_lt (hi : i < k) (n : ℕ) :
    (sampleWeight (k + n) i : ℚ) = sampleWeight k i := by
  have hends : (i = 0 ∨ i = k + n) ↔ (i = 0 ∨ i = k) := by omega
  simp only [sampleWeight_eq, hends]

/-- Behind a cut after an even number of steps the weights begin again. -/
theorem sampleWeight_add (hk : Even k) (hpos : 0 < k) (n i : ℕ) :
    (sampleWeight (k + n) (k + (i + 1)) : ℚ) = sampleWeight n (i + 1) := by
  obtain ⟨j, rfl⟩ := hk
  have hends : (j + j + (i + 1) = 0 ∨ j + j + (i + 1) = j + j + n) ↔ (i + 1 = 0 ∨ i + 1 = n) := by
    omega
  have hparity : (j + j + (i + 1)) % 2 = 1 ↔ (i + 1) % 2 = 1 := by omega
  simp only [sampleWeight_eq, hends, hparity]

/-- At a cut two weights of ends make one weight inside. -/
theorem sampleWeight_cut (hk : Even k) (hpos : 0 < k) (hn : 0 < n) :
    (sampleWeight (k + n) k : ℚ) = sampleWeight k k + sampleWeight n 0 := by
  obtain ⟨j, rfl⟩ := hk
  have hinside : ¬(j + j = 0 ∨ j + j = j + j + n) := by omega
  have heven : ¬(j + j) % 2 = 1 := by omega
  rw [sampleWeight_eq, sampleWeight_eq, sampleWeight_eq, if_neg hinside, if_neg heven,
    if_pos (.inr rfl), if_pos (.inl rfl)]
  norm_num

end

/-! ## Weighted sums -/

/-- The sum of the values `y 0`, …, `y n`, weighted as the samples of a rule. -/
def weightedSum (n : ℕ) (y : ℕ → ℚ) : ℚ :=
  ∑ i ∈ Finset.range (n + 1), sampleWeight n i * y i

section

variable {k n : ℕ}

theorem weightedSum_reverse (hn : Even n) (y : ℕ → ℚ) :
    weightedSum n (fun i => y (n - i)) = weightedSum n y := by
  unfold weightedSum
  rw [← Finset.sum_range_reflect (fun i => sampleWeight n i * y i)]
  refine Finset.sum_congr rfl fun i hi => ?_
  rw [Nat.add_sub_cancel, sampleWeight_sub hn (Finset.mem_range_succ_iff.1 hi)]

/-- **A weighted sum may be cut** after an even number of steps. -/
theorem weightedSum_add (hk : Even k) (hpos : 0 < k) (hn : 0 < n) (y : ℕ → ℚ) :
    weightedSum (k + n) y = weightedSum k y + weightedSum n fun i => y (k + i) := by
  have hfirst : ∑ i ∈ Finset.range k, sampleWeight (k + n) i * y i =
      ∑ i ∈ Finset.range k, sampleWeight k i * y i :=
    Finset.sum_congr rfl fun i hi => by rw [sampleWeight_of_lt (Finset.mem_range.1 hi)]
  have hlast : ∑ i ∈ Finset.range n, sampleWeight (k + n) (k + (i + 1)) * y (k + (i + 1)) =
      ∑ i ∈ Finset.range n, sampleWeight n (i + 1) * y (k + (i + 1)) :=
    Finset.sum_congr rfl fun i _ => by rw [sampleWeight_add hk hpos]
  unfold weightedSum
  rw [add_assoc, Finset.sum_range_add, Finset.sum_range_succ' _ n, Finset.sum_range_succ _ k,
    Finset.sum_range_succ' _ n, hfirst, hlast, add_zero, sampleWeight_cut hk hpos hn, add_mul]
  abel

theorem weightedSum_two (y : ℕ → ℚ) : weightedSum 2 y = y 0 + 4 * y 1 + y 2 := by
  simp [weightedSum, Finset.sum_range_succ, sampleWeight_eq]

/-- **A weighted sum is one of panels** of two steps each. -/
theorem weightedSum_panels (k : ℕ) (y : ℕ → ℚ) :
    weightedSum (2 * (k + 1)) y =
      ∑ j ∈ Finset.range (k + 1), (y (2 * j) + 4 * y (2 * j + 1) + y (2 * j + 2)) := by
  induction k with
  | zero => rw [Finset.sum_range_one, zero_add, mul_one, weightedSum_two]
  | succ k ih =>
    rw [mul_add_one, weightedSum_add (even_two_mul _) (by omega) two_pos, ih, weightedSum_two,
      Finset.sum_range_succ _ (k + 1), add_zero]

end

/-! ## The rule -/

section

variable {m : Type → Type} [Monad m] [LawfulMonad m] {n : ℕ}

theorem callLoop_of_pure (point weight : ℕ → ℚ) {f : ℚ → m ℚ} {y : ℕ → ℚ} {i count : ℕ}
    (h : ∀ j < count, f (point (i + j)) = pure (y (i + j))) (sum : ℚ) :
    callLoop point (fun i sum y => sum + weight i * y) f i count sum =
      pure (sum + ∑ j ∈ Finset.range count, weight (i + j) * y (i + j)) := by
  induction count generalizing i sum with
  | zero => rw [Finset.sum_range_zero, add_zero]; rfl
  | succ count ih =>
    have hfirst : f (point i) = pure (y i) := h 0 (Nat.succ_pos count)
    have hrest (j : ℕ) (hj : j < count) : f (point (i + 1 + j)) = pure (y (i + 1 + j)) := by
      rw [add_assoc, add_comm 1 j]
      exact h (j + 1) (Nat.succ_lt_succ hj)
    have hloop := ih hrest (sum + weight i * y i)
    unfold callLoop at hloop ⊢
    rw [foldFrom, hfirst, pure_bind, pure_bind, hloop, Finset.sum_range_succ']
    simp only [add_assoc, add_zero, add_comm 1, add_comm (∑ _ ∈ _, _)]

/-- **The rule is a weighted sum** of its samples. -/
theorem simpson_of_pure (lower upper : ℚ) {f : ℚ → m ℚ} {y : ℕ → ℚ}
    (h : ∀ i ≤ n, f (samplePoint lower ((upper - lower) / n) i) = pure (y i)) :
    simpson lower upper n f = pure (weightedSum n y * ((upper - lower) / n) / 3) := by
  have hzero : (0.0 : ℚ) = 0 := by norm_num
  have hthree : (3.0 : ℚ) = 3 := by norm_num
  have hsamples (j : ℕ) (hj : j < n + 1) :
      f (samplePoint lower ((upper - lower) / n) (0 + j)) = pure (y (0 + j)) := by
    rw [zero_add]
    exact h j (Nat.lt_succ_iff.1 hj)
  have hloop := callLoop_of_pure _ (sampleWeight n) hsamples 0
  simp only [zero_add] at hloop
  rw [simpson_eq_callLoop, hzero, hthree]
  show (callLoop (samplePoint lower ((upper - lower) / n)) _ f 0 (n + 1) 0 >>= _) = _
  rw [hloop, pure_bind]
  rfl

end

/-! ## Cubics -/

section

variable {f F : ℚ[X]}

theorem natDegree_le_four (hf : f.natDegree ≤ 3) (hF : derivative F = f) : F.natDegree ≤ 4 := by
  rw [← hF, natDegree_derivative] at hf
  omega

/-- **The rule is exact on a panel** of two steps. -/
theorem panel_eq (hf : f.natDegree ≤ 3) (hF : derivative F = f) (x h : ℚ) :
    (f.eval x + 4 * f.eval (x + h) + f.eval (x + 2 * h)) * h / 3 = F.eval (x + 2 * h) - F.eval x := by
  have hvalue (t : ℚ) : f.eval t = ∑ i ∈ Finset.range 4, F.coeff (i + 1) * (i + 1) * t ^ i := by
    rw [eval_eq_sum_range' (Nat.lt_succ_of_le hf)]
    refine Finset.sum_congr rfl fun i _ => ?_
    rw [← hF, coeff_derivative]
  rw [eval_eq_sum_range' (Nat.lt_succ_of_le (natDegree_le_four hf hF)),
    eval_eq_sum_range' (Nat.lt_succ_of_le (natDegree_le_four hf hF))]
  simp only [hvalue, Finset.sum_range_succ, Finset.sum_range_zero]
  push_cast
  ring

/-- **Simpson's rule is exact on cubics.** -/
theorem simpson_cubic {m : Type → Type} [Monad m] [LawfulMonad m] (hf : f.natDegree ≤ 3)
    (hF : derivative F = f) (lower upper : ℚ) {n : ℕ} (heven : Even n) (hn : 2 ≤ n) :
    simpson lower upper n (fun x => pure (f.eval x)) = (pure (F.eval upper - F.eval lower) : m ℚ) := by
  obtain ⟨k, rfl⟩ : ∃ k, n = 2 * (k + 1) := by
    obtain ⟨j, rfl⟩ := heven
    exact ⟨j - 1, by omega⟩
  obtain ⟨h, hh⟩ : ∃ h, h = (upper - lower) / (2 * (k + 1) : ℕ) := ⟨_, rfl⟩
  let y (i : ℕ) : ℚ := f.eval (lower + i * h)
  let ends (j : ℕ) : ℚ := F.eval (lower + (2 * j : ℕ) * h)
  have hpanel (j : ℕ) :
      (y (2 * j) + 4 * y (2 * j + 1) + y (2 * j + 2)) * h / 3 = ends (j + 1) - ends j := by
    have hone : lower + (2 * j + 1 : ℕ) * h = lower + (2 * j : ℕ) * h + h := by
      push_cast
      ring
    have htwo : lower + (2 * j + 2 : ℕ) * h = lower + (2 * j : ℕ) * h + 2 * h := by
      push_cast
      ring
    simp only [y, ends, hone, htwo, mul_add_one 2 j]
    exact panel_eq hf hF (lower + (2 * j : ℕ) * h) h
  have hlast : lower + (2 * (k + 1) : ℕ) * h = upper := by
    rw [hh]
    field_simp
    ring
  have hsum : weightedSum (2 * (k + 1)) y * h / 3 = F.eval upper - F.eval lower :=
    calc weightedSum (2 * (k + 1)) y * h / 3
        = ∑ j ∈ Finset.range (k + 1), (y (2 * j) + 4 * y (2 * j + 1) + y (2 * j + 2)) * h / 3 := by
          rw [weightedSum_panels, Finset.sum_mul, Finset.sum_div]
      _ = ∑ j ∈ Finset.range (k + 1), (ends (j + 1) - ends j) :=
          Finset.sum_congr rfl fun j _ => hpanel j
      _ = ends (k + 1) - ends 0 := Finset.sum_range_sub ends (k + 1)
      _ = F.eval upper - F.eval lower := by
          simp only [ends, hlast, mul_zero, Nat.cast_zero, zero_mul, add_zero]
  rw [← hsum, hh]
  exact simpson_of_pure lower upper fun i _ => by rw [← hh]; rfl

/-- The cube from two down to minus one. -/
theorem simpson_cubic_descending :
    (X ^ 3 : ℚ[X]).natDegree ≤ 3 ∧ derivative (C (1 / 4) * X ^ 4 : ℚ[X]) = X ^ 3 ∧ Even 4 ∧ 2 ≤ 4 ∧
      simpson 2 (-1) 4 (fun x => pure ((X ^ 3 : ℚ[X]).eval x)) = (.ok (-15 / 4) : Except String ℚ) := by
  have hdegree : (X ^ 3 : ℚ[X]).natDegree ≤ 3 := natDegree_X_pow_le 3
  have hderivative : derivative (C (1 / 4) * X ^ 4 : ℚ[X]) = X ^ 3 := by
    rw [derivative_C_mul_X_pow]
    norm_num
  have heven : Even 4 := ⟨2, rfl⟩
  have hvalue := simpson_cubic (m := Except String) hdegree hderivative 2 (-1) heven (by decide)
  refine ⟨hdegree, hderivative, heven, by decide, hvalue.trans ?_⟩
  norm_num
  rfl

end

/-! ## Bounds -/

section

variable {ε : Type} {f : ℚ → Except ε ℚ} {lower upper : ℚ} {n : ℕ}

/-- **A rule has a value** if the function has values at all points, and only then. -/
theorem simpson_eq_ok_iff {v : ℚ} :
    simpson lower upper n f = .ok v ↔
      ∃ y : ℕ → ℚ, (∀ i ≤ n, f (samplePoint lower ((upper - lower) / n) i) = .ok (y i)) ∧
        weightedSum n y * ((upper - lower) / n) / 3 = v := by
  constructor
  · intro hv
    rcases values_or_first_error (samplePoint lower ((upper - lower) / n)) f n with
      ⟨y, hy⟩ | ⟨j, hj, e, hok, he⟩
    · have hvalue := (simpson_of_pure lower upper hy).symm.trans hv
      exact ⟨y, hy, Except.ok.inj hvalue⟩
    · rw [simpson_of_error hj hok he] at hv
      cases hv
  · rintro ⟨y, hy, rfl⟩
    exact simpson_of_pure lower upper hy

theorem exists_simpson_eq_ok
    (h : ∀ i ≤ n, ∃ y, f (samplePoint lower ((upper - lower) / n) i) = .ok y) :
    ∃ v, simpson lower upper n f = .ok v := by
  choose! y hy using h
  exact ⟨_, simpson_eq_ok_iff.2 ⟨y, hy, rfl⟩⟩

/-- From the other end the points are the same. -/
theorem samplePoint_reverse (lower upper : ℚ) (hn : 0 < n) {i : ℕ} (hi : i ≤ n) :
    samplePoint upper ((lower - upper) / n) i = samplePoint lower ((upper - lower) / n) (n - i) := by
  have hn' : (n : ℚ) ≠ 0 := by exact_mod_cast hn.ne'
  show upper + i * ((lower - upper) / n) = lower + (n - i : ℕ) * ((upper - lower) / n)
  rw [Nat.cast_sub hi]
  field_simp
  ring

/-- **With its bounds exchanged** a rule has the opposite value. -/
theorem simpson_swap (heven : Even n) (hn : 0 < n) {v : ℚ} (h : simpson lower upper n f = .ok v) :
    simpson upper lower n f = .ok (-v) := by
  obtain ⟨y, hy, rfl⟩ := simpson_eq_ok_iff.1 h
  refine simpson_eq_ok_iff.2 ⟨fun i => y (n - i), fun i hi => ?_, ?_⟩
  · rw [samplePoint_reverse lower upper hn hi]
    exact hy (n - i) (Nat.sub_le n i)
  · rw [weightedSum_reverse heven]
    ring

/-- The points of the first half. -/
theorem samplePoint_first (lower upper : ℚ) (n i : ℕ) :
    samplePoint lower (((lower + upper) / 2 - lower) / n) i =
      samplePoint lower ((upper - lower) / (n + n : ℕ)) i := by
  show lower + i * (((lower + upper) / 2 - lower) / n) = lower + i * ((upper - lower) / (n + n : ℕ))
  rw [Nat.cast_add, ← two_mul, ← div_div]
  ring

/-- The points of the second half. -/
theorem samplePoint_second (lower upper : ℚ) (hn : 0 < n) (i : ℕ) :
    samplePoint ((lower + upper) / 2) ((upper - (lower + upper) / 2) / n) i =
      samplePoint lower ((upper - lower) / (n + n : ℕ)) (n + i) := by
  have hn' : (n : ℚ) ≠ 0 := by exact_mod_cast hn.ne'
  show (lower + upper) / 2 + i * ((upper - (lower + upper) / 2) / n) =
    lower + (n + i : ℕ) * ((upper - lower) / (n + n : ℕ))
  push_cast
  field_simp
  ring

/-- **A rule of twice the steps** is one on the first half and one on the second, and it fails as the first
of them to fail. -/
theorem simpson_halves (heven : Even n) (hn : 0 < n) (f : ℚ → Except ε ℚ) (lower upper : ℚ) :
    simpson lower upper (n + n) f =
      simpson lower ((lower + upper) / 2) n f >>= fun v =>
        simpson ((lower + upper) / 2) upper n f >>= fun w => pure (v + w) := by
  rcases values_or_first_error (samplePoint lower ((upper - lower) / (n + n : ℕ))) f (n + n) with
    ⟨y, hy⟩ | ⟨j, hj, e, hok, he⟩
  · have hfirst (i : ℕ) (hi : i ≤ n) :
        f (samplePoint lower (((lower + upper) / 2 - lower) / n) i) = .ok (y i) := by
      rw [samplePoint_first]
      exact hy i (hi.trans (Nat.le_add_left n n))
    have hsecond (i : ℕ) (hi : i ≤ n) :
        f (samplePoint ((lower + upper) / 2) ((upper - (lower + upper) / 2) / n) i) = .ok (y (n + i)) := by
      rw [samplePoint_second lower upper hn]
      exact hy (n + i) (Nat.add_le_add_left hi n)
    rw [simpson_of_pure lower upper hy, simpson_of_pure lower _ hfirst, simpson_of_pure _ upper hsecond,
      pure_bind, pure_bind, weightedSum_add heven hn hn]
    congr 1
    push_cast
    field_simp
    ring
  · rw [simpson_of_error hj hok he]
    rcases Nat.lt_or_ge n j with hlt | hle
    · obtain ⟨v, hv⟩ : ∃ v, simpson lower ((lower + upper) / 2) n f = .ok v :=
        exists_simpson_eq_ok fun i hi => by
          rw [samplePoint_first]
          exact hok i (hi.trans_lt hlt)
      obtain ⟨k, rfl⟩ := Nat.exists_eq_add_of_le hlt.le
      rw [hv, simpson_of_error (Nat.le_of_add_le_add_left hj) (fun i hi => ?_)
        ((congrArg f (samplePoint_second lower upper hn k)).trans he)]
      · rfl
      · exact (congrArg f (samplePoint_second lower upper hn i)) ▸ hok (n + i) (by omega)
    · rw [simpson_of_error hle (fun i hi => ?_) ((congrArg f (samplePoint_first lower upper n j)).trans he)]
      · rfl
      · exact (congrArg f (samplePoint_first lower upper n i)) ▸ hok i hi

/-- **Integrals between bounds.** With its bounds exchanged a rule has the opposite value, and it has a value
from the one side if it has one from the other. With twice the steps it is the sum of two rules, one on each
half of the interval; if the function fails, both sides fail alike. A function that does not fail gives the
rule a value. -/
theorem simpson_interval (f : ℚ → Except ε ℚ) (a b : ℚ) {n : ℕ} (heven : Even n) (hn : 2 ≤ n) :
    (∀ v, simpson b a n f = .ok v ↔ simpson a b n f = .ok (-v)) ∧
    simpson a b (2 * n) f =
      (do return (← simpson a ((a + b) / 2) n f) + (← simpson ((a + b) / 2) b n f)) ∧
    ((∀ x, ∃ y, f x = .ok y) → ∃ v, simpson a b n f = .ok v) := by
  have hpos : 0 < n := two_pos.trans_le hn
  refine ⟨fun v => ⟨simpson_swap heven hpos, fun h => ?_⟩, ?_, fun hf => exists_simpson_eq_ok fun i _ => hf _⟩
  · rw [← neg_neg v]
    exact simpson_swap heven hpos h
  · rw [two_mul]
    exact simpson_halves heven hpos f a b

/-- The reciprocals from minus one to one, of which that of zero fails, and those from one to two. -/
theorem simpson_interval_reciprocals :
    let f (x : ℚ) : Except String ℚ := if x = 0 then .error "pole" else .ok (1 / x)
    Even 2 ∧ 2 ≤ 2 ∧
      simpson 2 1 2 f = .ok (-25 / 36) ∧ simpson 1 2 2 f = .ok (-(-25 / 36)) ∧
      simpson (-1) 1 (2 * 2) f = .error "pole" ∧
      simpson (-1) 1 (2 * 2) f =
        (do return (← simpson (-1) ((-1 + 1) / 2) 2 f) + (← simpson ((-1 + 1) / 2) 1 2 f)) := by
  intro f
  have heven : Even 2 := ⟨1, rfl⟩
  have h := simpson_interval f 1 2 heven (by decide)
  have hvalue : simpson 1 2 2 f = .ok (-(-25 / 36)) := by
    decide +kernel
  have herror : simpson (-1) 1 (2 * 2) f = .error "pole" := by
    decide +kernel
  exact ⟨heven, by decide, (h.1 _).2 hvalue, hvalue, herror,
    (simpson_interval f (-1) 1 heven (by decide)).2.1⟩

end

end LatexCalc
