import LatexCalc.Numeric.Quadrature
import LatexCalc.Proofs.Numeric.Fold

/-!
# Samples

Simpson's rule samples its function at equal distances, from the first point to the last (`samplePoints`).
The first point at which the function fails ends the rule with that failure (`simpson_of_error`). At which
points the function is called shows where it notes its calls down: these are all points up to the first
failure (`run_simpson_noted`).
-/

namespace LatexCalc

/-- A function has values at the first points of a sequence, or there is a first one at which it fails. -/
theorem values_or_first_error {α ε : Type} (point : Nat → α) (f : α → Except ε α) (n : Nat) :
    (∃ y : Nat → α, ∀ i ≤ n, f (point i) = .ok (y i)) ∨
      ∃ j ≤ n, ∃ e, (∀ i < j, ∃ y, f (point i) = .ok y) ∧ f (point j) = .error e := by
  induction n with
  | zero =>
    cases h : f (point 0) with
    | ok y => exact .inl ⟨fun _ => y, fun i hi => by rwa [Nat.le_zero.1 hi]⟩
    | error e => exact .inr ⟨0, Nat.le_refl 0, e, fun i hi => absurd hi (Nat.not_lt_zero i), h⟩
  | succ n ih =>
    rcases ih with ⟨y, hy⟩ | ⟨j, hj, hfirst⟩
    · cases h : f (point (n + 1)) with
      | ok z =>
        refine .inl ⟨Function.update y (n + 1) z, fun i hi => ?_⟩
        rcases Nat.le_succ_iff.1 hi with hi | rfl
        · rw [Function.update_of_ne (by omega), hy i hi]
        · rw [Function.update_self, h]
      | error e =>
        exact .inr ⟨n + 1, Nat.le_refl _, e, fun i hi => ⟨y i, hy i (Nat.lt_succ_iff.1 hi)⟩, h⟩
    · exact .inr ⟨j, Nat.le_succ_of_le hj, hfirst⟩

variable {m : Type → Type} [Monad m] {α ε : Type} [Arithmetic α]

/-- The rule is a loop that calls its function on one point after the other. -/
theorem simpson_eq_callLoop (lower upper : α) (n : Nat) (f : α → m α) :
    simpson lower upper n f =
      callLoop (samplePoint lower (sampleDistance lower upper n))
        (fun i sum y => sum + sampleWeight n i * y) f 0 (n + 1) 0.0 >>=
        fun sum => pure (sum * sampleDistance lower upper n / 3.0) :=
  rfl

/-- **The rule fails** as its function does at the first point at which that fails. -/
theorem simpson_of_error {f : α → Except ε α} {lower upper : α} {n j : Nat} {e : ε} (hj : j ≤ n)
    (hok : ∀ i < j, ∃ y, f (samplePoint lower (sampleDistance lower upper n) i) = .ok y)
    (he : f (samplePoint lower (sampleDistance lower upper n) j) = .error e) :
    simpson lower upper n f = .error e := by
  rw [simpson_eq_callLoop, callLoop_of_first_error (Nat.lt_succ_of_le hj)]
  · rfl
  · simpa only [Nat.zero_add] using hok
  · simpa only [Nat.zero_add] using he

/-- The points of a rule, in their order. -/
def samplePoints (lower upper : α) (n : Nat) : List α :=
  (List.range (n + 1)).map (samplePoint lower (sampleDistance lower upper n))

/-- What Simpson's rule calls its function on, one number after the other. -/
def simpsonCalls (lower upper : α) (n : Nat) (f : α → Except ε α) : List α :=
  ((simpson lower upper n (noted f)).run.run []).2

/-- **A rule whose function notes down its calls** comes to the same as one whose function does not, and the
calls are the points of the rule up to the first failure. -/
theorem run_simpson_noted (lower upper : α) (n : Nat) (f : α → Except ε α) :
    (simpson lower upper n (noted f)).run.run [] =
      (simpson lower upper n f, upToFailure f (samplePoints lower upper n)) := by
  rw [simpson_eq_callLoop, simpson_eq_callLoop, ExceptT.run_bind, StateT.run_bind, run_callLoop_noted,
    samplePoints, List.range_eq_range', List.nil_append]
  cases callLoop (samplePoint lower (sampleDistance lower upper n))
    (fun i sum y => sum + sampleWeight n i * y) f 0 (n + 1) 0.0 <;> rfl

theorem simpsonCalls_eq (lower upper : α) (n : Nat) (f : α → Except ε α) :
    simpsonCalls lower upper n f = upToFailure f (samplePoints lower upper n) := by
  rw [simpsonCalls, run_simpson_noted]

/-- The function is called on points of the rule. -/
theorem exists_of_mem_simpsonCalls {lower upper x : α} {n : Nat} {f : α → Except ε α}
    (h : x ∈ simpsonCalls lower upper n f) :
    ∃ i ≤ n, x = samplePoint lower (sampleDistance lower upper n) i := by
  rw [simpsonCalls_eq] at h
  obtain ⟨i, hi, rfl⟩ := List.mem_map.1 ((upToFailure_isPrefix f _).subset h)
  exact ⟨i, Nat.lt_succ_iff.1 (List.mem_range.1 hi), rfl⟩

/-- A function that does not fail is called on all points. -/
theorem simpsonCalls_of_ok {f : α → Except ε α} (hf : ∀ x, ∃ y, f x = .ok y) (lower upper : α)
    (n : Nat) : simpsonCalls lower upper n f = samplePoints lower upper n := by
  rw [simpsonCalls_eq]
  exact upToFailure_of_ok hf _

end LatexCalc
