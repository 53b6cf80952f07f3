import LatexCalc.Proofs.Eval.Lockstep

/-!
# The budget of bodies

The limit on bodies is exact, and all it does is to end an evaluation. An evaluation under a lower
limit follows the one under a higher limit step by step (`Follows`) until it needs more bodies than the
lower limit allows; there it fails. Neither kind of check, of one body or of a whole loop, fails
earlier: what is refused would have been counted in full.
-/

namespace LatexCalc

/-- A failure as it is reported under the limit `L`, if another limit was reached. -/
def EvalError.underLimit (L : Nat) : EvalError → EvalError
  | iterationLimit _ => iterationLimit L
  | e => e

theorem EvalError.underLimit_of_ne {L : Nat} {e : EvalError} (h : ∀ n, e ≠ .iterationLimit n) :
    e.underLimit L = e := by
  cases e with
  | iterationLimit n => exact absurd rfl (h n)
  | _ => rfl

namespace Calc

variable {α β : Type}

/-- The count after a computation, whether it succeeds or fails. -/
def countAfter (x : Calc α) (k : Nat) : Nat :=
  match x k with
  | .ok _ k' => k'
  | .error _ k' => k'

theorem countAfter_of_ok {x : Calc α} {k k' : Nat} {a : α} (h : x k = .ok a k') :
    x.countAfter k = k' := by
  simp [countAfter, h]

theorem countAfter_of_error {x : Calc α} {k k' : Nat} {e : EvalError} (h : x k = .error e k') :
    x.countAfter k = k' := by
  simp [countAfter, h]

theorem Gains.le_countAfter {x : Calc α} (h : Gains 0 x) (k : Nat) : k ≤ x.countAfter k := by
  unfold countAfter
  split
  · next hx => exact h.ok hx
  · next hx => exact h.error hx

/-- From counts up to `L`, the computation `x` stays within `L`, and does what `x'` does unless that
counts more. -/
structure Follows (L : Nat) (x x' : Calc α) : Prop where
  gains : Gains 0 x'
  within : ∀ {k}, k ≤ L → x.countAfter k ≤ L
  ok : ∀ {k a k'}, k ≤ L → x' k = .ok a k' →
    x k = .ok a k' ∨ (L < k' ∧ ∃ j, x k = .error (.iterationLimit L) j)
  error : ∀ {k e k'}, k ≤ L → x' k = .error e k' →
    ∃ j, x k = .error (e.underLimit L) j ∨ x k = .error (.iterationLimit L) j

namespace Follows

variable {L : Nat} {x x' : Calc α}

theorem pure (a : α) : Follows L (pure a : Calc α) (pure a) where
  gains := .pure a
  within hk := hk
  ok _ h := .inl h
  error _ h := by cases h

theorem throw {e : EvalError} (he : ∀ n, e ≠ .iterationLimit n) :
    Follows L (throw e : Calc α) (throw e) where
  gains := .throw e
  within hk := hk
  ok _ h := by cases h
  error hk h := by
    cases h
    rw [EvalError.underLimit_of_ne he]
    exact ⟨_, .inl rfl⟩

theorem bind {f f' : α → Calc β} (hx : Follows L x x') (hf : ∀ a, Follows L (f a) (f' a)) :
    Follows L (x >>= f) (x' >>= f') where
  gains := hx.gains.bind_zero fun a => (hf a).gains
  within {k} hk := by
    have hxk := hx.within hk
    cases h : x k with
    | ok a m =>
      rw [countAfter_of_ok h] at hxk
      rw [countAfter, bind_of_ok h]
      exact (hf a).within hxk
    | error e m =>
      rw [countAfter_of_error h] at hxk
      rw [countAfter, bind_of_error h]
      exact hxk
  ok {k b k'} hk h := by
    obtain ⟨a, m, hxm, hfm⟩ := bind_eq_ok.1 h
    rcases hx.ok hk hxm with hx' | ⟨hm, j, hx'⟩
    · have hmL : m ≤ L := countAfter_of_ok hx' ▸ hx.within hk
      rw [bind_of_ok hx']
      exact (hf a).ok hmL hfm
    · have hmk := (hf a).gains.ok hfm
      exact .inr ⟨by omega, j, bind_of_error hx'⟩
  error {k e k'} hk h := by
    rcases bind_eq_error.1 h with h | ⟨a, m, hxm, hfm⟩
    · obtain ⟨j, hj | hj⟩ := hx.error hk h
      · exact ⟨j, .inl (bind_of_error hj)⟩
      · exact ⟨j, .inr (bind_of_error hj)⟩
    · rcases hx.ok hk hxm with hx' | ⟨-, j, hx'⟩
      · have hmL : m ≤ L := countAfter_of_ok hx' ▸ hx.within hk
        rw [bind_of_ok hx']
        exact (hf a).error hmL hfm
      · exact ⟨j, .inr (bind_of_error hx')⟩

variable {l : Limits} {clock : Clock} {L' : Nat}

/-- A body that fits the lower limit fits the higher one. -/
theorem tick (ht : l.timeout = none) (hL : L ≤ L') (hL' : L' < maxCount) :
    Follows L (tick { l with maxIterations := L } clock)
      (tick { l with maxIterations := L' } clock) where
  gains := (gains_tick _ _).mono (Nat.zero_le _)
  within {k} hk := by
    simp only [countAfter, tick_run, ht]
    by_cases h : L < min (k + 1) maxCount
    · rw [if_pos h]
      exact hk
    · rw [if_neg h]
      show k + 1 ≤ L
      omega
  ok {k a k'} hk h := by
    simp only [tick_run, ht] at h ⊢
    split at h
    · cases h
    · cases h
      by_cases hlt : L < min (k + 1) maxCount
      · rw [if_pos hlt]
        exact .inr ⟨by omega, k, rfl⟩
      · rw [if_neg hlt]
        exact .inl rfl
  error {k e k'} hk h := by
    simp only [tick_run, ht] at h ⊢
    split at h
    · next hlt =>
      cases h
      rw [if_pos (by omega)]
      exact ⟨k, .inl rfl⟩
    · cases h

/-- What is refused by the lower limit would have been counted in full under the higher one. -/
theorem reserve {n : Nat} (hL : L ≤ L') (hx : Follows L x x') (hn : Gains n x') :
    Follows L (reserve { l with maxIterations := L } n >>= fun _ => x)
      (reserve { l with maxIterations := L' } n >>= fun _ => x') where
  gains := (gains_reserve _ _).bind_zero fun _ => hx.gains
  within {k} hk := by
    by_cases hlt : L < min (k + n) maxCount
    · rw [countAfter, bind_of_error (by rw [reserve_run, if_pos hlt])]
      exact hk
    · rw [countAfter, bind_of_ok (by rw [reserve_run, if_neg hlt])]
      exact hx.within hk
  ok {k a k'} hk h := by
    by_cases hlt' : L' < min (k + n) maxCount
    · rw [bind_of_error (by rw [reserve_run, if_pos hlt'])] at h
      cases h
    · rw [bind_of_ok (by rw [reserve_run, if_neg hlt'])] at h
      by_cases hlt : L < min (k + n) maxCount
      · have hk' := hn.ok h
        rw [bind_of_error (by rw [reserve_run, if_pos hlt])]
        exact .inr ⟨by omega, k, rfl⟩
      · rw [bind_of_ok (by rw [reserve_run, if_neg hlt])]
        exact hx.ok hk h
  error {k e k'} hk h := by
    by_cases hlt : L < min (k + n) maxCount
    · rw [bind_of_error (by rw [reserve_run, if_pos hlt])]
      exact ⟨k, .inr rfl⟩
    · rw [bind_of_ok (by rw [reserve_run, if_neg (by simp only; omega)])] at h
      rw [bind_of_ok (by rw [reserve_run, if_neg hlt])]
      exact hx.error hk h

end Follows

/-- An evaluation under a lower limit follows the one under a higher limit. -/
theorem follows_eval {l : Limits} {L L' : Nat} (clock : Clock) (ht : l.timeout = none) (hL : L ≤ L')
    (hL' : L' < maxCount) (e : Expr) (scope : Scope) :
    Follows L (e.eval { l with maxIterations := L } clock scope)
      (e.eval { l with maxIterations := L' } clock scope) := by
  have hR : Lockstep { l with maxIterations := L } { l with maxIterations := L' } clock clock
      (Follows L) := {
    quadratureSteps := rfl
    derivativeStep := rfl
    gains := Follows.gains
    pure := .pure
    throw := .throw
    bind := .bind
    tick := .tick ht hL hL'
    reserve := .reserve hL }
  exact hR.eval e scope

end Calc

/-- **The budget is exact and only ever aborts.** Let an expression be evaluated from the count `k`
under a limit `L'` on bodies and under a lower one `L`, all other limits being the same and time
without a limit. A value and a count up to `L` are the same under both; a greater count makes the
limit `L` fail. A failure is the same, unless the limit `L` fails. The count stays between `k` and `L`
under the limit `L`. -/
theorem eval_budget {l : Limits} {k L L' : Nat} (clock : Clock) (ht : l.timeout = none) (hk : k ≤ L)
    (hL : L ≤ L') (hL' : L' < maxCount) (e : Expr) (scope : Scope) :
    let run (M : Nat) := e.eval { l with maxIterations := M } clock scope
    (∀ x k', run L' k = .ok x k' →
      (k' ≤ L → run L k = .ok x k') ∧ (L < k' → ∃ j, run L k = .error (.iterationLimit L) j)) ∧
    (∀ cause k', run L' k = .error cause k' →
      ∃ j, run L k = .error (cause.underLimit L) j ∨ run L k = .error (.iterationLimit L) j) ∧
    k ≤ (run L).countAfter k ∧ (run L).countAfter k ≤ L := by
  intro run
  have hrun : Calc.Follows L (run L) (run L') := Calc.follows_eval clock ht hL hL' e scope
  refine ⟨fun x k' h => ⟨fun hle => ?_, fun hlt => ?_⟩, fun cause k' h => hrun.error hk h, ?_,
    hrun.within hk⟩
  · rcases hrun.ok hk h with h | ⟨hlt, -⟩
    · exact h
    · omega
  · rcases hrun.ok hk h with h | ⟨-, h⟩
    · have hwithin := hrun.within hk
      rw [Calc.countAfter_of_ok h] at hwithin
      omega
    · exact h
  · exact (gains_eval _ clock e scope).le_countAfter k

/-- A sum of two bodies under the limits of one and two. -/
theorem eval_budget_two_bodies :
    let l : Limits := { timeout := none }
    let e : Expr := .sum "i" (.number 1) (.number 2) (.ident "i")
    let run (M : Nat) := e.eval { l with maxIterations := M } .steady (.global .empty)
    l.timeout = none ∧ 0 ≤ 1 ∧ 1 ≤ 2 ∧ 2 < maxCount ∧ run 2 0 = .ok 3 2 ∧
      ∃ j, run 1 0 = .error (.iterationLimit 1) j := by
  intro l e run
  have hmax : 2 < maxCount := by decide
  have h := eval_budget (l := l) (k := 0) (L := 1) .steady rfl (by decide) (by decide) hmax e
    (.global .empty)
  have hrun : run 2 0 = .ok 3 2 := rfl
  exact ⟨rfl, by decide, by decide, hmax, hrun, (h.1 3 2 hrun).2 (by decide)⟩

end LatexCalc
