import LatexCalc.Proofs.Eval.Budget

/-!
# Deadlines that have passed

The time is looked up when a body is begun, and only then. So a deadline that has passed before the first
body shows at that body and nowhere else (`Expires`): an evaluation that begins no body does what it does
without a deadline, and any other fails as soon as it has counted one (`eval_zero_deadline`).
-/

namespace LatexCalc

namespace Calc

variable {α β : Type} {limit k : Nat} {x x' : Calc α}

theorem countAfter_le_bind {f : α → Calc β} (hf : ∀ a, Gains 0 (f a)) (x : Calc α) (k : Nat) :
    x.countAfter k ≤ (x >>= f).countAfter k := by
  cases h : x k with
  | ok a m =>
    rw [countAfter_of_ok h, countAfter, bind_of_ok h]
    exact (hf a).le_countAfter m
  | error e m =>
    exact Nat.le_of_eq ((countAfter_of_error h).trans (countAfter_of_error (bind_of_error h)).symm)

/-- The computation `x` does what `x'` does where that counts no body. Where it counts one, the time is up
for `x` at the first one. -/
structure Expires (limit : Nat) (x x' : Calc α) : Prop where
  gains : Gains 0 x'
  outcome : ∀ k, x'.countAfter k = k ∧ x k = x' k ∨
    k < x'.countAfter k ∧ x k = .error (.timeout limit) (k + 1)

namespace Expires

/-- A computation that counts no body has no deadline to keep. -/
theorem of_idle (hx : Gains 0 x) (h : ∀ k, x.countAfter k = k) : Expires limit x x where
  gains := hx
  outcome k := .inl ⟨h k, rfl⟩

theorem bind {f f' : α → Calc β} (hx : Expires limit x x') (hf : ∀ a, Expires limit (f a) (f' a)) :
    Expires limit (x >>= f) (x' >>= f') where
  gains := hx.gains.bind_zero fun a => (hf a).gains
  outcome k := by
    rcases hx.outcome k with ⟨hcount, heq⟩ | ⟨hcount, htimeout⟩
    · cases h : x' k with
      | ok a m =>
        obtain rfl : m = k := (countAfter_of_ok h).symm.trans hcount
        rw [countAfter, bind_of_ok h, bind_of_ok (heq.trans h)]
        exact (hf a).outcome m
      | error e m =>
        obtain rfl : m = k := (countAfter_of_error h).symm.trans hcount
        have hfailed : (x' >>= f') m = .error e m := bind_of_error h
        exact .inl ⟨countAfter_of_error hfailed, (bind_of_error (heq.trans h)).trans hfailed.symm⟩
    · have hle := countAfter_le_bind (fun a => (hf a).gains) x' k
      exact .inr ⟨Nat.lt_of_lt_of_le hcount hle, bind_of_error htimeout⟩

variable {l : Limits} {clock : Clock}

theorem countAfter_reserve (n k : Nat) : (reserve l n).countAfter k = k := by
  rw [countAfter, reserve_run]
  by_cases h : l.maxIterations < min (k + n) maxCount
  · rw [if_pos h]
  · rw [if_neg h]

/-- A body that fits the budget begins too late for the deadline. -/
theorem tick (hclock : ∀ n, limit < clock (n + 1)) (clock' : Clock) :
    Expires limit (tick { l with timeout := some limit } clock)
      (tick { l with timeout := none } clock') where
  gains := (gains_tick _ _).mono (Nat.zero_le _)
  outcome k := by
    simp only [countAfter, tick_run]
    by_cases hbudget : l.maxIterations < min (k + 1) maxCount
    · rw [if_pos hbudget, if_pos hbudget]
      exact .inl ⟨rfl, rfl⟩
    · rw [if_neg hbudget, if_neg hbudget, if_pos (hclock k)]
      exact .inr ⟨Nat.lt_succ_self k, rfl⟩

end Expires

/-- An evaluation with a deadline that has passed before the first body. -/
theorem expires_eval {l : Limits} {clock : Clock} (hclock : ∀ n, limit < clock (n + 1)) (clock' : Clock)
    (e : Expr) (scope : Scope) :
    Expires limit (e.eval { l with timeout := some limit } clock scope)
      (e.eval { l with timeout := none } clock' scope) := by
  have hR : Lockstep { l with timeout := some limit } { l with timeout := none } clock clock'
      (Expires limit) := {
    quadratureSteps := rfl
    derivativeStep := rfl
    gains := Expires.gains
    pure := fun a => .of_idle (.pure a) fun _ => rfl
    throw := fun _ => .of_idle (.throw _) fun _ => rfl
    bind := .bind
    tick := .tick hclock clock'
    reserve := fun hx _ =>
      Expires.bind (.of_idle (gains_reserve _ _) (Expires.countAfter_reserve _)) fun _ => hx }
  exact hR.eval e scope

end Calc

/-- **A deadline of zero aborts at the first body, and nowhere else.** Let the clock have advanced whenever
the time is looked up. An expression that counts no body without a deadline comes to the same value or error
and to the same count with a deadline of zero. Any other runs out of time with exactly one body counted. -/
theorem eval_zero_deadline {clock : Clock} (hclock : ∀ n, 0 < clock (n + 1)) (l : Limits)
    (clock' : Clock) (e : Expr) (scope : Scope) (k : Nat) :
    let timeless := e.eval { l with timeout := none } clock' scope
    let urgent := e.eval { l with timeout := some 0 } clock scope
    (timeless.countAfter k = k → urgent k = timeless k) ∧
    (timeless.countAfter k ≠ k → urgent k = .error (.timeout 0) (k + 1)) := by
  intro timeless urgent
  rcases (Calc.expires_eval (l := l) hclock clock' e scope).outcome k with ⟨hcount, h⟩ | ⟨hcount, h⟩
  · exact ⟨fun _ => h, fun hne => absurd hcount hne⟩
  · exact ⟨fun heq => absurd heq (Nat.ne_of_gt hcount), fun _ => h⟩

/-- A sum whose bounds count no body, and one without terms. -/
theorem eval_zero_deadline_two_sums :
    let run (timeout : Option Nat) (e : Expr) :=
      e.eval { timeout := timeout } .steady (.global .empty)
    let sum (stop : Float) : Expr := .sum "i" (.number 1) (.number stop) (.ident "y")
    (∀ n, 0 < Clock.steady (n + 1)) ∧
    ((run none (sum 3)).countAfter 5 ≠ 5 ∧ run none (sum 3) 5 = .error (.undefinedVariable "y") 6 ∧
      run (some 0) (sum 3) 5 = .error (.timeout 0) 6) ∧
    ((run none (sum 0)).countAfter 5 = 5 ∧ run none (sum 0) 5 = .ok 0 5 ∧
      run (some 0) (sum 0) 5 = .ok 0 5) := by
  intro run sum
  have hclock : ∀ n, 0 < Clock.steady (n + 1) := Nat.succ_pos
  have h (stop : Float) := eval_zero_deadline hclock {} .steady (sum stop) (.global .empty) 5
  have hbegun : run none (sum 3) 5 = .error (.undefinedVariable "y") 6 := rfl
  have hidle : run none (sum 0) 5 = .ok 0 5 := rfl
  have hne : (run none (sum 3)).countAfter 5 ≠ 5 := by
    rw [Calc.countAfter_of_error hbegun]
    decide
  have heq : (run none (sum 0)).countAfter 5 = 5 := Calc.countAfter_of_ok hidle
  exact ⟨hclock, ⟨hne, hbegun, (h 3).2 hne⟩, heq, hidle, ((h 0).1 heq).trans hidle⟩

end LatexCalc
