import LatexCalc.Proofs.Eval.Lockstep
import LatexCalc.Proofs.Session.Line

/-!
# Lines that keep their deadline

A limit on time shows only in evaluations that run out of it: where a line does not fail for that, it
does what it does without the limit (`evaluateWith_timeless`).
-/

namespace LatexCalc

open Calc

/-- The same limits but for the one on time. -/
def Limits.timeless (l : Limits) : Limits :=
  { l with timeout := none }

theorem Limits.validate_timeless {l l' : Limits} (h : l.validate = .ok l') :
    l.timeless.validate = .ok l.timeless := by
  unfold Limits.validate at h ⊢
  split at h
  · cases h
  · next hsteps =>
    split at h
    · next hderivative => exact (if_neg hsteps).trans (if_pos hderivative)
    · cases h

variable {l : Limits}

/-- The two computations come to the same from a count, unless the first one runs out of time. -/
def AgreesFrom {α : Type} (k : Nat) (x x' : Calc α) : Prop :=
  (∃ limit k', x k = .error (.timeout limit) k') ∨ x k = x' k

theorem AgreesFrom.bind {α β : Type} {x x' : Calc α} {f f' : α → Calc β}
    {k : Nat} (hx : AgreesFrom k x x') (hf : ∀ a m, AgreesFrom m (f a) (f' a)) :
    AgreesFrom k (x >>= f) (x' >>= f') := by
  rcases hx with ⟨limit, k', h⟩ | h
  · exact .inl ⟨limit, k', bind_of_error h⟩
  · cases hk : x k with
    | ok a m =>
      rw [AgreesFrom, bind_of_ok hk, bind_of_ok (h ▸ hk)]
      exact hf a m
    | error e m => exact .inr (by rw [bind_of_error hk, bind_of_error (h ▸ hk)])

theorem agreesFrom_tick (clock clock' : Clock) (k : Nat) :
    AgreesFrom k (tick l clock) (tick l.timeless clock') := by
  rw [AgreesFrom, tick_run, tick_run]
  show _ ∨ _ = if l.maxIterations < min (k + 1) maxCount then _ else EStateM.Result.ok () (k + 1)
  by_cases hbudget : l.maxIterations < min (k + 1) maxCount
  · rw [if_pos hbudget, if_pos hbudget]
    exact .inr rfl
  · rw [if_neg hbudget, if_neg hbudget]
    split
    · exact .inr rfl
    · split
      · exact .inl ⟨_, _, rfl⟩
      · exact .inr rfl

/-- **An evaluation that keeps its deadline** is the evaluation without one. -/
theorem eval_timeless (clock clock' : Clock) (e : Expr) (scope : Scope) (k : Nat) :
    AgreesFrom k (e.eval l clock scope) (e.eval l.timeless clock' scope) := by
  have hR : Lockstep l l.timeless clock clock'
      fun x x' => (∀ k, AgreesFrom k x x') ∧ Gains 0 x' := {
    quadratureSteps := rfl
    derivativeStep := rfl
    gains := And.right
    pure := fun a => ⟨fun _ => .inr rfl, .pure a⟩
    throw := fun _ => ⟨fun _ => .inr rfl, .throw _⟩
    bind := fun hx hf => ⟨fun k => (hx.1 k).bind fun a => (hf a).1, hx.2.bind_zero fun a => (hf a).2⟩
    tick := ⟨agreesFrom_tick clock clock', (gains_tick _ clock').mono (Nat.zero_le _)⟩
    reserve := fun hx _ => ⟨fun k => AgreesFrom.bind (.inr rfl) fun _ => hx.1,
      (gains_reserve _ _).bind_zero fun _ => hx.2⟩ }
  exact (hR.eval e scope).1 k

theorem evalIn_timeless (clock clock' : Clock) (e : Expr) (env : Environment) :
    (∃ limit, evalIn l clock e env = .error (.timeout limit)) ∨
      evalIn l clock e env = evalIn l.timeless clock' e env := by
  unfold evalIn
  rcases eval_timeless (l := l) clock clock' e (.global env) 0 with ⟨limit, k', h⟩ | h
  · exact .inl ⟨limit, by rw [h]⟩
  · exact .inr (by rw [h])

/-- **A line that keeps its deadline** does what it does without one. -/
theorem evaluateWith_timeless (hv : l.validate = .ok l) (clock clock' : Clock) (line : String)
    (env : Environment) :
    (∃ limit, (evaluateWith l clock line env).1 = .error (.eval (.timeout limit))) ∨
      evaluateWith l clock line env = evaluateWith l.timeless clock' line env := by
  rw [evaluateWith_of_validate hv, evaluateWith_of_validate (Limits.validate_timeless hv)]
  cases parseLine line with
  | error cause => exact .inr rfl
  | ok st =>
    cases st with
    | expr e =>
      rcases evalIn_timeless (l := l) clock clock' e env with ⟨limit, h⟩ | h
      · exact .inl ⟨limit, by simp only [h]; rfl⟩
      · exact .inr (by simp only [h])
    | assign name e =>
      rcases evalIn_timeless (l := l) clock clock' e env with ⟨limit, h⟩ | h
      · exact .inl ⟨limit, by simp only [h]⟩
      · exact .inr (by simp only [h])

end LatexCalc
