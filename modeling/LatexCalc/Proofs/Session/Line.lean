import Mathlib
import LatexCalc.Proofs.Eval.Lockstep
import LatexCalc.Session

/-!
# One line

What a line stands for (`parseLine_eq_ok_iff`), and what its evaluation comes to
(`evaluateWith_of_validate`). Without a limit on time the clock makes no difference
(`evaluateWith_clock`).
-/

namespace LatexCalc

/-- A line stands for what its tokens do. -/
theorem parseLine_eq_ok_iff {line : String} {st : Statement} :
    parseLine line = .ok st ↔ ∃ ts, tokenize line = .ok ts ∧ parseStatement line ts = .ok st := by
  unfold parseLine
  cases tokenize line with
  | error cause => simp [Except.mapError, bind, Except.bind]
  | ok ts =>
    cases hst : parseStatement line ts with
    | error cause => simp [Except.mapError, bind, Except.bind, hst]
    | ok st' => simp [Except.mapError, bind, Except.bind, hst]

/-- A line whose tokens are no statement. -/
theorem parseLine_eq_parse_iff {line : String} {cause : ParseError} :
    parseLine line = .error (.parse cause) ↔
      ∃ ts, tokenize line = .ok ts ∧ parseStatement line ts = .error cause := by
  unfold parseLine
  cases tokenize line with
  | error cause => simp [Except.mapError, bind, Except.bind]
  | ok ts =>
    cases hst : parseStatement line ts with
    | error cause => simp [Except.mapError, bind, Except.bind, hst]
    | ok st' => simp [Except.mapError, bind, Except.bind, hst]

/-- Limits are used as they are, or not at all. -/
theorem Limits.eq_of_validate {l l' : Limits} (h : l.validate = .ok l') : l = l' := by
  unfold Limits.validate at h
  split at h
  · cases h
  · split at h <;> cases h
    rfl

variable {limits limits' : Limits}

/-- What the statement of a line comes to within limits that can be used, and the variables after it. -/
theorem evaluateWith_of_validate (hv : limits.validate = .ok limits') (clock : Clock) (line : String)
    (env : Environment) :
    evaluateWith limits clock line env =
      match parseLine line with
      | .error cause => (.error cause, env)
      | .ok (.expr e) => ((evalIn limits clock e env).mapError .eval, env)
      | .ok (.assign name e) =>
        match evalIn limits clock e env with
        | .ok x => (.ok x, env.define name x)
        | .error cause => (.error (.eval cause), env) := by
  obtain rfl := Limits.eq_of_validate hv
  unfold evaluateWith
  rw [hv]
  cases parseLine line with
  | error cause => rfl
  | ok st =>
    cases st with
    | expr e =>
      simp only [Except.mapError, bind, Except.bind, runStatement]
      cases evalIn limits clock e env <;> rfl
    | assign name e =>
      simp only [Except.mapError, bind, Except.bind, runStatement]
      cases evalIn limits clock e env <;> rfl

theorem evaluateWith_of_not_validate {cause : LimitsError} (hv : limits.validate = .error cause)
    (clock : Clock) (line : String) (env : Environment) :
    evaluateWith limits clock line env = (.error (.limits cause), env) := by
  unfold evaluateWith
  rw [hv]
  rfl

/-- **Without a limit on time, a line does the same whatever the clock.** -/
theorem evaluateWith_clock (ht : limits.timeout = none) (clock clock' : Clock) (line : String)
    (env : Environment) :
    evaluateWith limits clock line env = evaluateWith limits clock' line env := by
  have heval (e : Expr) : evalIn limits clock e env = evalIn limits clock' e env := by
    unfold evalIn
    rw [eval_clock ht clock clock']
  cases hv : limits.validate with
  | error cause => rw [evaluateWith_of_not_validate hv, evaluateWith_of_not_validate hv]
  | ok limits' =>
    rw [evaluateWith_of_validate hv, evaluateWith_of_validate hv]
    simp only [heval]

end LatexCalc
