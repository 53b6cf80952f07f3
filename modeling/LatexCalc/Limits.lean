import LatexCalc.Decimal.Shortest
import LatexCalc.Diagnostic

/-!
# Limits

Bounds on the work that one line may do, and the settings of the numeric methods.
-/

namespace LatexCalc

/-- Bounds on the work of one line. -/
structure Limits where
  /-- How often bodies of sums, products, integrals and derivatives may be evaluated. -/
  maxIterations : Nat := 10000000
  /-- The time in nanoseconds after which evaluation is given up. -/
  timeout : Option Nat := some 5000000000
  /-- The steps of an integral. -/
  quadratureSteps : Nat := 500
  /-- The distance at which a derivative compares values. -/
  derivativeStep : Float := 1e-6
  deriving DecidableEq

/-- Why limits cannot be used. -/
inductive LimitsError
  | steps (count : Nat)
  | derivativeStep (h : Float)
  deriving DecidableEq

/-- The account of the failure. -/
def LimitsError.diagnostic : LimitsError → Diagnostic
  | steps count =>
    { message := "quadrature step count must be even and positive, got " ++ toString count
      code := "euclid::config::steps" }
  | derivativeStep h =>
    { message := "derivative step must be positive and finite, got " ++ floatText h
      code := "euclid::config::derivative_step" }

/-- Limits that can be used: integrals have an even number of steps, and derivatives a step that is
positive and finite. -/
def Limits.validate (l : Limits) : Except LimitsError Limits :=
  if l.quadratureSteps = 0 ∨ l.quadratureSteps % 2 = 1 then .error (.steps l.quadratureSteps)
  else if l.derivativeStep.isFinite ∧ 0 < l.derivativeStep then .ok l
  else .error (.derivativeStep l.derivativeStep)

end LatexCalc
