import LatexCalc.Numeric.Arithmetic

/-!
# Differences

A derivative is approximated by a central difference. Without a point to take it at it is a number
only if it is the same everywhere: it is sampled at five points, and reported if all samples agree
with the first one up to a relative tolerance.
-/

namespace LatexCalc

variable {m : Type → Type} [Monad m] {α : Type} [Arithmetic α]

open Arithmetic

/-- Approximates the derivative of `f` at a point by the slope between the values at a distance `h`
on both sides. -/
@[specialize]
def centralDifference (point h : α) (f : α → m α) : m α := do
  let ahead ← f (point + h)
  let behind ← f (point - h)
  return (ahead - behind) / (2.0 * h)

/-- The points at which a derivative without a point is sampled. -/
def referencePoints : List α :=
  [0.0, 1.0, -1.0, 0.5, 2.0]

/-- How far samples of the same slope may be apart, relative to the first one. -/
def agreementTolerance : α :=
  1e-4

/-- A number, or one if it is less. -/
def atLeastOne (x : α) : α :=
  if le x 1.0 then 1.0 else x

/-- Whether all samples are finite and near to the first one. No samples do not agree. -/
def samplesAgree : List α → Bool
  | [] => false
  | first :: rest =>
    (first :: rest).all fun s =>
      isFinite s && le (abs (s - first)) (agreementTolerance * atLeastOne (abs first))

/-- The slope of `f`, if it is the same at all reference points. -/
@[specialize]
def constantSlope? (h : α) (f : α → m α) : m (Option α) := do
  let samples ← referencePoints.mapM fun point => centralDifference point h f
  return if samplesAgree samples then samples.head? else none

end LatexCalc
