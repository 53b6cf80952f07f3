import LatexCalc.Decimal.Shortest
import LatexCalc.Diagnostic

/-!
# Evaluation errors

Why an expression has no value. Failures of arithmetic are none: their results are infinite or
undefined numbers, which only bounds and the samples of integrals must not be.
-/

namespace LatexCalc

/-- The bounds of integrals, and of sums and products. -/
inductive BoundName
  | lower
  | upper
  | start
  | stop
  deriving DecidableEq, Repr

/-- A bound as messages name it. -/
def BoundName.text : BoundName → String
  | lower => "lower"
  | upper => "upper"
  | start => "start"
  | stop => "end"

inductive EvalError
  | undefinedVariable (name : String)
  | unknownFunction (name : String)
  /-- An integrand is not finite at a point. -/
  | nonFiniteSample (name : String) (point value : Float)
  /-- A derivative without a point depends on the point. -/
  | nonConstant (name : String)
  | invalidBound (which : BoundName) (value : Float)
  | iterationLimit (limit : Nat)
  | timeout (limit : Nat)
  deriving DecidableEq

/-- A count of nanoseconds in the greatest unit that it fills, without zeros at the end. -/
def durationText (ns : Nat) : String :=
  if 1000000000 ≤ ns then (Decimal.text ⟨ns, -9⟩) ++ "s"
  else if 1000000 ≤ ns then (Decimal.text ⟨ns, -6⟩) ++ "ms"
  else if 1000 ≤ ns then (Decimal.text ⟨ns, -3⟩) ++ "µs"
  else toString ns ++ "ns"

namespace EvalError

/-- The account of the failure. -/
def diagnostic : EvalError → Diagnostic
  | undefinedVariable name =>
    { message := "undefined variable '" ++ name ++ "'"
      code := "euclid::eval::undefined_variable"
      help := "declare it first, e.g. `" ++ name ++ " = 1`" }
  | unknownFunction name =>
    { message := "unknown function '\\" ++ name ++ "'"
      code := "euclid::eval::unknown_function"
      help := "known functions: sin, cos, tan, sec, csc, cot, sqrt, ln, log, exp" }
  | nonFiniteSample name point value =>
    { message := "integrand is " ++ floatText value ++ " at " ++ name ++ " = " ++ floatText point
      code := "euclid::eval::integration"
      help := "the integrand must be finite on the whole interval" }
  | nonConstant name =>
    { message := "derivative with respect to '" ++ name ++ "' is not constant"
      code := "euclid::eval::derivative"
      help := "evaluate it at a point: \\frac\x7bd\x7d\x7bd" ++ name ++ "\x7d|_\x7b" ++ name ++
        "=a\x7d ..." }
  | invalidBound which value =>
    { message := which.text ++ " bound is not a finite number (" ++ floatText value ++ ")"
      code := "euclid::eval::invalid_bound" }
  | iterationLimit limit =>
    { message := "evaluation needs more than " ++ toString limit ++ " iterations"
      code := "euclid::eval::iteration_limit"
      help := "raise --max-iterations or shrink the range" }
  | timeout limit =>
    { message := "evaluation took longer than " ++ durationText limit
      code := "euclid::eval::timeout"
      help := "raise --timeout-ms" }

end EvalError

end LatexCalc
