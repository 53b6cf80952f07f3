import LatexCalc.Numeric.Arithmetic

/-!
# Quadrature

Simpson's composite rule: an integral is approximated by a weighted sum of samples at equal
distances, `h / 3 · (f₀ + 4 f₁ + 2 f₂ + … + 4 fₙ₋₁ + fₙ)`. Taking a sample may fail or have effects;
samples are taken from the lower bound to the upper one, and the first failure ends the rule.
-/

namespace LatexCalc

variable {m : Type → Type} [Monad m] {α : Type} [Arithmetic α]

open Arithmetic

/-- The distance of two samples. -/
def sampleDistance (lower upper : α) (steps : Nat) : α :=
  (upper - lower) / ofCount steps

/-- Where sample `i` is taken. -/
def samplePoint (lower h : α) (i : Nat) : α :=
  lower + ofCount i * h

/-- How many samples are announced before the first one is taken. The count is a word of 64 bits: it is
`steps + 1`, except that the greatest number of steps, `maxCount`, announces none. -/
def announcedSamples (steps : Nat) : Nat :=
  (steps + 1) % UInt64.size

/-- Below the greatest number of steps, what is announced is what is taken. -/
theorem announcedSamples_of_lt {steps : Nat} (h : steps < maxCount) :
    announcedSamples steps = steps + 1 :=
  Nat.mod_eq_of_lt (Nat.add_lt_of_lt_sub h)

/-- How much sample `i` counts: the first and last once, the others four times and twice in turn. -/
def sampleWeight (steps i : Nat) : α :=
  if i = 0 ∨ i = steps then 1.0 else if i % 2 = 1 then 4.0 else 2.0

/-- Approximates the integral of `f` from `lower` to `upper` by `steps + 1` samples. The number of
steps should be even. Where `upper` is less than `lower`, the integral is negated. -/
@[specialize]
def simpson (lower upper : α) (steps : Nat) (f : α → m α) : m α := do
  let h := sampleDistance lower upper steps
  let sum ← foldFrom
    (fun i sum => do
      let y ← f (samplePoint lower h i)
      return sum + sampleWeight steps i * y)
    0 (steps + 1) 0.0
  return sum * h / 3.0

end LatexCalc
