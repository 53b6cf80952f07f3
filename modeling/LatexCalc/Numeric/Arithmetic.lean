/-!
# Arithmetics

The numeric methods ask little of the numbers they work on: the four operations, order, literals,
which numbers are finite, and counts of steps in both directions. `Arithmetic` collects that. Doubles
have one, and lines are evaluated with it; the methods themselves are stated for all.

`foldFrom` is the loop that every method runs.
-/

namespace LatexCalc

/-- The greatest count: counts are kept in words of 64 bits. -/
def maxCount : Nat := UInt64.size - 1

/-- What the numeric methods use of their numbers. -/
class Arithmetic (α : Type) extends Add α, Sub α, Mul α, Div α, Neg α, OfScientific α where
  /-- Whether the first number is less than the second. -/
  lt : α → α → Bool
  /-- Whether the first number is at most the second. -/
  le : α → α → Bool
  /-- The magnitude. -/
  abs : α → α
  /-- Whether a number is neither infinite nor undefined. -/
  isFinite : α → Bool
  /-- The number nearest to a count. -/
  ofCount : Nat → α
  /-- The whole part of a number that is not negative, at most `maxCount`. -/
  toCount : α → Nat

/-- The arithmetic of doubles. An undefined number counts as zero. -/
instance : Arithmetic Float where
  lt x y := x < y
  le x y := x ≤ y
  abs := Float.abs
  isFinite := Float.isFinite
  ofCount n := n.toUInt64.toFloat
  toCount x := x.toUInt64.toNat

/-- Runs `step i`, `step (i + 1)` and so on, `count` steps in all, each on what the one before left. -/
@[specialize]
def foldFrom {m : Type → Type} [Monad m] {β : Type} (step : Nat → β → m β) :
    (i count : Nat) → β → m β
  | _, 0, b => pure b
  | i, count + 1, b => do foldFrom step (i + 1) count (← step i b)

end LatexCalc
