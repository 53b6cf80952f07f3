import LatexCalc.Numeric.Arithmetic

/-!
# Ranges

The numbers `start`, `start + 1`, … that do not exceed `stop`, and folds over them. The length of a
range is found before the first of its numbers is used.
-/

namespace LatexCalc

variable {m : Type → Type} [Monad m] {α : Type} [Arithmetic α]

open Arithmetic

/-- How many numbers `start`, `start + 1`, … do not exceed `stop`, at most `maxCount`. -/
def rangeLength (start stop : α) : Nat :=
  if lt stop start then 0 else min (toCount (stop - start) + 1) maxCount

/-- The number at index `k` of a range. -/
def rangePoint (start : α) (k : Nat) : α :=
  start + ofCount k

/-- Combines what `body` makes of the numbers of a range, from the first one on, beginning with
`identity`. The first failure of `body` ends the fold. -/
@[specialize]
def foldRange (start stop identity : α) (combine : α → α → α) (body : α → m α) : m α :=
  foldFrom
    (fun k acc => do
      let y ← body (rangePoint start k)
      return combine acc y)
    0 (rangeLength start stop) identity

end LatexCalc
