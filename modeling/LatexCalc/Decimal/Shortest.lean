import LatexCalc.Decimal.Text

/-!
# The shortest text of a double

A double is written with the fewest digits that read back as it (`Decimal.shortest`), without an
exponent, however many zeros that takes. What is selected reads back by construction, since a
candidate is kept only if it does; the exact value stands in where no candidate does.
-/

namespace LatexCalc

open Float.Model.UnpackedFloat (Sign)

/-- The sign in front of a number. -/
def signText : Sign → String
  | .positive => ""
  | .negative => "-"

namespace Decimal

/-- The decimal with `n` digits that reads back as `x` and is nearest to `d`, the exact value of `x`.
The candidates are the two neighbours of `d` among the decimals with `n` digits; of two at the same
distance the greater is taken. -/
def withDigits? (x : Float) (d : Decimal) (n : Nat) : Option Decimal :=
  let k := d.digits.length - n
  let low := d.truncate k
  let high := low.succ
  if low.toFloat = x then
    if high.toFloat = x ∧ d.compareHalf k ≠ .lt then some high else some low
  else if high.toFloat = x then some high
  else none

/-- The decimal with the fewest digits that reads back as `x`, given the exact value `d` of `x`.
Seventeen digits tell any two doubles apart. -/
def shortest (x : Float) (d : Decimal) : Decimal :=
  ((List.range' 1 17).findSome? (withDigits? x d)).getD d

end Decimal

/-- The text of a double in messages and expressions. -/
def floatText (x : Float) : String :=
  match x.toModel.unpack with
  | .notANumber => "NaN"
  | .infinity s => signText s ++ "inf"
  | .zero s => signText s ++ "0"
  | .finite s m q _ => signText s ++ (Decimal.shortest x.abs (Decimal.ofBinary m q)).text

end LatexCalc
