/-!
# Decimals

A `Decimal` is a natural number of digits with a power of ten. Every finite double is exactly one
(`Decimal.ofBinary`), so that all number text is made from decimals: by dropping digits, rounding
ties to the even neighbour (`Decimal.round`). In the other direction `Decimal.toFloat` is the double
nearest to a decimal.
-/

namespace LatexCalc

/-- The number `coefficient · 10 ^ exponent`. -/
structure Decimal where
  coefficient : Nat
  exponent : Int
  deriving DecidableEq, Repr

namespace Decimal

/-- The number `m · 2 ^ q`, since one half is five tenths. -/
def ofBinary (m : Nat) (q : Int) : Decimal :=
  if 0 ≤ q then ⟨m * Nat.pow 2 q.toNat, 0⟩ else ⟨m * Nat.pow 5 (-q).toNat, q⟩

/-- The double nearest to a decimal, ties to the even mantissa. -/
def toFloat (d : Decimal) : Float :=
  Float.ofScientific d.coefficient (d.exponent < 0) d.exponent.natAbs

/-- The digits of the coefficient, the most significant first. -/
def digits (d : Decimal) : List Char :=
  Nat.toDigits 10 d.coefficient

/-! ## Fewer digits -/

/-- The decimal without its last `k` digits. -/
def truncate (k : Nat) (d : Decimal) : Decimal :=
  ⟨d.coefficient / Nat.pow 10 k, d.exponent + k⟩

/-- The next decimal up that has as many places. -/
def succ (d : Decimal) : Decimal :=
  ⟨d.coefficient + 1, d.exponent⟩

/-- How the last `k` digits compare with one half of what the digit before them counts. -/
def compareHalf (k : Nat) (d : Decimal) : Ordering :=
  compare (2 * (d.coefficient % Nat.pow 10 k)) (Nat.pow 10 k)

/-- The nearest decimal with `k` digits fewer; a tie goes to the even neighbour. -/
def round (k : Nat) (d : Decimal) : Decimal :=
  match d.compareHalf k with
  | .lt => d.truncate k
  | .gt => (d.truncate k).succ
  | .eq => if (d.truncate k).coefficient % 2 = 0 then d.truncate k else (d.truncate k).succ

/-- The same number with `k` more digits, all zero. -/
def extend (k : Nat) (d : Decimal) : Decimal :=
  ⟨d.coefficient * Nat.pow 10 k, d.exponent - k⟩

/-- The nearest decimal with exactly `p` places after the point. -/
def toPlaces (p : Nat) (d : Decimal) : Decimal :=
  if d.exponent ≤ -p then d.round (-p - d.exponent).toNat else d.extend (d.exponent + p).toNat

/-- The nearest decimal with exactly `n` digits, for `n > 0` and a number other than zero. When all
digits are nines, rounding up makes one digit more, a zero, which is dropped. -/
def toSignificant (n : Nat) (d : Decimal) : Decimal :=
  if d.digits.length ≤ n then d.extend (n - d.digits.length)
  else
    let rounded := d.round (d.digits.length - n)
    if rounded.coefficient = Nat.pow 10 n then rounded.truncate 1 else rounded

end Decimal

end LatexCalc
