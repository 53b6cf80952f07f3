import LatexCalc.Decimal

/-!
# The text of decimals

A decimal is written with a point and no exponent (`Decimal.text`), or with one digit before the
point and an exponent (`Decimal.scientific`). Both leave out zeros that end a fraction and a point
that ends the text (`pointed`).
-/

namespace LatexCalc

/-- Digits without the zeros at their end. -/
def dropTrailingZeros (ds : List Char) : List Char :=
  (ds.reverse.dropWhile (· = '0')).reverse

/-- A whole part and a fraction with a point between them if the fraction is not zero. -/
def pointed (whole fraction : List Char) : List Char :=
  match dropTrailingZeros fraction with
  | [] => whole
  | f => whole ++ '.' :: f

namespace Decimal

/-- The digits before the point and after it, at least one before it. -/
def parts (d : Decimal) : List Char × List Char :=
  if 0 ≤ d.exponent then (d.digits ++ List.replicate d.exponent.toNat '0', [])
  else
    let places := (-d.exponent).toNat
    let all := d.digits.leftpad (places + 1) '0'
    (all.take (all.length - places), all.drop (all.length - places))

/-- A decimal without an exponent. -/
def text (d : Decimal) : String :=
  String.ofList (pointed d.parts.1 d.parts.2)

/-- The exponent of the first digit. -/
def leading (d : Decimal) : Int :=
  d.exponent + d.digits.length - 1

/-- A decimal with one digit before the point, and the exponent of that digit. -/
def scientific (d : Decimal) : String :=
  String.ofList (pointed (d.digits.take 1) (d.digits.drop 1)) ++ "e" ++ toString d.leading

end Decimal

end LatexCalc
