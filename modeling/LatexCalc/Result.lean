import LatexCalc.Decimal.Shortest

/-!
# Results for display

A result is written to ten places, which hides the noise of binary arithmetic. Results too small for
that keep ten significant digits instead, so that none but zero is ever written as zero.
-/

namespace LatexCalc

/-- The places after the point that a result keeps. -/
def resultPlaces : Nat := 10

/-- The significant digits that a small result keeps. -/
def resultDigits : Nat := 10

/-- The magnitude from which on results are written to a number of places. -/
def placesFrom : Float := 1e-6

/-- A result as it is displayed. -/
def formatValue (x : Float) : String :=
  match x.toModel.unpack with
  | .finite s m q _ =>
    if x.abs < placesFrom then
      signText s ++ ((Decimal.ofBinary m q).toSignificant resultDigits).scientific
    else signText s ++ ((Decimal.ofBinary m q).toPlaces resultPlaces).text
  | .zero _ => "0"
  | _ => floatText x

end LatexCalc
