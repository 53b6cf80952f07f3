import LatexCalc.Decimal

/-!
# Reading numbers

A numeral is an optional sign and then digits with at most one point among or around them and an
optional exponent, or a name for infinity or for the value that is not a number. `Numeral.ofText?`
reads one, and `Numeral.toFloat` is the double nearest to it. Blanks are not allowed anywhere.
-/

namespace LatexCalc

/-- A number as it is written. -/
inductive Numeral
  | notANumber
  | infinity (negative : Bool)
  | decimal (negative : Bool) (value : Decimal)
  deriving DecidableEq, Repr

/-- The value of digits in base ten. -/
def digitsValue (ds : List Char) : Nat :=
  ds.foldl (fun n d => 10 * n + (d.toNat - '0'.toNat)) 0

/-- A sign at the start of a text, and what is left. -/
def splitSign : List Char → Bool × List Char
  | '-' :: cs => (true, cs)
  | '+' :: cs => (false, cs)
  | cs => (false, cs)

/-- Digits that make up a whole text, at least one. -/
def wholeNumber? (cs : List Char) : Option Nat :=
  if cs ≠ [] ∧ cs.all Char.isDigit then some (digitsValue cs) else none

/-- What stands between the digits of a number and its end: nothing, or an exponent. -/
def exponent? : List Char → Option Int
  | [] => some 0
  | c :: cs =>
    if c = 'e' ∨ c = 'E' then
      (wholeNumber? (splitSign cs).2).map fun n => if (splitSign cs).1 then -(n : Int) else n
    else none

namespace Decimal

/-- A number without a sign. -/
def ofChars? (cs : List Char) : Option Decimal :=
  let whole := cs.takeWhile Char.isDigit
  let (fraction, rest) :=
    match cs.dropWhile Char.isDigit with
    | '.' :: more => (more.takeWhile Char.isDigit, more.dropWhile Char.isDigit)
    | more => ([], more)
  if whole ++ fraction = [] then none
  else (exponent? rest).map fun e => ⟨digitsValue (whole ++ fraction), e - fraction.length⟩

end Decimal

namespace Numeral

/-- The numeral that a text is. -/
def ofText? (s : String) : Option Numeral :=
  let (negative, cs) := splitSign s.toList
  let name := String.ofList (cs.map Char.toLower)
  if name = "nan" then some notANumber
  else if name = "inf" ∨ name = "infinity" then some (infinity negative)
  else (Decimal.ofChars? cs).map (decimal negative)

/-- The double nearest to a numeral. -/
def toFloat : Numeral → Float
  | notANumber => 0 / 0
  | infinity negative => if negative then -1 / 0 else 1 / 0
  | decimal negative value => if negative then -value.toFloat else value.toFloat

end Numeral

/-- The double that a text is. -/
def readFloat? (s : String) : Option Float :=
  (Numeral.ofText? s).map Numeral.toFloat

end LatexCalc
