/-!
# Lines

`lines` cuts a text at its line ends. A line end is a line feed, together with one carriage return
directly before it; the last line may lack one, and then it keeps a final carriage return.
-/

namespace LatexCalc

/-- The lines of a list of characters. -/
def linesOf : List Char → List (List Char)
  | [] => []
  | '\n' :: cs => [] :: linesOf cs
  | '\r' :: '\n' :: cs => [] :: linesOf cs
  | c :: cs =>
    match linesOf cs with
    | [] => [[c]]
    | line :: rest => (c :: line) :: rest

/-- The lines of a text, without their line ends. -/
def lines (text : String) : List String :=
  (linesOf text.toList).map String.ofList

end LatexCalc
