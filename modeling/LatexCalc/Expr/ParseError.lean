import LatexCalc.Diagnostic
import LatexCalc.Operator
import LatexCalc.Token

/-!
# Parse errors

Why a list of tokens is no expression: something else was expected at a token or at the end, tokens
are left over, or a derivative is to be taken at a point of another variable.
-/

namespace LatexCalc

/-- What a parser looks for. -/
inductive Expectation
  | expression
  | operator
  | number
  | argument
  | name
  | differential
  | token (kind : TokenKind)
  | op (op : Op)
  deriving DecidableEq, Repr

/-- An expectation as messages name it. -/
def Expectation.text : Expectation → String
  | expression => "an expression"
  | operator => "an operator"
  | number => "a number"
  | argument => "'\x7b' or '('"
  | name => "a variable name"
  | differential => "a differential such as 'dx'"
  | token kind => kind.text
  | op o => "'" ++ o.text ++ "'"

inductive ParseError
  | unexpectedToken (expected : Expectation) (found : Token)
  /-- The line ends at byte `offset`, too early. -/
  | unexpectedEnd (expected : Expectation) (offset : Nat)
  | trailingInput (found : Token)
  /-- A derivative with respect to one name is taken at a point of another one. -/
  | mismatchedVariable (expected : String) (found : Token)
  deriving DecidableEq, Repr

namespace ParseError

/-- A remark on a token. -/
def labelAt (t : Token) (text : String) : Label :=
  ⟨text, t.offset, t.size⟩

/-- The account of the failure. -/
def diagnostic : ParseError → Diagnostic
  | unexpectedToken expected found =>
    { message := "expected " ++ expected.text ++ ", found '" ++ found.text ++ "'"
      code := "euclid::parse::unexpected_token"
      labels := [labelAt found "here"] }
  | unexpectedEnd expected offset =>
    { message := "unexpected end of input, expected " ++ expected.text
      code := "euclid::parse::eof"
      labels := [⟨"input ends here", offset, 0⟩] }
  | trailingInput found =>
    { message := "unexpected trailing input '" ++ found.text ++ "'"
      code := "euclid::parse::trailing_input"
      labels := [labelAt found "nothing may follow a complete expression"] }
  | mismatchedVariable expected found =>
    { message := "derivative is taken with respect to '" ++ expected ++ "' but evaluated at '" ++
        found.text ++ "'"
      code := "euclid::parse::mismatched_variable"
      labels := [labelAt found ("should be '" ++ expected ++ "'")] }

end ParseError

end LatexCalc
