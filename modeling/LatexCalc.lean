import LatexCalc.CommandLine.Arguments
import LatexCalc.CommandLine.Dialogue
import LatexCalc.CommandLine.Listing
import LatexCalc.CommandLine.Program
import LatexCalc.Decimal
import LatexCalc.Decimal.Read
import LatexCalc.Decimal.Shortest
import LatexCalc.Decimal.Text
import LatexCalc.Diagnostic
import LatexCalc.Environment
import LatexCalc.Expr
import LatexCalc.Expr.Cursor
import LatexCalc.Expr.Eval
import LatexCalc.Expr.EvalError
import LatexCalc.Expr.ParseError
import LatexCalc.Expr.Parser
import LatexCalc.Limits
import LatexCalc.Main
import LatexCalc.Numeric.Arithmetic
import LatexCalc.Numeric.Difference
import LatexCalc.Numeric.Quadrature
import LatexCalc.Numeric.Range
import LatexCalc.Operator
import LatexCalc.Result
import LatexCalc.Session
import LatexCalc.Text.Blank
import LatexCalc.Text.Line
import LatexCalc.Token
import LatexCalc.Token.Lexer
import LatexCalc.Proofs.Reading.Place
import LatexCalc.Proofs.Reading.Rules
import LatexCalc.Proofs.Reading.Run
import LatexCalc.Proofs.Reading.Chain
import LatexCalc.Proofs.Reading.Enclosed
import LatexCalc.Proofs.Reading.Precedence
import LatexCalc.Proofs.Token.Items
import LatexCalc.Proofs.Token.Spelling
import LatexCalc.Proofs.Token.Tiling
import LatexCalc.Proofs.Token.Separation
import LatexCalc.Proofs.Decimal.Unsigned
import LatexCalc.Proofs.Numeric.Double
import LatexCalc.Proofs.Numeric.Rounding
import LatexCalc.Proofs.Numeric.RangeLength
import LatexCalc.Proofs.Reading.Grammar
import LatexCalc.Proofs.Eval.Budget
import LatexCalc.Proofs.Eval.Reservation
import LatexCalc.Proofs.Decimal.Digits
import LatexCalc.Proofs.Token.Cutting
import LatexCalc.Proofs.Surface.Rendering
import LatexCalc.Proofs.Surface.Correspondence
import LatexCalc.Proofs.Environment
import LatexCalc.Proofs.Environment.Canonical
import LatexCalc.Proofs.Session.History
import LatexCalc.Proofs.Eval.Variables
import LatexCalc.Proofs.Eval.Renaming
import LatexCalc.Proofs.Surface.Prefix
import LatexCalc.Proofs.Reading.Moved
import LatexCalc.Proofs.Session.Assignment
import LatexCalc.Proofs.Reading.Demands
import LatexCalc.Proofs.Reading.Served
import LatexCalc.Proofs.Reading.Lookahead
import LatexCalc.Proofs.Reading.Coherence
import LatexCalc.Proofs.Reading.Completion
import LatexCalc.Proofs.Token.Truncation
import LatexCalc.Proofs.Session.Failure
import LatexCalc.Proofs.Eval.Literal
import LatexCalc.Proofs.Reading.Operands
import LatexCalc.Proofs.Reading.Integrand
import LatexCalc.Proofs.Reading.Terms
import LatexCalc.Proofs.Reading.Signs
import LatexCalc.Proofs.Session.Timeless
import LatexCalc.Proofs.Text.Lines
import LatexCalc.Proofs.Text.Bytes
import LatexCalc.Proofs.CommandLine.Agreement
import LatexCalc.Proofs.Session.Influence
import LatexCalc.Proofs.Numeric.Nearest
import LatexCalc.Proofs.Decimal.Rounding
import LatexCalc.Proofs.Decimal.Notation
import LatexCalc.Proofs.Numeric.Display
import LatexCalc.Proofs.Numeric.Accuracy
import LatexCalc.Proofs.Decimal.Nearest
import LatexCalc.Proofs.Reading.Result
import LatexCalc.Proofs.Reading.Parts
import LatexCalc.Proofs.Reading.Juxtaposition
import LatexCalc.Proofs.Reading.Braces
import LatexCalc.Proofs.Reading.Balance
import LatexCalc.Proofs.Reading.Scripts
import LatexCalc.Proofs.Reading.Nested
import LatexCalc.Proofs.Reading.Grounds
import LatexCalc.Proofs.Reading.State
import LatexCalc.Proofs.Reading.Cuts
import LatexCalc.Proofs.Reading.Fresh
import LatexCalc.Proofs.Reading.Stages
import LatexCalc.Proofs.Token.Peeking
import LatexCalc.Proofs.Session.Causes
import LatexCalc.Proofs.Eval.Names
import LatexCalc.Proofs.Eval.Deadline
import LatexCalc.Proofs.Numeric.Fold
import LatexCalc.Proofs.Numeric.Sum
import LatexCalc.Proofs.Numeric.RangeEnd
import LatexCalc.Proofs.Numeric.Exact
import LatexCalc.Proofs.Numeric.Samples
import LatexCalc.Proofs.Numeric.Simpson
import LatexCalc.Proofs.Numeric.Overflow
import LatexCalc.Proofs.Numeric.Count
import LatexCalc.Proofs.Numeric.SampleBounds
import LatexCalc.Proofs.Numeric.Slope
