import LatexCalc.Decimal.Shortest
import LatexCalc.Operator

/-!
# Expressions

The tree of an expression, and the two forms of a line. `Expr.text` and `Statement.text` write them
with every operator in front of its operands.
-/

namespace LatexCalc

/-- An expression. Sums, products, integrals and derivatives bind the variable named first in their
last part: the body, the integrand, or the function. -/
inductive Expr
  | number (value : Float)
  | ident (name : String)
  | binary (op : Op) (lhs rhs : Expr)
  | call (name : String) (arg : Expr)
  | fraction (numerator denominator : Expr)
  | sqrt (radicand : Expr)
  | integral (name : String) (lower upper integrand : Expr)
  | sum (name : String) (start stop body : Expr)
  | product (name : String) (start stop body : Expr)
  | derivative (name : String) (function : Expr)
  | derivativeAt (name : String) (point function : Expr)
  deriving DecidableEq

/-- A line: an expression, or a name that is to stand for the value of one. -/
inductive Statement
  | expr (value : Expr)
  | assign (name : String) (value : Expr)
  deriving DecidableEq

/-- An expression with operators in front. -/
def Expr.text : Expr → String
  | number x => floatText x
  | ident name => name
  | binary op l r => "(" ++ op.text ++ " " ++ l.text ++ " " ++ r.text ++ ")"
  | call name a => "(" ++ name ++ " " ++ a.text ++ ")"
  | fraction n d => "(frac " ++ n.text ++ " " ++ d.text ++ ")"
  | sqrt e => "(sqrt " ++ e.text ++ ")"
  | integral v a b f => "(int " ++ v ++ " " ++ a.text ++ " " ++ b.text ++ " " ++ f.text ++ ")"
  | sum v a b f => "(sum " ++ v ++ " " ++ a.text ++ " " ++ b.text ++ " " ++ f.text ++ ")"
  | product v a b f => "(prod " ++ v ++ " " ++ a.text ++ " " ++ b.text ++ " " ++ f.text ++ ")"
  | derivative v f => "(d/d" ++ v ++ " " ++ f.text ++ ")"
  | derivativeAt v p f => "(d/d" ++ v ++ " " ++ f.text ++ " at " ++ p.text ++ ")"

/-- A line with operators in front. -/
def Statement.text : Statement → String
  | expr e => e.text
  | assign name e => "(define " ++ name ++ " " ++ e.text ++ ")"

end LatexCalc
