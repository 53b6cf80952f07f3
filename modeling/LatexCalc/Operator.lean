/-!
# Operators

The five binary operators: how they are spelled, how tightly they bind, and what they compute.
-/

namespace LatexCalc

/-- A binary operator. -/
inductive Op
  | add
  | sub
  | mul
  | div
  | pow
  deriving DecidableEq, Repr

namespace Op

/-- The operator with a spelling. -/
def ofText? (s : String) : Option Op :=
  if s = "+" then some add
  else if s = "-" then some sub
  else if s = "*" ∨ s = "\\cdot" ∨ s = "\\times" then some mul
  else if s = "/" then some div
  else if s = "^" then some pow
  else none

/-- The first spelling of an operator. -/
def text : Op → String
  | add => "+"
  | sub => "-"
  | mul => "*"
  | div => "/"
  | pow => "^"

@[simp] theorem ofText?_text (op : Op) : ofText? op.text = some op := by
  cases op <;> rfl

/-- How tightly an operator binds. -/
def precedence : Op → Nat
  | add | sub => 1
  | mul | div => 2
  | pow => 3

/-- Whether a chain of the operator is read from the right. -/
def isRightAssociative (op : Op) : Bool :=
  op = pow

/-- How tightly the operators in a right operand have to bind. -/
def rightPrecedence (op : Op) : Nat :=
  if op.isRightAssociative then op.precedence else op.precedence + 1

/-- The value of an operator. Division by zero and powers that are not real are as in the arithmetic
of doubles. -/
def apply : Op → Float → Float → Float
  | add, x, y => x + y
  | sub, x, y => x - y
  | mul, x, y => x * y
  | div, x, y => x / y
  | pow, x, y => x.pow y

end Op

end LatexCalc
