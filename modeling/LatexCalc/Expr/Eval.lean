import LatexCalc.Environment
import LatexCalc.Expr
import LatexCalc.Expr.EvalError
import LatexCalc.Limits
import LatexCalc.Numeric.Difference
import LatexCalc.Numeric.Quadrature
import LatexCalc.Numeric.Range

/-!
# Evaluating expressions

`Expr.eval` gives the value of an expression in a scope. It counts how often the bodies of sums,
products, integrals and derivatives are evaluated; the count is kept when evaluation fails. A range
or an integral that announces more bodies than the limits leave is refused before its first body
(`reserve`), and each body is counted before it is evaluated (`tick`). The time is looked up once per
body, on a clock that the caller supplies.
-/

namespace LatexCalc

/-- The functions that commands may name. -/
def knownFunction? : String → Option (Float → Float)
  | "sin" => some Float.sin
  | "cos" => some Float.cos
  | "tan" => some Float.tan
  | "sec" => some fun x => 1 / x.cos
  | "csc" => some fun x => 1 / x.sin
  | "cot" => some fun x => 1 / x.tan
  | "sqrt" => some Float.sqrt
  | "ln" => some Float.log
  | "log" => some Float.log10
  | "exp" => some Float.exp
  | _ => none

/-- The nanoseconds that have passed when the body with a given number is begun. -/
abbrev Clock := Nat → Nat

/-- A clock on which every body takes one nanosecond. -/
def Clock.steady : Clock := id

/-- A computation that counts the bodies it evaluates. -/
abbrev Calc := EStateM EvalError Nat

namespace Calc

variable (limits : Limits) (clock : Clock)

/-- Fails if `count` more bodies are more than the limits allow. -/
def reserve (count : Nat) : Calc Unit := do
  if limits.maxIterations < min ((← get) + count) maxCount then
    throw (.iterationLimit limits.maxIterations)

/-- Counts one body, and fails if the time is up. The count has no greatest value, where a counter of 64
bits would overflow behind `maxCount`. That makes a difference only if both the limit and the count are
`maxCount`: under any lower limit, `reserve` refuses the body at this count. -/
def tick : Calc Unit := do
  reserve limits 1
  modify (· + 1)
  match limits.timeout with
  | some limit => if limit < clock (← get) then throw (.timeout limit)
  | none => return

/-- A body with its variable bound to `x`. -/
def bodyAt (name : String) (body : Scope → Calc Float) (scope : Scope) (x : Float) :
    Calc Float := do
  tick limits clock
  body (.bound name x scope)

/-- A bound, which has to be finite. -/
def bound (which : BoundName) (value : Calc Float) : Calc Float := do
  let x ← value
  if x.isFinite then return x else throw (.invalidBound which x)

/-- An integral. -/
def integrate (name : String) (lower upper : Calc Float) (integrand : Float → Calc Float) :
    Calc Float := do
  let a ← bound .lower lower
  let b ← bound .upper upper
  reserve limits (announcedSamples limits.quadratureSteps)
  simpson a b limits.quadratureSteps fun x => do
    let y ← integrand x
    if y.isFinite then return y else throw (.nonFiniteSample name x y)

/-- A sum or product. -/
def iterate (start stop : Calc Float) (identity : Float) (combine : Float → Float → Float)
    (body : Float → Calc Float) : Calc Float := do
  let a ← bound .start start
  let b ← bound .stop stop
  reserve limits (rangeLength a b)
  foldRange a b identity combine body

/-- A derivative at a point. -/
def differentiateAt (point : Calc Float) (function : Float → Calc Float) : Calc Float := do
  let x ← point
  centralDifference x limits.derivativeStep function

/-- A derivative without a point. -/
def differentiate (name : String) (function : Float → Calc Float) : Calc Float := do
  match ← constantSlope? limits.derivativeStep function with
  | some slope => return slope
  | none => throw (.nonConstant name)

end Calc

/-- The value of an expression. -/
def Expr.eval (limits : Limits) (clock : Clock) : Expr → Scope → Calc Float
  | number x, _ => return x
  | ident name, scope =>
    match scope.lookup name with
    | some x => return x
    | none => throw (.undefinedVariable name)
  | binary op l r, scope => do
    let x ← l.eval limits clock scope
    let y ← r.eval limits clock scope
    return op.apply x y
  | call name a, scope => do
    let x ← a.eval limits clock scope
    match knownFunction? name with
    | some f => return f x
    | none => throw (.unknownFunction name)
  | fraction n d, scope => do
    let x ← n.eval limits clock scope
    let y ← d.eval limits clock scope
    return Op.div.apply x y
  | sqrt e, scope => do
    let x ← e.eval limits clock scope
    return x.sqrt
  | integral name a b f, scope =>
    Calc.integrate limits name (a.eval limits clock scope) (b.eval limits clock scope)
      (Calc.bodyAt limits clock name (f.eval limits clock) scope)
  | sum name a b f, scope =>
    Calc.iterate limits (a.eval limits clock scope) (b.eval limits clock scope) 0 (· + ·)
      (Calc.bodyAt limits clock name (f.eval limits clock) scope)
  | product name a b f, scope =>
    Calc.iterate limits (a.eval limits clock scope) (b.eval limits clock scope) 1 (· * ·)
      (Calc.bodyAt limits clock name (f.eval limits clock) scope)
  | derivativeAt name p f, scope =>
    Calc.differentiateAt limits (p.eval limits clock scope)
      (Calc.bodyAt limits clock name (f.eval limits clock) scope)
  | derivative name f, scope =>
    Calc.differentiate limits name (Calc.bodyAt limits clock name (f.eval limits clock) scope)

end LatexCalc
