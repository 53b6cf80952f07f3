import LatexCalc.Expr.Eval
import LatexCalc.Expr.Parser
import LatexCalc.Token.Lexer

/-!
# Sessions

A line is an expression to evaluate, or an assignment, which also gives a name the value. A line
that fails, at whatever stage, leaves the variables as they were.
-/

namespace LatexCalc

/-- Why a line has no value. -/
inductive LineError
  | lex (cause : LexError)
  | parse (cause : ParseError)
  | eval (cause : EvalError)
  | limits (cause : LimitsError)
  deriving DecidableEq

/-- The account of the failure. -/
def LineError.diagnostic : LineError → Diagnostic
  | lex e => e.diagnostic
  | parse e => e.diagnostic
  | eval e => e.diagnostic
  | limits e => e.diagnostic

/-- The statement that a line is. -/
def parseLine (line : String) : Except LineError Statement := do
  let tokens ← (tokenize line).mapError .lex
  (parseStatement line tokens).mapError .parse

/-- The value of an expression over the variables of a session. -/
def evalIn (limits : Limits) (clock : Clock) (e : Expr) (env : Environment) :
    Except EvalError Float :=
  match e.eval limits clock (.global env) 0 with
  | .ok x _ => .ok x
  | .error cause _ => .error cause

/-- What a statement leaves of the variables, and its value. -/
def runStatement (limits : Limits) (clock : Clock) (env : Environment) :
    Statement → Except LineError (Float × Environment)
  | .expr e => do
    let x ← (evalIn limits clock e env).mapError .eval
    return (x, env)
  | .assign name e => do
    let x ← (evalIn limits clock e env).mapError .eval
    return (x, env.define name x)

/-- The value of a line within given limits, and the variables after it. -/
def evaluateWith (limits : Limits) (clock : Clock) (line : String) (env : Environment) :
    Except LineError Float × Environment :=
  let outcome := do
    let limits ← limits.validate.mapError LineError.limits
    let statement ← parseLine line
    runStatement limits clock env statement
  match outcome with
  | .ok (x, env) => (.ok x, env)
  | .error e => (.error e, env)

/-- The value of a line within the default limits, and the variables after it. -/
def evaluate (clock : Clock) (line : String) (env : Environment) :
    Except LineError Float × Environment :=
  evaluateWith {} clock line env

/-- Variables, and limits for the lines that use them. -/
structure Session where
  env : Environment
  limits : Limits

namespace Session

/-- A session without variables. -/
def ofLimits (limits : Limits) : Except LimitsError Session :=
  return ⟨.empty, ← limits.validate⟩

/-- The value of a line, and the session after it. -/
def evaluate (s : Session) (clock : Clock) (line : String) : Except LineError Float × Session :=
  let (outcome, env) := evaluateWith s.limits clock line s.env
  (outcome, { s with env })

end Session

end LatexCalc
