import LatexCalc.Decimal.Read
import LatexCalc.Expr
import LatexCalc.Expr.Cursor

/-!
# Parsing expressions

Operators are read by precedence climbing: an operand (`operandThen`), and after it all operators
that bind at least as tightly as asked for (`climb`). Two operands side by side are a product, except
where the second one is the differential that closes an integrand. Operands other than numbers,
names, constants and brackets are commands, each with a header of its own.

`expr n`, `climb n` and `primary n` work among the last tokens, fewer than `n`; they call each other
only after a token, for `n` one less. `Parser` keeps its place between calls, also after a failure.
-/

namespace LatexCalc

/-! ## Looking ahead -/

/-- Whether an operand may end with a token of this kind. -/
def TokenKind.endsOperand : TokenKind → Bool
  | number | identifier | function | braceClose | parenClose => true
  | _ => false

/-- Whether an operand that is a factor without a sign may start with a token of this kind. -/
def TokenKind.startsOperand : TokenKind → Bool
  | number | identifier | function | braceOpen | parenOpen => true
  | _ => false

/-- Whether the tokens start with a differential: a name `dx` that no operand follows, unless that is
itself a differential. -/
def startsDifferential : List Token → Bool
  | [] => false
  | t :: ts =>
    t.kind = .identifier && t.differential?.isSome &&
      match ts with
      | [] => true
      | u :: _ =>
        match u.kind with
        | .number | .function | .parenOpen | .braceOpen => false
        | .identifier => startsDifferential ts
        | _ => true

/-- The variable `x` if the tokens start with the header `{d}{dx}` of a derivative. -/
def derivativeVariable? : List Token → Option String
  | open₁ :: d :: close₁ :: open₂ :: dx :: close₂ :: _ =>
    if open₁.kind = .braceOpen ∧ d.kind = .identifier ∧ d.text = "d" ∧ close₁.kind = .braceClose ∧
        open₂.kind = .braceOpen ∧ dx.kind = .identifier ∧ close₂.kind = .braceClose then
      dx.differential?
    else none
  | _ => none

/-- Whether a product is to be read between the token before a place and the one after it. -/
def Cursor.juxtaposed (c : Cursor) : Bool :=
  c.previous.any TokenKind.endsOperand && (c.rest.head?.map Token.kind).any TokenKind.startsOperand &&
    !(decide (0 < c.integrands) && startsDifferential c.rest)

namespace Parse

variable {n : Nat}

/-! ## Operands

The productions take the parsers of expressions and of operands for the tokens that follow. -/

section Productions

variable (expr : Nat → Parse n Expr) (primary : Parse n Expr)

/-- An expression up to a closing bracket. -/
def upTo (close : TokenKind) : Parse n Expr := do
  let e ← expr 0
  let _ ← expect close
  return e

/-- An expression in braces. -/
def group : Parse n Expr := do
  let _ ← expect .braceOpen
  upTo expr .braceClose

/-- An expression in braces or parentheses. -/
def argument : Parse n Expr := do
  match ← nextKind? with
  | some .braceOpen =>
    advance
    upTo expr .braceClose
  | some .parenOpen =>
    advance
    upTo expr .parenClose
  | _ => fail .argument

/-- The bounds of an integral, `{a}{b}` or `_a^b`. -/
def bounds : Parse n (Expr × Expr) := do
  if (← nextKind?) = some .underscore then
    advance
    let lower ← primary
    let _ ← expectOp .pow
    let upper ← primary
    return (lower, upper)
  else
    let lower ← group expr
    let upper ← group expr
    return (lower, upper)

/-- A differential `dx`, for the variable `x`. -/
def differential : Parse n String := do
  let ts ← tokens
  match ts.head?.bind Token.differential? with
  | some name =>
    if startsDifferential ts then
      advance
      return name
    else fail .differential
  | none => fail .differential

/-- An integral after its command. -/
def integral : Parse n Expr := do
  let (lower, upper) ← bounds expr primary
  let integrand ← inIntegrand (expr 0)
  let name ← differential
  return .integral name lower upper integrand

/-- The variable and the bounds of a sum or product, `{i}{a}{b}` or `_{i=a}^b`. -/
def range : Parse n (String × Expr × Expr) := do
  if (← nextKind?) = some .underscore then
    advance
    let _ ← expect .braceOpen
    let name ← expectName
    let _ ← expect .equal
    let start ← upTo expr .braceClose
    let _ ← expectOp .pow
    let stop ← primary
    return (name.text, start, stop)
  else
    let _ ← expect .braceOpen
    let name ← expectName
    let _ ← expect .braceClose
    let start ← group expr
    let stop ← group expr
    return (name.text, start, stop)

/-- A sum or product after its command. -/
def iteration (make : String → Expr → Expr → Expr → Expr) : Parse n Expr := do
  let (name, start, stop) ← range expr primary
  let body ← expr 0
  return make name start stop body

/-- The point `|_{x=a}` at which a derivative with respect to `x` is taken. -/
def point (variableName : String) : Parse n Expr := do
  let _ ← expect .pipe
  let _ ← expect .underscore
  let _ ← expect .braceOpen
  let found ← expectName
  if found.text ≠ variableName then throw (.mismatchedVariable variableName found)
  let _ ← expect .equal
  upTo expr .braceClose

/-- A derivative after its command and header. -/
def derivative (variableName : String) : Parse n Expr := do
  if (← nextKind?) = some .pipe then
    let place ← point expr variableName
    let function ← expr 0
    return .derivativeAt variableName place function
  else
    let function ← expr 0
    return .derivative variableName function

/-- A fraction after its command, or a derivative if a header of one follows. -/
def fraction : Parse n Expr := do
  match derivativeVariable? (← tokens) with
  | some name =>
    skip 6
    derivative expr name
  | none =>
    let numerator ← group expr
    let denominator ← group expr
    return .fraction numerator denominator

/-- The ratio of the circumference of a circle to its diameter. -/
def circleConstant : Float := 3.141592653589793

/-- The base of natural logarithms. -/
def naturalBase : Float := 2.718281828459045

/-- What a command stands for, with what follows it. A command that is none of the known ones is the
name of a function. -/
def command (name : String) : Parse n Expr :=
  match name with
  | "frac" => fraction expr
  | "sqrt" => .sqrt <$> group expr
  | "int" => integral expr primary
  | "sum" => iteration expr primary .sum
  | "prod" => iteration expr primary .product
  | "pi" => return .number circleConstant
  | "e" => return .number naturalBase
  | _ => .call name <$> argument expr

/-- The operand that starts with a token, already taken. -/
def operandFrom (t : Token) : Parse n Expr :=
  match t.kind with
  | .number =>
    match readFloat? t.text with
    | some x => return .number x
    | none => throw (.unexpectedToken .number t)
  | .identifier => return .ident t.text
  | .function => command expr primary t.command
  | .parenOpen => upTo expr .parenClose
  | .braceOpen => upTo expr .braceClose
  | _ => throw (.unexpectedToken .expression t)

/-- An operand, which may have a sign, and what `k` makes of it. A sign applies to all that binds at
least as tightly as a product. -/
def operandThen (k : Expr → Parse n Expr) : Parse (n + 1) Expr := do
  match ← next? with
  | some t =>
    if t.kind = .operator then
      match Op.ofText? t.text with
      | some .sub =>
        past .expression fun _ => do k (.binary .sub (.number 0) (← expr Op.mul.precedence))
      | some .add => past .expression fun _ => do k (← expr Op.mul.precedence)
      | _ => fail .expression
    else past .expression fun t => do k (← operandFrom expr primary t)
  | none => fail .expression

end Productions

/-! ## Operators -/

mutual

/-- An expression whose operators outside brackets bind at least as tightly as `least`. -/
def expr : (n : Nat) → (least : Nat) → Parse n Expr
  | 0, _ => fun c => c.elim_zero.elim
  | n + 1, least => operandThen (expr n) (primary n) (climb n least)

/-- The expression that starts with `lhs` and goes on with all operators that bind at least as
tightly as `least`. -/
def climb : (n : Nat) → (least : Nat) → (lhs : Expr) → Parse n Expr
  | 0, _, _ => fun c => c.elim_zero.elim
  | n + 1, least, lhs => do
    match ← next? with
    | none => return lhs
    | some t =>
      if t.kind = .operator then
        match Op.ofText? t.text with
        | none => fail .operator
        | some op =>
          if op.precedence < least then return lhs
          else past .expression fun _ => do
            climb n least (.binary op lhs (← expr n op.rightPrecedence))
      else if least ≤ Op.mul.precedence ∧ (← get).1.juxtaposed then
        operandThen (expr n) (primary n) fun operand => do
          climb n least (.binary .mul lhs (← climb n (Op.mul.precedence + 1) operand))
      else return lhs

/-- An operand without a sign. -/
def primary : (n : Nat) → Parse n Expr
  | 0 => fun c => c.elim_zero.elim
  | n + 1 => past .expression (operandFrom (expr n) (primary n))

end

end Parse

/-! ## Parsers -/

/-- A list of tokens and a place in it. -/
structure Parser where
  tokens : List Token
  cursor : Cursor
  deriving DecidableEq, Repr

namespace Parser

/-- A parser before the first token of a line. -/
def ofTokens (line : String) (tokens : List Token) : Parser :=
  ⟨tokens, Cursor.start line.utf8ByteSize tokens⟩

/-- Runs a step from the place of a parser. -/
def run {α : Type} (p : Parser) (step : (n : Nat) → Parse n α) : Except ParseError α × Parser :=
  match step (p.cursor.rest.length + 1) ⟨p.cursor, Nat.lt_succ_self _⟩ with
  | .ok a c => (.ok a, { p with cursor := c.1 })
  | .error e c => (.error e, { p with cursor := c.1 })

/-- Reads an expression whose operators bind at least as tightly as `least`. -/
def expr (p : Parser) (least : Nat) : Except ParseError Expr × Parser :=
  p.run fun n => Parse.expr n least

/-- Reads a statement. It is an assignment if the first two tokens of the list are a name and an
equality sign. -/
def statement (p : Parser) : Except ParseError Statement × Parser :=
  match p.tokens with
  | name :: equal :: _ =>
    if name.kind = .identifier ∧ equal.kind = .equal then
      p.run fun n => do
        Parse.skip 2
        return .assign name.text (← Parse.expr n 0)
    else p.run fun n => .expr <$> Parse.expr n 0
  | _ => p.run fun n => .expr <$> Parse.expr n 0

/-- Makes sure that no token is left. -/
def finish (p : Parser) : Except ParseError Unit :=
  match p.cursor.rest with
  | [] => .ok ()
  | t :: _ => .error (.trailingInput t)

/-- What a step has read, if no token is left after it. -/
def finishing {α : Type} (r : Except ParseError α × Parser) : Except ParseError α := do
  let a ← r.1
  r.2.finish
  return a

end Parser

/-- The expression that the tokens of a line are. -/
def parse (line : String) (tokens : List Token) : Except ParseError Expr :=
  Parser.finishing ((Parser.ofTokens line tokens).expr 0)

/-- The statement that the tokens of a line are. -/
def parseStatement (line : String) (tokens : List Token) : Except ParseError Statement :=
  Parser.finishing (Parser.ofTokens line tokens).statement

end LatexCalc
