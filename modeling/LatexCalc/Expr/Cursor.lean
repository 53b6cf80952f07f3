import LatexCalc.Expr.ParseError

/-!
# Cursors

A `Cursor` is a place in a list of tokens, with what a parser remembers of the tokens before it. A
`Parse n` is a step of a parser that starts and ends, also when it fails, with fewer than `n` tokens
left. Steps that follow a token are brought from `n` to `n + 1` by `past`, which is what makes a
recursion over `n` reach every token and end.
-/

namespace LatexCalc

/-- A place in a list of tokens. -/
structure Cursor where
  /-- The tokens not yet taken. -/
  rest : List Token
  /-- How many tokens were taken. -/
  index : Nat
  /-- The kind of the token taken last. -/
  previous : Option TokenKind
  /-- How many integrands the place is in. -/
  integrands : Nat
  /-- The bytes of the line. -/
  size : Nat
  deriving DecidableEq, Repr

namespace Cursor

/-- The place before all of the tokens of a line of `size` bytes. -/
def start (size : Nat) (tokens : List Token) : Cursor :=
  ⟨tokens, 0, none, 0, size⟩

/-- The place after the next token, if there is one. -/
def advance (c : Cursor) : Cursor :=
  match c.rest with
  | [] => c
  | t :: rest => { c with rest := rest, index := c.index + 1, previous := some t.kind }

/-- The failure to find what was expected as the token `found`, or before the end of the line. -/
def unexpected (c : Cursor) (expected : Expectation) : Option Token → ParseError
  | some t => .unexpectedToken expected t
  | none => .unexpectedEnd expected c.size

theorem advance_of_nil {c : Cursor} (h : c.rest = []) : c.advance = c := by
  simp [advance, h]

@[simp] theorem rest_advance (c : Cursor) : c.advance.rest = c.rest.tail := by
  unfold advance
  split <;> simp_all

end Cursor

/-- The cursors with fewer than `n` tokens left. -/
abbrev Below (n : Nat) := { c : Cursor // c.rest.length < n }

namespace Below

/-- The bound may be loosened. -/
def widen {n : Nat} (c : Below n) : Below (n + 1) :=
  ⟨c.1, Nat.lt_succ_of_lt c.2⟩

/-- The place after the next token. -/
def advance {n : Nat} (c : Below n) : Below n :=
  ⟨c.1.advance, by
    have h := c.2
    rw [Cursor.rest_advance, List.length_tail]
    omega⟩

/-- No cursor has fewer than no tokens left. -/
theorem elim_zero (c : Below 0) : False :=
  absurd c.2 (Nat.not_lt_zero _)

end Below

/-- A step of a parser among the last tokens, fewer than `n`. -/
abbrev Parse (n : Nat) := EStateM ParseError (Below n)

namespace Parse

variable {n : Nat} {α : Type}

/-- The tokens left. -/
def tokens : Parse n (List Token) :=
  return (← get).1.rest

/-- The next token. -/
def next? : Parse n (Option Token) :=
  return (← tokens).head?

/-- The kind of the next token. -/
def nextKind? : Parse n (Option TokenKind) :=
  return (← next?).map Token.kind

/-- Takes the next token. -/
def advance : Parse n Unit :=
  modify Below.advance

/-- Takes `k` tokens. -/
def skip : Nat → Parse n Unit
  | 0 => return
  | k + 1 => do
    advance
    skip k

/-- Fails at the next token, which is not what is expected. -/
def fail (expected : Expectation) : Parse n α := do
  throw ((← get).1.unexpected expected (← next?))

/-- Takes the next token, which has to satisfy `p`. -/
def expectWith (expected : Expectation) (p : Token → Bool) : Parse n Token := do
  match ← next? with
  | some t =>
    if p t then
      advance
      return t
    else fail expected
  | none => fail expected

/-- Takes a token of a kind. -/
def expect (kind : TokenKind) : Parse n Token :=
  expectWith (.token kind) fun t => t.kind = kind

/-- Takes an operator. -/
def expectOp (op : Op) : Parse n Token :=
  expectWith (.op op) fun t => t.kind = .operator && Op.ofText? t.text = some op

/-- Takes a name. -/
def expectName : Parse n Token :=
  expectWith .name fun t => t.kind = .identifier

/-- Runs a step inside an integrand. -/
def inIntegrand (x : Parse n α) : Parse n α := fun c =>
  match x ⟨{ c.1 with integrands := c.1.integrands + 1 }, c.2⟩ with
  | .ok a c => .ok a ⟨{ c.1 with integrands := c.1.integrands - 1 }, c.2⟩
  | .error e c => .error e ⟨{ c.1 with integrands := c.1.integrands - 1 }, c.2⟩

/-- Takes a token and goes on after it. With at most `n` tokens left before it, fewer than `n` are
left there. -/
def past (expected : Expectation) (k : Token → Parse n α) : Parse (n + 1) α := fun c =>
  match h : c.1.rest with
  | [] => .error (c.1.unexpected expected none) c
  | t :: rest =>
    have bound : c.1.advance.rest.length < n := by
      have := c.2
      rw [Cursor.rest_advance, h, List.tail_cons]
      rw [h, List.length_cons] at this
      omega
    match k t ⟨c.1.advance, bound⟩ with
    | .ok a c => .ok a c.widen
    | .error e c => .error e c.widen

end Parse

end LatexCalc
