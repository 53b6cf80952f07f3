import LatexCalc.Proofs.Reading.Rules

/-!
# Reading token by token

What a parser still has to read is a list of demands, the next one first. A token puts other demands in
the place of the first one, or it is refused; before that, demands that may be left as they are in front
of this token are dropped (`feed`). Reading one token after the other comes to an end at the first one
that is refused, or at the end of the line, where demands may be left (`refusal?`).

Of the tokens behind the one that is fed, only two questions are ever asked: whether a differential
starts here, and which variable the header of a derivative names.
-/

namespace LatexCalc

/-- Something to read. A flag `b` tells whether it is inside an integrand. -/
inductive Demand
  /-- An expression whose operators bind at least as tightly as `least`. -/
  | expr (least : Nat) (b : Bool)
  /-- What is left of an expression after an operand. -/
  | rest (least : Nat) (b : Bool)
  /-- An operand without a sign. -/
  | operand (b : Bool)
  /-- What a sum, a product, an integral or a derivative is taken of. -/
  | body (b : Bool)
  /-- What a derivative with respect to `v` is taken of, and the point in front of it, if any. -/
  | derivand (v : String) (b : Bool)
  | token (kind : TokenKind)
  /-- The sign `^` in front of an upper bound. -/
  | power
  /-- The name `v`. -/
  | named (v : String)
  | differential
  /-- The bounds of an integral. -/
  | bounds (b : Bool)
  /-- The variable of a sum or product and its bounds. -/
  | range (b : Bool)
  /-- An expression in either kind of bracket. -/
  | argument (b : Bool)
  deriving DecidableEq, Repr

instance (p : Nat) (b : Bool) (ts : List Token) : Decidable (Stops p b ts) :=
  match ts with
  | [] => inferInstanceAs (Decidable True)
  | t :: ts =>
    if ht : t.kind = .operator then
      match hop : Op.ofText? t.text with
      | none => .isFalse (by simp [stops_operator ht, hop])
      | some op => decidable_of_iff (op.precedence < p) (by simp [stops_operator ht, hop])
    else decidable_of_iff _ (stops_of_ne_operator ht).symm

namespace Demand

/-- An expression in braces. -/
def group (b : Bool) : List Demand :=
  [.token .braceOpen, .expr 0 b, .token .braceClose]

/-- The header `{d}{dx}` of a derivative. -/
def header : List Demand :=
  [.token .braceOpen, .token .identifier, .token .braceClose,
    .token .braceOpen, .token .identifier, .token .braceClose]

/-- What follows the command of a fraction, in front of the tokens `ts`. -/
def ofFraction (b : Bool) (ts : List Token) : List Demand :=
  match derivativeVariable? ts with
  | some v => header ++ [.derivand v b]
  | none => group b ++ group b

/-- What follows a command, in front of the tokens `ts`. -/
def ofCommand (b : Bool) (name : String) (ts : List Token) : List Demand :=
  match name with
  | "frac" => ofFraction b ts
  | "sqrt" => group b
  | "int" => [.bounds b, .body true, .differential]
  | "sum" | "prod" => [.range b, .body b]
  | "pi" | "e" => []
  | _ => [.argument b]

/-- What follows the first token of an operand. -/
def ofOperand (b : Bool) (t : Token) (ts : List Token) : Option (List Demand) :=
  match t.kind with
  | .number => if (readFloat? t.text).isSome then some [] else none
  | .identifier => some []
  | .function => some (ofCommand b t.command ts)
  | .parenOpen => some [.expr 0 b, .token .parenClose]
  | .braceOpen => some [.expr 0 b, .token .braceClose]
  | _ => none

/-- What follows the first token of an expression. -/
def ofExpr (p : Nat) (b : Bool) (t : Token) (ts : List Token) : Option (List Demand) :=
  if t.kind = .operator then
    match Op.ofText? t.text with
    | some .sub | some .add => some [.expr Op.mul.precedence b, .rest p b]
    | _ => none
  else (ofOperand b t ts).map (· ++ [.rest p b])

/-- What follows a token with which an expression goes on. -/
def ofRest (p : Nat) (b : Bool) (t : Token) (ts : List Token) : Option (List Demand) :=
  if t.kind = .operator then
    (Op.ofText? t.text).map fun op => [.expr op.rightPrecedence b, .rest p b]
  else (ofOperand b t ts).map (· ++ [.rest (Op.mul.precedence + 1) b, .rest p b])

/-- The demands that a token puts in the place of one, in front of the tokens `ts`. -/
def more (t : Token) (ts : List Token) : Demand → Option (List Demand)
  | expr p b => ofExpr p b t ts
  | rest p b => ofRest p b t ts
  | operand b => ofOperand b t ts
  | body b => ofExpr 0 b t ts
  | derivand v b =>
    if t.kind = .pipe then
      some ([.token .underscore, .token .braceOpen, .named v, .token .equal, .expr 0 b,
        .token .braceClose] ++ [.body b])
    else ofExpr 0 b t ts
  | token kind => if t.kind = kind then some [] else none
  | power => if t.kind = .operator ∧ Op.ofText? t.text = some .pow then some [] else none
  | named v => if t.kind = .identifier ∧ t.text = v then some [] else none
  | differential => if startsDifferential (t :: ts) then some [] else none
  | bounds b =>
    match t.kind with
    | .underscore => some [.operand b, .power, .operand b]
    | .braceOpen => some ([.expr 0 b, .token .braceClose] ++ group b)
    | _ => none
  | range b =>
    match t.kind with
    | .underscore => some [.token .braceOpen, .token .identifier, .token .equal, .expr 0 b,
        .token .braceClose, .power, .operand b]
    | .braceOpen => some ([.token .identifier, .token .braceClose] ++ group b ++ group b)
    | _ => none
  | argument b =>
    match t.kind with
    | .braceOpen => some [.expr 0 b, .token .braceClose]
    | .parenOpen => some [.expr 0 b, .token .parenClose]
    | _ => none

/-- A demand that may be left as it is in front of some tokens: the rest of an expression that ends. -/
def Over : Demand → List Token → Prop
  | rest p b, ts => Stops p b ts
  | _, _ => False

instance (σ : Demand) (ts : List Token) : Decidable (σ.Over ts) := by
  cases σ <;> unfold Over <;> infer_instance

end Demand

/-- The demands after a token, in front of the tokens `ts`. -/
def feed (t : Token) (ts : List Token) : List Demand → Option (List Demand)
  | [] => none
  | σ :: π => if σ.Over (t :: ts) then feed t ts π else (σ.more t ts).map (· ++ π)

/-- The tokens left where the first one is refused, or where there is none although something is still to
be read. There is `none` if all is read. -/
def refusal? (π : List Demand) : List Token → Option (List Token)
  | [] => if ∀ σ ∈ π, σ.Over [] then none else some []
  | t :: ts =>
    match feed t ts π with
    | none => some (t :: ts)
    | some π => refusal? π ts

section

variable {t : Token} {ts : List Token} {σ : Demand} {π ρ : List Demand}

/-- Demands that may be left are dropped. -/
theorem feed_over (h : σ.Over (t :: ts)) : feed t ts (σ :: π) = feed t ts π :=
  if_pos h

theorem feed_more (h : ¬σ.Over (t :: ts)) : feed t ts (σ :: π) = (σ.more t ts).map (· ++ π) :=
  if_neg h

theorem feed_of_more (h : ¬σ.Over (t :: ts)) (hρ : σ.more t ts = some ρ) :
    feed t ts (σ :: π) = some (ρ ++ π) := by
  rw [feed_more h, hρ]
  rfl

/-- A token drops some demands, which may be left, and puts others in the place of the next one. -/
theorem exists_of_feed (h : feed t ts π = some ρ) :
    ∃ ω σ χ υ, π = ω ++ σ :: υ ∧ ρ = χ ++ υ ∧ (∀ τ ∈ ω, τ.Over (t :: ts)) ∧
      ¬σ.Over (t :: ts) ∧ σ.more t ts = some χ := by
  induction π with
  | nil => cases h
  | cons σ π ih =>
    by_cases ho : σ.Over (t :: ts)
    · rw [feed_over ho] at h
      obtain ⟨ω, τ, χ, υ, rfl, rfl, hω, hτ, hχ⟩ := ih h
      exact ⟨σ :: ω, τ, χ, υ, rfl, rfl, List.forall_mem_cons.2 ⟨ho, hω⟩, hτ, hχ⟩
    · rw [feed_more ho] at h
      obtain ⟨χ, hχ, rfl⟩ := Option.map_eq_some_iff.1 h
      exact ⟨[], σ, χ, π, rfl, rfl, by simp, ho, hχ⟩

theorem feed_append {ω : List Demand} (hω : ∀ τ ∈ ω, τ.Over (t :: ts)) (υ : List Demand) :
    feed t ts (ω ++ υ) = feed t ts υ := by
  induction ω with
  | nil => rfl
  | cons τ ω ih =>
    obtain ⟨hτ, hω⟩ := List.forall_mem_cons.1 hω
    rw [List.cons_append, feed_over hτ, ih hω]

/-- A demand that may be left is as good as done. -/
theorem refusal_over (h : σ.Over ts) : refusal? (σ :: π) ts = refusal? π ts := by
  cases ts with
  | nil => simp [refusal?, h]
  | cons t ts => rw [refusal?, feed_over h, refusal?]

theorem refusal_taken (h : feed t ts π = some ρ) : refusal? π (t :: ts) = refusal? ρ ts := by
  rw [refusal?, h]

theorem refusal_refused (h : feed t ts π = none) : refusal? π (t :: ts) = some (t :: ts) := by
  rw [refusal?, h]

/-- A demand that cannot be left refuses the end of the line, and a token that it has no use for. -/
theorem refusal_of_none (h : ¬σ.Over ts) (hts : ∀ t us, ts = t :: us → σ.more t us = none) :
    refusal? (σ :: π) ts = some ts := by
  cases ts with
  | nil => simp [refusal?, h]
  | cons t us =>
    refine refusal_refused ?_
    rw [feed_more h, hts t us rfl]
    rfl

end

end LatexCalc
