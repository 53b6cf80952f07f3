import LatexCalc.Proofs.Reading.Fresh

/-!
# Reading in stages

An expression can be read in two stages: first with the operators that bind at least as tightly as one
level asks for, then on with those that a lower level adds (`Parser.expr_in_stages`). The second stage
begins where the first one ended, in the state that it left. There it sees what the first one stopped at,
and there is nothing else that it takes from the first one than the operand (`Parse.climb_eq_bind`).

The first stage takes tokens, so that the second one works with a looser bound than it has to. A looser
bound makes no difference (`Parse.Coincides`).
-/

namespace LatexCalc

namespace Parse

open Cursor

variable {n n' : Nat} {α β : Type}

/-! ## Bounds -/

/-- The value of a step or its failure, and the place where it ends. -/
def halt : EStateM.Result ParseError (Below n) α → Except ParseError α × Cursor
  | .ok a d => (.ok a, d.1)
  | .error e d => (.error e, d.1)

theorem halt_injective :
    Function.Injective (halt : EStateM.Result ParseError (Below n) α → _) := by
  intro r r' h
  cases r <;> cases r' <;> simp only [halt, Prod.mk.injEq, Except.ok.injEq, Except.error.injEq,
    reduceCtorEq, false_and] at h
  case ok.ok =>
    obtain ⟨rfl, hd⟩ := h
    rw [Subtype.ext hd]
  case error.error =>
    obtain ⟨rfl, hd⟩ := h
    rw [Subtype.ext hd]

/-- The outcome of a step, for a bound that is looser by one. -/
def loosen : EStateM.Result ParseError (Below n) α → EStateM.Result ParseError (Below (n + 1)) α
  | .ok a d => .ok a d.widen
  | .error e d => .error e d.widen

@[simp] theorem halt_loosen (r : EStateM.Result ParseError (Below n) α) : halt (loosen r) = halt r := by
  cases r <;> rfl

/-- Two steps for different bounds that do the same at each place. -/
def Coincides (x : Parse n α) (x' : Parse n' α) : Prop :=
  ∀ (c : Below n) (c' : Below n'), c.1 = c'.1 → halt (x c) = halt (x' c')

theorem Coincides.widen {x : Parse n α} {x' : Parse (n + 1) α} (h : x.Coincides x') (c : Below n) :
    x' c.widen = loosen (x c) :=
  halt_injective (by rw [halt_loosen, h c c.widen rfl])

theorem halt_eq (x : Parse n α) (c : Below n) : halt (x c) = ((yield (x c)).1, x.ending c) := by
  unfold halt yield ending
  cases x c <;> rfl

theorem rest_ending (x : Parse n α) (c : Below n) : (x.ending c).rest = (yield (x c)).2 := by
  unfold yield ending
  cases x c <;> rfl

/-- Steps that take the same tokens from a place end at the same place. -/
theorem Mirrors.coincides {x : Parse n α} {x' : Parse n' α} (h : Mirrors 0 Eq x x') (hx : x.Advances)
    (hx' : x'.Advances) : x.Coincides x' := by
  rintro ⟨c, hc⟩ ⟨_, hc'⟩ rfl
  have himage : c.Image 0 c := ⟨(Token.map_moved_zero _).symm, rfl, rfl, rfl⟩
  have hyield := (h ⟨c, hc⟩ ⟨c, hc'⟩ himage).yield_eq
  have hrest : (x'.ending ⟨c, hc'⟩).rest = (x.ending ⟨c, hc⟩).rest := by
    rw [rest_ending, rest_ending, hyield]
  rw [halt_eq, halt_eq, hyield, (hx' ⟨c, hc'⟩).eq_of_rest (hx ⟨c, hc⟩) hrest]

/-- **A looser bound makes no difference** to what goes on after an operand. -/
theorem coincides_climb (n n' least : Nat) (e : Expr) :
    (climb n least e).Coincides (climb n' least e) :=
  ((mirrors_expr 0 n n').2.1 least e).coincides ((advances_expr n).2.1 least e)
    ((advances_expr n').2.1 least e)

/-! ## Going on after a step -/

section

variable {k : α → Parse n β} {k' : α → Parse (n + 1) β} (hk : ∀ a, (k a).Coincides (k' a))

include hk

/-- To go on behind a token, or after the step that took it, comes to the same. -/
theorem past_bind (e : Expectation) (f : Token → Parse n α) :
    past e (fun t => f t >>= k) = past e f >>= k' := by
  funext c
  cases hts : c.1.rest with
  | nil =>
    have hfail : past e f c = .error (c.1.unexpected e none) c := past_of_nil hts
    rw [past_of_nil hts, bind_of_error hfail]
  | cons t ts =>
    obtain ⟨hc, hf⟩ := past_of_cons (e := e) (f := f) hts
    obtain ⟨_, hfk⟩ := past_of_cons (e := e) (f := fun t => f t >>= k) hts
    rw [hfk]
    cases hr : f t ⟨c.1.advance, hc⟩ with
    | ok a d =>
      rw [hr] at hf
      rw [bind_of_ok hr, bind_of_ok hf, (hk a).widen d]
      rfl
    | error err d =>
      rw [hr] at hf
      rw [bind_of_error hr, bind_of_error hf]

end

/-- To go on with an operand, or after what was made of it, comes to the same. -/
theorem operandThen_bind {k : Expr → Parse n Expr} {k' : Expr → Parse (n + 1) Expr}
    (hk : ∀ e, (k e).Coincides (k' e)) (E : Nat → Parse n Expr) (P : Parse n Expr)
    (K : Expr → Parse n Expr) :
    operandThen E P (fun e => K e >>= k) = operandThen E P K >>= k' := by
  rw [operandThen, operandThen, bind_assoc]
  refine bind_congr fun t => ?_
  cases t with
  | none => rfl
  | some t =>
    by_cases hop : t.kind = .operator
    · simp only [if_pos hop]
      split
      · rw [← past_bind hk]
        simp only [bind_assoc]
      · rw [← past_bind hk]
        simp only [bind_assoc]
      · rfl
    · simp only [if_neg hop]
      rw [← past_bind hk]
      simp only [bind_assoc]

/-! ## Stages -/

/-- **Climbing in stages.** What binds at least as tightly as `most` is taken first, and then, from the
state that is left, what binds at least as tightly as `least`. The induction is on the bound: what follows
the next token does so for a bound that is less by one, and the second stage does the same for both. -/
theorem climb_eq_bind {least most : Nat} (h : least ≤ most) (n : Nat) (e : Expr) :
    climb n least e = climb n most e >>= climb n least := by
  induction n generalizing e with
  | zero => exact funext fun c => c.elim_zero.elim
  | succ n ih =>
    have hloose (e : Expr) := coincides_climb n (n + 1) least e
    funext c
    -- Where the first stage stops, the second one is all that there is.
    have hstop (hm : climb (n + 1) most e c = .ok e c) :
        climb (n + 1) least e c = (climb (n + 1) most e >>= climb (n + 1) least) c :=
      (bind_of_ok hm).symm
    -- Where the first stage takes something, so does climbing at once, and then both go on.
    have hgo {x : Parse (n + 1) Expr} (hm : climb (n + 1) most e c = x c)
        (hl : climb (n + 1) least e c = (x >>= climb (n + 1) least) c) :
        climb (n + 1) least e c = (climb (n + 1) most e >>= climb (n + 1) least) c :=
      hl.trans (bind_congr_of_ok hm.symm fun _ _ _ => rfl)
    cases hts : c.1.rest with
    | nil => exact hstop (climb_of_nil most e hts)
    | cons t ts =>
      by_cases hk : t.kind = .operator
      · cases hop : Op.ofText? t.text with
        | none =>
          exact hgo (climb_of_unknown most e hts hk hop) (climb_of_unknown least e hts hk hop)
        | some op =>
          by_cases hq : op.precedence < most
          · exact hstop (by rw [climb_of_operator most e hts ⟨hk, hop⟩, if_pos hq])
          · refine hgo (x := past .expression fun _ => expr n op.rightPrecedence >>= fun x =>
              climb n most (.binary op e x)) ?_ ?_
            · rw [climb_of_operator most e hts ⟨hk, hop⟩, if_neg hq]
            · rw [climb_of_operator least e hts ⟨hk, hop⟩, if_neg (by omega), ← past_bind hloose]
              simp only [bind_assoc, ← ih]
      · by_cases hq : most ≤ Op.mul.precedence ∧ c.1.juxtaposed = true
        · have hp : least ≤ Op.mul.precedence ∧ c.1.juxtaposed = true :=
            ⟨Nat.le_trans h hq.1, hq.2⟩
          refine hgo (x := operandThen (expr n) (primary n) fun x =>
            climb n (Op.mul.precedence + 1) x >>= fun y => climb n most (.binary .mul e y)) ?_ ?_
          · rw [climb_of_operand most e hts hk, if_pos hq]
          · rw [climb_of_operand least e hts hk, if_pos hp, ← operandThen_bind hloose]
            simp only [bind_assoc, ← ih]
        · exact hstop (by rw [climb_of_operand most e hts hk, if_neg hq])

/-- **Reading in stages.** -/
theorem expr_eq_bind {least most : Nat} (h : least ≤ most) (n : Nat) :
    expr n least = expr n most >>= climb n least := by
  cases n with
  | zero => exact funext fun c => c.elim_zero.elim
  | succ n =>
    rw [expr, expr, ← operandThen_bind fun e => coincides_climb n (n + 1) least e]
    exact congrArg (operandThen (expr n) (primary n)) (funext fun e => climb_eq_bind h n e)

end Parse

/-! ## Parsers -/

namespace Parser

open Parse

/-- Goes on after the operand `lhs` with all operators that bind at least as tightly as `least`. -/
def climb (p : Parser) (least : Nat) (lhs : Expr) : Except ParseError Expr × Parser :=
  p.run fun n => Parse.climb n least lhs

theorem run_eq_halt {α : Type} (p : Parser) (step : (n : Nat) → Parse n α) :
    p.run step = Prod.map id (fun cursor => { p with cursor })
      (halt (step (p.cursor.rest.length + 1) ⟨p.cursor, Nat.lt_succ_self _⟩)) := by
  unfold run
  cases step (p.cursor.rest.length + 1) ⟨p.cursor, Nat.lt_succ_self _⟩ <;> rfl

/-- **Expressions can be read in stages.** Whatever state a parser is in, and however it came to it, let
`least ≤ most`. If an expression of level `most` is read, then to read one of level `least` in its place is
to go on after it at level `least`: with the same tree or failure in the end, and with a parser in the same
state. If the expression of level `most` fails, then so does the one of level `least`, in the same way and at
the same place. -/
theorem expr_in_stages (p : Parser) {least most : Nat} (h : least ≤ most) :
    (∀ lhs, (p.expr most).1 = .ok lhs → p.expr least = (p.expr most).2.climb least lhs) ∧
      ∀ e, (p.expr most).1 = .error e → p.expr least = (.error e, (p.expr most).2) := by
  rw [expr, expr, run_eq_halt, run_eq_halt, expr_eq_bind h]
  cases hr : Parse.expr (p.cursor.rest.length + 1) most ⟨p.cursor, Nat.lt_succ_self _⟩ with
  | ok l d =>
    refine ⟨fun lhs hlhs => ?_, fun e he => (nomatch he)⟩
    cases hlhs
    have hresumed := coincides_climb (p.cursor.rest.length + 1) (d.1.rest.length + 1) least l d
      ⟨d.1, Nat.lt_succ_self _⟩ rfl
    rw [bind_of_ok hr, hresumed, climb, run_eq_halt]
    rfl
  | error err d =>
    refine ⟨fun lhs hlhs => (nomatch hlhs), fun e he => ?_⟩
    cases he
    rw [bind_of_error hr]
    rfl

/-- In `2*3+4` a term is read up to the sum, and the sum after it. In `2*3+` the second stage fails, and in
`2*` the first one. -/
theorem expr_in_stages_sum :
    let factor : List Token := [⟨.number, "2", 0⟩, ⟨.operator, "*", 1⟩]
    let tokens : List Token := factor ++ [⟨.number, "3", 2⟩, ⟨.operator, "+", 3⟩]
    let term := Expr.binary .mul (.number 2) (.number 3)
    let whole := ofTokens "2*3+4" (tokens ++ [⟨.number, "4", 4⟩])
    let cut := ofTokens "2*3+" tokens
    let dangling := ofTokens "2*" factor
    (whole.expr 2).1 = .ok term ∧ (whole.expr 2).2.cursor.index = 3 ∧
      whole.expr 0 = (whole.expr 2).2.climb 0 term ∧
      (whole.expr 0).1 = .ok (.binary .add term (.number 4)) ∧
      cut.expr 0 = (cut.expr 2).2.climb 0 term ∧
      (cut.expr 0).1 = .error (.unexpectedEnd .expression 4) ∧
      dangling.expr 0 = (.error (.unexpectedEnd .expression 2), (dangling.expr 2).2) := by
  intro factor tokens term whole cut dangling
  have hwhole : (whole.expr 2).1 = .ok term := rfl
  have hcut : (cut.expr 2).1 = .ok term := rfl
  have hdangling : (dangling.expr 2).1 = .error (.unexpectedEnd .expression 2) := rfl
  exact ⟨hwhole, rfl, (expr_in_stages whole (by decide)).1 term hwhole, rfl,
    (expr_in_stages cut (by decide)).1 term hcut, rfl,
    (expr_in_stages dangling (by decide)).2 _ hdangling⟩

end Parser

end LatexCalc
