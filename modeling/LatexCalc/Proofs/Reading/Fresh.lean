import LatexCalc.Proofs.Reading.State

/-!
# Reading on

What a parser reads does not depend on what it has read before. It remembers the kind of the token that
it took last, but asks for it only behind an operand, and so after it has taken another token
(`Parse.yield_operandThen`). Therefore a parser that stands anywhere among its tokens reads an expression
as a fresh one does that is given the tokens left (`Parser.agrees_standing`).
-/

namespace LatexCalc

/-! ## Places with the same tokens left -/

/-- Places in the same line with the same tokens left, both inside an integrand or both outside of all. -/
structure Cursor.Alike (c c' : Cursor) : Prop where
  rest : c'.rest = c.rest
  inside : c'.inside = c.inside
  size : c'.size = c.size

@[simp] theorem Token.map_moved_zero (ts : List Token) : ts.map (Token.moved 0) = ts :=
  List.map_id ts

@[simp] theorem ParseError.moved_zero (e : ParseError) : e.moved 0 = e := by
  cases e <;> rfl

namespace Cursor.Alike

variable {c c' : Cursor}

/-- From the next token on, nothing else is remembered. -/
theorem advance (h : c.Alike c') {t : Token} {ts : List Token} (hts : c.rest = t :: ts) :
    c.advance.Image 0 c'.advance where
  rest := by rw [rest_advance, rest_advance, h.rest, Token.map_moved_zero]
  inside := by
    rw [Cursor.inside, Cursor.inside, integrands_advance, integrands_advance]
    exact h.inside
  afterOperand := by
    rw [Cursor.afterOperand, Cursor.afterOperand, previous_advance hts,
      previous_advance (h.rest.trans hts)]
  size := by rw [size_advance, size_advance, h.size, Nat.add_zero]

theorem unexpected (h : c.Alike c') (e : Expectation) (t : Option Token) :
    c'.unexpected e t = c.unexpected e t := by
  cases t with
  | none => rw [Cursor.unexpected, Cursor.unexpected, h.size]
  | some t => rfl

end Cursor.Alike

/-! ## What comes of a step -/

namespace Parse

open Cursor

variable {n n' : Nat} {α : Type}

/-- The value of a step or its failure, and the tokens that it leaves. -/
def yield : EStateM.Result ParseError (Below n) α → Except ParseError α × List Token
  | .ok a d => (.ok a, d.1.rest)
  | .error e d => (.error e, d.1.rest)

theorem Same.yield_eq {c : Below n} {c' : Below n'} {r : EStateM.Result ParseError (Below n) α}
    {r' : EStateM.Result ParseError (Below n') α} (h : Same 0 Eq c c' r r') : yield r' = yield r := by
  cases h with
  | ok hv hd => simp [yield, hv, hd.image.rest]
  | error hd => simp [yield, hd.image.rest]

section

variable {c : Below (n + 1)} {c' : Below (n' + 1)}

theorem yield_past {f : Token → Parse n α} {f' : Token → Parse n' α}
    (h : ∀ t, Mirrors 0 Eq (f t) (f' t)) (e : Expectation) (hc : c.1.Alike c'.1) :
    yield (past e f' c') = yield (past e f c) := by
  cases hts : c.1.rest with
  | nil =>
    have hts' : c'.1.rest = [] := hc.rest.trans hts
    rw [past_of_nil hts, past_of_nil hts', hc.unexpected]
    simp [yield, hts, hts']
  | cons t ts =>
    obtain ⟨hb, hf⟩ := past_of_cons (e := e) (f := f) hts
    obtain ⟨hb', hf'⟩ := past_of_cons (e := e) (f := f') (hc.rest.trans hts)
    have hsame := (h t ⟨_, hb⟩ ⟨_, hb'⟩ (hc.advance hts)).yield_eq
    rw [hf, hf']
    cases hr : f t ⟨_, hb⟩ <;> cases hr' : f' t ⟨_, hb'⟩ <;> rw [hr, hr'] at hsame <;> exact hsame

theorem yield_fail (e : Expectation) (hc : c.1.Alike c'.1) :
    yield ((fail e : Parse (n' + 1) α) c') = yield ((fail e : Parse (n + 1) α) c) := by
  show ((.error (c'.1.unexpected e c'.1.rest.head?), c'.1.rest) : Except ParseError α × List Token) =
    (.error (c.1.unexpected e c.1.rest.head?), c.1.rest)
  rw [hc.unexpected, hc.rest]

/-- **An operand is read from its first token on**, and with it all that follows. -/
theorem yield_operandThen {E : Nat → Parse n Expr} {E' : Nat → Parse n' Expr} {P : Parse n Expr}
    {P' : Parse n' Expr} {K : Expr → Parse n Expr} {K' : Expr → Parse n' Expr}
    (hE : ∀ p, Mirrors 0 Eq (E p) (E' p)) (hP : Mirrors 0 Eq P P')
    (hK : ∀ e, Mirrors 0 Eq (K e) (K' e)) (hc : c.1.Alike c'.1) :
    yield (operandThen E' P' K' c') = yield (operandThen E P K c) := by
  rw [operandThen, operandThen, next_bind, next_bind, hc.rest]
  cases c.1.rest.head? with
  | none => exact yield_fail .expression hc
  | some t =>
    by_cases hk : t.kind = .operator
    · simp only [if_pos hk]
      cases Op.ofText? t.text with
      | none => exact yield_fail .expression hc
      | some op =>
        cases op with
        | sub => exact yield_past (fun _ => (hE _).bind_eq fun _ => hK _) .expression hc
        | add => exact yield_past (fun _ => (hE _).bind_eq fun _ => hK _) .expression hc
        | _ => exact yield_fail .expression hc
    · simp only [if_neg hk]
      exact yield_past (fun t => (Mirrors.operandFrom hE hP t).bind_eq fun _ => hK _) .expression hc

theorem yield_expr (least : Nat) (hc : c.1.Alike c'.1) :
    yield (expr (n' + 1) least c') = yield (expr (n + 1) least c) := by
  obtain ⟨hE, hC, hP⟩ := mirrors_expr 0 n n'
  rw [expr, expr]
  exact yield_operandThen hE hP (hC least) hc

end

end Parse

/-! ## Parsers -/

namespace Parser

open Parse

variable {p q : Parser}

/-- Two parsers read the same expression or fail in the same way, and take as many tokens. -/
def Agrees (p q : Parser) (least : Nat) : Prop :=
  (p.expr least).1 = (q.expr least).1 ∧
    ∃ k, (p.expr least).2.cursor.index = p.cursor.index + k ∧
      (q.expr least).2.cursor.index = q.cursor.index + k

theorem yield_run {α : Type} (p : Parser) (step : (n : Nat) → Parse n α) :
    ((p.run step).1, (p.run step).2.cursor.rest) =
      yield (step (p.cursor.rest.length + 1) ⟨p.cursor, Nat.lt_succ_self _⟩) := by
  unfold run
  cases step (p.cursor.rest.length + 1) ⟨p.cursor, Nat.lt_succ_self _⟩ <;> rfl

/-- Where the same tokens are left in the same line, the same is read. -/
theorem agrees_of_alike (h : p.cursor.Alike q.cursor) (least : Nat) : p.Agrees q least := by
  have hyield :
      yield (Parse.expr (q.cursor.rest.length + 1) least ⟨q.cursor, Nat.lt_succ_self _⟩) =
        yield (Parse.expr (p.cursor.rest.length + 1) least ⟨p.cursor, Nat.lt_succ_self _⟩) :=
    yield_expr least h
  rw [← yield_run p fun n => Parse.expr n least, ← yield_run q fun n => Parse.expr n least] at hyield
  obtain ⟨houtcome, hrest⟩ := Prod.mk.inj hyield
  have hp := (goesOn_after p (.expr least)).2
  have hq := (goesOn_after q (.expr least)).2
  have hlen : q.cursor.rest.length = p.cursor.rest.length := congrArg List.length h.rest
  have hlen' : (q.expr least).2.cursor.rest.length = (p.expr least).2.cursor.rest.length :=
    congrArg List.length hrest
  have hle : (p.expr least).2.cursor.rest.length ≤ p.cursor.rest.length := hp.suffix.length_le
  have haddp : (p.expr least).2.cursor.index + (p.expr least).2.cursor.rest.length =
      p.cursor.index + p.cursor.rest.length := hp.index_add
  have haddq : (q.expr least).2.cursor.index + (q.expr least).2.cursor.rest.length =
      q.cursor.index + q.cursor.rest.length := hq.index_add
  refine ⟨houtcome.symm, p.cursor.rest.length - (p.expr least).2.cursor.rest.length, ?_, ?_⟩
  · omega
  · omega

/-- A parser of which `index` tokens are taken and which is in `integrands` integrands. The kind that it
took last may be any. -/
def standing (line : String) (tokens : List Token) (index : Nat) (previous : Option TokenKind)
    (integrands : Nat) : Parser :=
  ⟨tokens, ⟨tokens.drop index, index, previous, integrands, line.utf8ByteSize⟩⟩

/-- After any calls, the place of a parser is like the one before the tokens left. -/
theorem alike_calls (line : String) (tokens : List Token) (calls : List Call) :
    let p := calls.foldl after (ofTokens line tokens)
    p.cursor.Alike (ofTokens line (tokens.drop p.cursor.index)).cursor := by
  intro p
  obtain ⟨htokens, hreaches⟩ : (ofTokens line tokens).GoesOn p := goesOn_calls _ calls
  have hstart : (Cursor.start line.utf8ByteSize p.tokens).Reaches p.cursor := by
    rw [htokens]
    exact hreaches
  have hcoherent := isCoherent_of_reaches hstart
  have hinside : p.cursor.inside = false := by rw [Cursor.inside, hcoherent.integrands]; rfl
  refine ⟨?_, hinside.symm, hreaches.size_eq.symm⟩
  rw [hcoherent.rest, htokens]
  rfl

/-- **Reading does not depend on what came before.** A parser that stands anywhere among its tokens,
whichever kind it took last, reads an expression as a fresh one does that has only the tokens left: the
same tree or the same failure, with as many tokens. Inside integrands it reads as in a single one, however
many there are. And after any calls, also if they failed, it reads as a fresh one. -/
theorem agrees_standing (line : String) (tokens : List Token) (index : Nat)
    (previous : Option TokenKind) (least : Nat) :
    (standing line tokens index previous 0).Agrees (ofTokens line (tokens.drop index)) least ∧
    (∀ integrands, (standing line tokens index previous (integrands + 1)).Agrees
      (standing line (tokens.drop index) 0 none 1) least) ∧
    ∀ calls : List Call,
      let p := calls.foldl after (ofTokens line tokens)
      p.Agrees (ofTokens line (tokens.drop p.cursor.index)) least := by
  refine ⟨?_, fun integrands => ?_, fun calls => ?_⟩
  · have houtside : (standing line tokens index previous 0).cursor.Alike
        (ofTokens line (tokens.drop index)).cursor := ⟨rfl, rfl, rfl⟩
    exact agrees_of_alike houtside least
  · have hinside : (standing line tokens index previous (integrands + 1)).cursor.Alike
        (standing line (tokens.drop index) 0 none 1).cursor :=
      ⟨rfl, by simp [standing, Cursor.inside], rfl⟩
    exact agrees_of_alike hinside least
  · exact agrees_of_alike (alike_calls line tokens calls) least

end Parser

end LatexCalc
