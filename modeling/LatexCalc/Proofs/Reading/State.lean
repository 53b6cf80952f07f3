import LatexCalc.Proofs.Reading.Grounds

/-!
# The state of a parser

Whether it succeeds or fails, a step of the parser ends at a place that is reached by taking tokens
(`Parse.advances_expr`): the integrands that it entered it has left, and nothing was untaken. So after
any calls the state of a parser is the one of a cursor that was moved along its tokens
(`Parser.goesOn_calls`), which says what it remembers (`Parser.isCoherent_of_reaches`).

That an operand may have ended before a place is asked only where that is so: a parser that raises an
alarm elsewhere (`Parse.checkedExpr`) is the same parser (`Parse.checked_eq`).
-/

namespace LatexCalc

/-! ## Steps go forward -/

namespace Parse

open Cursor

variable {n : Nat} {α β : Type}

/-- The place where a step ends, also if it fails. -/
def ending (x : Parse n α) (c : Below n) : Cursor :=
  match x c with
  | .ok _ d => d.1
  | .error _ d => d.1

theorem ending_of_ok {x : Parse n α} {c d : Below n} {a : α} (h : x c = .ok a d) :
    x.ending c = d.1 := by
  rw [ending, h]

theorem ending_of_error {x : Parse n α} {c d : Below n} {e : ParseError} (h : x c = .error e d) :
    x.ending c = d.1 := by
  rw [ending, h]

/-- From each place on, the step takes tokens and does nothing else to the place. -/
def Advances (x : Parse n α) : Prop :=
  ∀ c : Below n, c.1.Reaches (x.ending c)

/-- A step that accounts for what it does goes forward. -/
theorem Grounded.advances {x : Parse n α} (h : ∀ ts, x.Grounded ts) : x.Advances := by
  intro c
  have hc := h c.1.rest c (List.Subset.refl _)
  cases hr : x c with
  | ok a d =>
    rw [hr] at hc
    cases hc with
    | ok hd _ => rwa [ending_of_ok hr]
  | error e d =>
    rw [hr] at hc
    cases hc with
    | error hd _ => rwa [ending_of_error hr]

/-- **The steps of the parser only take tokens**, whether they succeed or fail. -/
theorem advances_expr (n : Nat) : (∀ p, (expr n p).Advances) ∧ (∀ p e, (climb n p e).Advances) ∧
    (primary n).Advances :=
  ⟨fun p => Grounded.advances fun ts => (accounts_expr ts n).1 p,
    fun p e => Grounded.advances fun ts => (accounts_expr ts n).2.1 p e,
    Grounded.advances fun ts => (accounts_expr ts n).2.2⟩

/-! ## The end of an operand -/

/-- Whether a product is to be read. Where no operand may have ended, the step fails with `alarm`. -/
def checkedFollows (alarm : ParseError) : Parse n Bool := do
  let c ← get
  if c.1.afterOperand then return c.1.juxtaposed else throw alarm

mutual

/-- An expression, read with alarms. -/
def checkedExpr (alarm : ParseError) : (n : Nat) → (least : Nat) → Parse n Expr
  | 0, _ => fun c => c.elim_zero.elim
  | n + 1, least =>
    operandThen (checkedExpr alarm n) (checkedPrimary alarm n) (checkedClimb alarm n least)

/-- What goes on after an operand, read with alarms. -/
def checkedClimb (alarm : ParseError) : (n : Nat) → (least : Nat) → (lhs : Expr) → Parse n Expr
  | 0, _, _ => fun c => c.elim_zero.elim
  | n + 1, least, lhs => do
    match ← next? with
    | none => return lhs
    | some t =>
      if t.kind = .operator then
        match Op.ofText? t.text with
        | none => fail .operator
        | some op =>
          if op.precedence < least then return lhs
          else past .expression fun _ => do
            checkedClimb alarm n least (.binary op lhs (← checkedExpr alarm n op.rightPrecedence))
      else if least ≤ Op.mul.precedence then
        if ← checkedFollows alarm then
          operandThen (checkedExpr alarm n) (checkedPrimary alarm n) fun operand => do
            let factor ← checkedClimb alarm n (Op.mul.precedence + 1) operand
            checkedClimb alarm n least (.binary .mul lhs factor)
        else return lhs
      else return lhs

/-- An operand without a sign, read with alarms. -/
def checkedPrimary (alarm : ParseError) : (n : Nat) → Parse n Expr
  | 0 => fun c => c.elim_zero.elim
  | n + 1 => past .expression (operandFrom (checkedExpr alarm n) (checkedPrimary alarm n))

end

section

variable {c : Below n}

theorem bind_congr_of_ok {x x' : Parse n α} {f f' : α → Parse n β} (hx : x c = x' c)
    (h : ∀ a d, x' c = .ok a d → f a d = f' a d) : (x >>= f) c = (x' >>= f') c := by
  show EStateM.bind x f c = EStateM.bind x' f' c
  unfold EStateM.bind
  rw [hx]
  cases hr : x' c with
  | ok a d => exact h a d hr
  | error e d => rfl

theorem past_congr {c : Below (n + 1)} {e : Expectation} {f f' : Token → Parse n α}
    (h : ∀ t (d : Below n), c.1.Takes t d.1 → f t d = f' t d) : past e f c = past e f' c := by
  cases hts : c.1.rest with
  | nil => rw [past_of_nil hts, past_of_nil hts]
  | cons t ts =>
    obtain ⟨hc, hf⟩ := past_of_cons (e := e) (f := f) hts
    obtain ⟨_, hf'⟩ := past_of_cons (e := e) (f := f') hts
    rw [hf, hf', h t ⟨c.1.advance, hc⟩ (takes_advance hts)]

theorem checkedFollows_bind {alarm : ParseError} (ha : c.1.afterOperand = true) (f : Bool → Parse n α) :
    (checkedFollows alarm >>= f) c = f c.1.juxtaposed c := by
  refine bind_of_ok ?_
  show (if c.1.afterOperand = true then _ else _ : Parse n Bool) c = _
  rw [if_pos ha]
  rfl

end

/-- What goes on after an operand begins where one may have ended. -/
theorem operandThen_congr {E : Nat → Parse n Expr} {P : Parse n Expr} {K K' : Expr → Parse n Expr}
    (hE : ∀ p, (E p).Realizes (.expr p)) (hP : P.Realizes .operand)
    (hK : ∀ e (d : Below n), d.1.afterOperand = true → K e d = K' e d) :
    operandThen E P K = operandThen E P K' := by
  have hsigned (make : Expr → Expr) (d : Below n) :
      (E Op.mul.precedence >>= fun e => K (make e)) d =
        (E Op.mul.precedence >>= fun e => K' (make e)) d :=
    bind_congr_of_ok rfl fun e m hr => hK _ m ((hE _).afterOperand ⟨d.2, m.2, hr⟩)
  funext c
  rw [operandThen, operandThen, next_bind, next_bind]
  cases c.1.rest.head? with
  | none => rfl
  | some t =>
    by_cases hk : t.kind = .operator
    · simp only [if_pos hk]
      cases Op.ofText? t.text with
      | none => rfl
      | some op =>
        cases op with
        | sub => exact past_congr fun _ d _ => hsigned _ d
        | add => exact past_congr fun _ d _ => hsigned id d
        | _ => rfl
    · simp only [if_neg hk]
      refine past_congr fun t d ht => bind_congr_of_ok rfl fun e m hr => ?_
      exact hK e m ((realizesAfter_operandFrom hE hP t).afterOperand ht ⟨d.2, m.2, hr⟩)

section

variable {alarm : ParseError} (hE : checkedExpr alarm n = expr n)
  (hC : ∀ p e (c : Below n), c.1.afterOperand = true → checkedClimb alarm n p e c = climb n p e c)
  (hP : checkedPrimary alarm n = primary n)

include hE hC hP

theorem checkedClimb_succ (p : Nat) (e : Expr) {c : Below (n + 1)} (ha : c.1.afterOperand = true) :
    checkedClimb alarm (n + 1) p e c = climb (n + 1) p e c := by
  obtain ⟨hRE, hRC, hRP⟩ := realizes n
  have hfactor : operandThen (expr n) (primary n) (fun x => checkedClimb alarm n
        (Op.mul.precedence + 1) x >>= fun y => checkedClimb alarm n p (.binary .mul e y)) =
      operandThen (expr n) (primary n) fun x => climb n (Op.mul.precedence + 1) x >>= fun y =>
        climb n p (.binary .mul e y) :=
    operandThen_congr hRE hRP fun x d hd => bind_congr_of_ok (hC _ x d hd) fun y m hr =>
      hC p _ m ((hRC _ x).afterOperand hd ⟨d.2, m.2, hr⟩)
  rw [checkedClimb, climb, hE, hP, next_bind, next_bind]
  cases c.1.rest.head? with
  | none => rfl
  | some t =>
    by_cases hk : t.kind = .operator
    · simp only [if_pos hk]
      cases Op.ofText? t.text with
      | none => rfl
      | some op =>
        by_cases hlt : op.precedence < p
        · simp only [if_pos hlt]
        · simp only [if_neg hlt]
          exact past_congr fun _ d _ => bind_congr_of_ok rfl fun x m hr =>
            hC p _ m ((hRE _).afterOperand ⟨d.2, m.2, hr⟩)
    · simp only [if_neg hk]
      show _ = (if p ≤ Op.mul.precedence ∧ c.1.juxtaposed = true then _ else _ :
        Parse (n + 1) Expr) c
      by_cases hp : p ≤ Op.mul.precedence
      · rw [if_pos hp, checkedFollows_bind ha, hfactor]
        simp only [hp, true_and]
      · rw [if_neg hp, if_neg fun h => hp h.1]

end

/-- **No alarm is raised**: whether an operand may have ended before a place is asked only where one
may. -/
theorem checked_eq (alarm : ParseError) (n : Nat) : checkedExpr alarm n = expr n ∧
    (∀ p e (c : Below n), c.1.afterOperand = true → checkedClimb alarm n p e c = climb n p e c) ∧
    checkedPrimary alarm n = primary n := by
  induction n with
  | zero =>
    exact ⟨funext fun _ => funext fun c => c.elim_zero.elim, fun _ _ c _ => c.elim_zero.elim,
      funext fun c => c.elim_zero.elim⟩
  | succ n ih =>
    obtain ⟨hE, hC, hP⟩ := ih
    obtain ⟨hRE, -, hRP⟩ := realizes n
    refine ⟨funext fun p => ?_, fun p e c ha => checkedClimb_succ hE hC hP p e ha, ?_⟩
    · rw [checkedExpr, expr, hE, hP]
      exact operandThen_congr hRE hRP (hC p)
    · rw [checkedPrimary, primary, hE, hP]

end Parse

/-! ## Expressions that are read -/

/-- The way from `c` to `d` is past an operand: tokens were taken, and the last one may end an operand. -/
def Cursor.PastOperand (c d : Cursor) : Prop :=
  c.index < d.index ∧
    ∃ k ∈ [TokenKind.number, .identifier, .function, .braceClose, .parenClose], d.previous = some k

theorem TokenKind.mem_of_endsOperand {k : TokenKind} (h : k.endsOperand = true) :
    k ∈ [number, identifier, function, braceClose, parenClose] := by
  cases k <;> first | decide | cases h

/-- **An expression that is read** is past an operand. -/
theorem Parse.Gives.pastOperand {n least : Nat} {c d : Cursor} {e : Expr}
    (h : (expr n least).Gives c e d) : c.PastOperand d := by
  obtain ⟨hread, hreaches⟩ := ((realizes n).1 least).sound (.refl c) h
  obtain ⟨us, t, hts, ht⟩ := hread.taken
  refine ⟨?_, t.kind, t.kind.mem_of_endsOperand ht, hreaches.previous_eq hts⟩
  have hadd := hreaches.index_add
  rw [hts, List.length_append, List.length_cons] at hadd
  omega

/-! ## Parsers -/

namespace Parser

open Parse

variable {p : Parser} {α : Type} {step : (n : Nat) → Parse n α}

theorem tokens_run : (p.run step).2.tokens = p.tokens := by
  unfold run
  split <;> rfl

theorem cursor_run : (p.run step).2.cursor =
    (step (p.cursor.rest.length + 1)).ending ⟨p.cursor, Nat.lt_succ_self _⟩ := by
  unfold run ending
  cases step (p.cursor.rest.length + 1) ⟨p.cursor, Nat.lt_succ_self _⟩ <;> rfl

theorem gives_of_run {a : α} (h : (p.run step).1 = .ok a) :
    (step (p.cursor.rest.length + 1)).Gives p.cursor a (p.run step).2.cursor := by
  unfold run at h ⊢
  split
  · next b c hb =>
    rw [hb] at h
    cases h
    exact ⟨_, c.2, hb⟩
  · next e c he =>
    rw [he] at h
    cases h

/-- What a parser is asked for. -/
inductive Call
  | expr (least : Nat)
  | statement
  | finish

/-- A parser after a call, whether it succeeded or failed. To be asked for the end changes nothing. -/
def after (p : Parser) : Call → Parser
  | .expr least => (p.expr least).2
  | .statement => p.statement.2
  | .finish => p

/-- The parser has its tokens, and stands further on among them. -/
def GoesOn (p q : Parser) : Prop :=
  q.tokens = p.tokens ∧ p.cursor.Reaches q.cursor

theorem GoesOn.refl (p : Parser) : p.GoesOn p :=
  ⟨rfl, .refl p.cursor⟩

theorem GoesOn.trans {q r : Parser} (h : p.GoesOn q) (h' : q.GoesOn r) : p.GoesOn r :=
  ⟨h'.1.trans h.1, h.2.trans h'.2⟩

theorem goesOn_run (h : ∀ n, (step n).Advances) : p.GoesOn (p.run step).2 := by
  refine ⟨tokens_run, ?_⟩
  rw [cursor_run]
  exact h _ ⟨p.cursor, Nat.lt_succ_self _⟩

/-- A statement is read in one step, which accounts for what it does. -/
theorem exists_statement_eq (p : Parser) :
    ∃ step : (n : Nat) → Parse n Statement, p.statement = p.run step ∧ ∀ n ts, (step n).Grounded ts := by
  have hexpr (n : Nat) (ts : List Token) : (Parse.expr n 0).Grounded ts := (accounts_expr ts n).1 0
  have hline : ∀ n ts, (Statement.expr <$> Parse.expr n 0).Grounded ts := fun n ts => (hexpr n ts).map _
  unfold statement
  split
  · next name _ _ _ =>
    split
    · refine ⟨fun n => do
        Parse.skip 2
        return .assign name.text (← Parse.expr n 0), rfl, fun n ts => ?_⟩
      exact (Accounts.skip 2).seq fun _ => (hexpr n ts).seq fun _ => .pure trivial
    · exact ⟨_, rfl, hline⟩
  · exact ⟨_, rfl, hline⟩

/-- **A call takes tokens**, and does nothing else to a parser. -/
theorem goesOn_after (p : Parser) (call : Call) : p.GoesOn (p.after call) := by
  cases call with
  | expr least => exact goesOn_run fun n => (advances_expr n).1 least
  | statement =>
    obtain ⟨step, hstep, hgrounded⟩ := exists_statement_eq p
    show p.GoesOn p.statement.2
    rw [hstep]
    exact goesOn_run fun n => Grounded.advances (hgrounded n)
  | finish => exact .refl p

theorem goesOn_calls (p : Parser) (calls : List Call) : p.GoesOn (calls.foldl after p) := by
  induction calls generalizing p with
  | nil => exact .refl p
  | cons call calls ih => exact (goesOn_after p call).trans (ih (p.after call))

/-- What a parser remembers is what it has taken: it is in no integrand, and the tokens that it does not
have left end with one of the kind that it took last. -/
structure IsCoherent (p : Parser) : Prop where
  integrands : p.cursor.integrands = 0
  index_le : p.cursor.index ≤ p.tokens.length
  rest : p.cursor.rest = p.tokens.drop p.cursor.index
  previous : p.cursor.previous = (p.tokens.take p.cursor.index).getLast?.map Token.kind

theorem isCoherent_of_reaches {size : Nat} (h : (Cursor.start size p.tokens).Reaches p.cursor) :
    p.IsCoherent := by
  have hindex : p.cursor.index + p.cursor.rest.length = p.tokens.length := by
    simpa [Cursor.start] using h.index_add
  have hsuffix : p.cursor.rest <:+ p.tokens := h.suffix
  have hrest : p.cursor.rest = p.tokens.drop p.cursor.index := by
    rw [List.suffix_iff_eq_drop.1 hsuffix, ← hindex, Nat.add_sub_cancel]
  have htokens := List.take_append_drop p.cursor.index p.tokens
  rw [← hrest] at htokens
  refine ⟨h.integrands_eq, by omega, hrest, ?_⟩
  rcases List.eq_nil_or_concat' (p.tokens.take p.cursor.index) with hnil | ⟨us, t, htake⟩
  · rw [hnil] at htokens ⊢
    have hstart : p.cursor = Cursor.start size p.tokens := h.eq_of_rest (.refl _) htokens
    rw [hstart]
    rfl
  · rw [htake] at htokens ⊢
    rw [List.append_assoc] at htokens
    rw [h.previous_eq htokens.symm]
    simp

/-- **The state of a parser stays coherent.** Let a parser be asked for expressions, statements and the
end, in any order. Then after all of these calls, whichever of them fail, it is in no integrand, its
place is among its tokens, and the kind that it took last is the one of the token before that place. No
further call takes it back, and an expression that is read takes it past an operand. So does each
expression that is read on the way; an integrand is left from inside one integrand more than it was
entered from; and a parser that raises an alarm where the end of an operand is asked for and is none is
the same one. -/
theorem isCoherent_calls (line : String) (tokens : List Token) (calls : List Call) :
    let p := calls.foldl after (ofTokens line tokens)
    p.tokens = tokens ∧ p.IsCoherent ∧ (∀ call, p.cursor.index ≤ (p.after call).cursor.index) ∧
      (∀ least e, (p.expr least).1 = .ok e → p.cursor.PastOperand (p.expr least).2.cursor) ∧
      (∀ n least (c d : Below n) e, Parse.expr n least c = .ok e d → c.1.PastOperand d.1) ∧
      (∀ n (c : Below n),
        ((Parse.expr n 0).ending ⟨c.1.deepen, c.2⟩).integrands = c.1.integrands + 1) ∧
      ∀ alarm n least, checkedExpr alarm n least = Parse.expr n least := by
  intro p
  obtain ⟨htokens, hreaches⟩ : (ofTokens line tokens).GoesOn p := goesOn_calls _ calls
  have hstart : (Cursor.start line.utf8ByteSize p.tokens).Reaches p.cursor := by
    rw [htokens]
    exact hreaches
  refine ⟨htokens, isCoherent_of_reaches hstart, fun call => (goesOn_after p call).2.index_le,
    fun least e he => (gives_of_run he).pastOperand, fun n least c d e he => ?_, fun n c => ?_,
    fun alarm n least => ?_⟩
  · exact Gives.pastOperand ⟨c.2, d.2, he⟩
  · exact ((advances_expr n).1 0 ⟨c.1.deepen, c.2⟩).integrands_eq
  · exact congrFun (checked_eq alarm n).1 least

/-- In the tokens `\int{0}{1})2` the integrand fails. The next call is outside of it, and reads `2`. -/
theorem isCoherent_calls_failed :
    let tokens : List Token := [⟨.function, "\\int", 0⟩, ⟨.braceOpen, "\x7b", 4⟩, ⟨.number, "0", 5⟩,
      ⟨.braceClose, "\x7d", 6⟩, ⟨.braceOpen, "\x7b", 7⟩, ⟨.number, "1", 8⟩, ⟨.braceClose, "\x7d", 9⟩,
      ⟨.parenClose, ")", 10⟩, ⟨.number, "2", 11⟩]
    let start := ofTokens "\\int\x7b0\x7d\x7b1\x7d)2" tokens
    let p := start.after (.expr 0)
    (start.expr 0).1 = .error (.unexpectedToken .expression ⟨.parenClose, ")", 10⟩) ∧
      p.cursor.integrands = 0 ∧ (p.expr 0).1 = .ok (.number 2) ∧
      p.cursor.PastOperand (p.expr 0).2.cursor := by
  intro tokens start p
  have hread : (p.expr 0).1 = .ok (.number 2) := rfl
  obtain ⟨-, hcoherent, -, hexpr, -⟩ :=
    isCoherent_calls "\\int\x7b0\x7d\x7b1\x7d)2" tokens [.expr 0]
  exact ⟨rfl, hcoherent.integrands, hread, hexpr 0 _ hread⟩

end Parser

end LatexCalc
