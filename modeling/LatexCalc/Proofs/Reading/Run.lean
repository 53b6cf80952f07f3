import LatexCalc.Proofs.Reading.Productions

/-!
# The parser reads by the rules

By induction on the bound, `Parse.expr`, `Parse.climb` and `Parse.primary` succeed exactly where the
rules read something (`realizes`): one step of the recursion is put together from the productions.

Main statements: a list of tokens is parsed as `e` exactly if all of it is read as `e`
(`parse_eq_ok_iff`), and the same for statements (`parseStatement_eq_expr_iff`,
`parseStatement_eq_assign_iff`).
-/

namespace LatexCalc

namespace Parse

open Cursor

variable {n : Nat} {c₀ c c' : Cursor}

/-! ## The recursion -/

/-- Whether a factor follows depends on the tokens that are left, once an operand was read. -/
theorem juxtaposed_of_afterOperand (ha : c.afterOperand = true) :
    c.juxtaposed = juxtaposes c.inside c.rest := by
  unfold afterOperand at ha
  simp only [Cursor.juxtaposed, ha, juxtaposes, inside, Bool.true_and]

/-- After what ends an operand, a factor may follow. -/
theorem afterOperand_of_reaches (h : c.Reaches c') (hr : EndsOperand c.rest c'.rest) :
    c'.afterOperand = true := by
  obtain ⟨u, t, hu, ht⟩ := hr
  rw [afterOperand, h.previous_eq hu, Option.any_some, ht]

/-- After the next token there is one token fewer. -/
theorem next_place {t : Token} {s : List Token} (hn : c.rest.length < n + 1) (hts : c.rest = t :: s) :
    c.Takes t c.advance ∧ c.advance.rest = s ∧ c.advance.rest.length < n := by
  have hs : c.advance.rest = s := by rw [rest_advance, hts]; rfl
  rw [hts, List.length_cons] at hn
  exact ⟨takes_advance hts, hs, by rw [hs]; omega⟩

theorem Realizes.afterOperand {x : Parse n Expr} {p : Nat} {e : Expr} (hx : x.Realizes (.expr p))
    (h : x.Gives c e c') : c'.afterOperand = true := by
  obtain ⟨hr, hc⟩ := hx.sound (.refl c) h
  exact afterOperand_of_reaches hc hr.taken

theorem RealizesAfter.afterOperand {t : Token} {x : Parse n Expr} {e : Expr}
    (hx : RealizesAfter t x) (ht : c₀.Takes t c) (h : x.Gives c e c') : c'.afterOperand = true := by
  obtain ⟨hr, hc⟩ := hx.sound h
  exact afterOperand_of_reaches (ht.reaches.trans hc) (ht.1 ▸ hr.taken)

theorem RealizesClimb.afterOperand {x : Parse n Expr} {p : Nat} {l e : Expr}
    (hx : x.RealizesClimb p l) (ha : c.afterOperand = true) (h : x.Gives c e c') :
    c'.afterOperand = true := by
  obtain ⟨hr, hc⟩ := hx.sound (.refl c) ha h
  rcases hr.taken with hr | hr
  · rwa [← (Reaches.refl c).eq_of_rest hc hr]
  · exact afterOperand_of_reaches hc hr

theorem Gives.climb_stop {p : Nat} {l : Expr} (ha : c.afterOperand = true)
    (hn : c.rest.length < n + 1) (hs : Stops p c.inside c.rest) : (climb (n + 1) p l).Gives c l c := by
  rw [climb, gives_bind_next]
  cases hts : c.rest with
  | nil => exact .pure hn _
  | cons t ts =>
    rw [List.head?_cons]
    rw [hts] at hs
    by_cases hk : t.kind = .operator
    · obtain ⟨op, hop, hlt⟩ := (stops_operator hk).1 hs
      simp only [hk, if_true, hop, hlt]
      exact .pure hn _
    · have hj := (stops_of_ne_operator hk).1 hs
      rw [← hts, ← juxtaposed_of_afterOperand ha] at hj
      simp only [hk, if_false]
      refine gives_bind_get.2 ⟨hn, ?_⟩
      rw [if_neg hj]
      exact .pure hn _

theorem Gives.climb_operator {p : Nat} {l x e : Expr} {t : Token} {op : Op} {d m : Cursor}
    (ht : c.Takes t d) (hop : t.IsOp op) (hl : p ≤ op.precedence)
    (hx : (expr n op.rightPrecedence).Gives d x m) (h : (climb n p (.binary op l x)).Gives m e c') :
    (climb (n + 1) p l).Gives c e c' := by
  rw [climb, gives_bind_next, ht.1, List.head?_cons]
  simp only [hop.1, if_true, hop.2, Nat.not_lt.2 hl, if_false]
  exact gives_past.2 ⟨t, d, ht, hx.bind h⟩

theorem Gives.climb_factor {p : Nat} {l x y e : Expr} {t : Token} {d m k : Cursor}
    (ha : c.afterOperand = true) (ht : c.Takes t d) (hk : t.kind ≠ .operator)
    (hl : p ≤ Op.mul.precedence) (hj : juxtaposes c.inside c.rest = true)
    (hx : (operandFrom (expr n) (primary n) t).Gives d x m)
    (hy : (climb n (Op.mul.precedence + 1) x).Gives m y k)
    (h : (climb n p (.binary .mul l y)).Gives k e c') : (climb (n + 1) p l).Gives c e c' := by
  have hn : c.rest.length < n + 1 := by
    have hlt := hx.length_lt
    rw [ht.1, List.length_cons]
    omega
  rw [← juxtaposed_of_afterOperand ha] at hj
  rw [climb, gives_bind_next, ht.1, List.head?_cons]
  simp only [hk, if_false]
  refine gives_bind_get.2 ⟨hn, ?_⟩
  rw [if_pos ⟨hl, hj⟩]
  exact gives_operandThen.2 ⟨t, d, ht, .inr (.inr ⟨hk, x, m, hx, hy.bind h⟩)⟩

/-- The three ways in which climbing goes on after an operand: it stops, or an operator that binds
tightly enough follows, or a factor. -/
theorem gives_of_climb {p : Nat} {l e : Expr} (ha : c.afterOperand = true)
    (h : (climb (n + 1) p l).Gives c e c') :
    (e = l ∧ c' = c ∧ Stops p c.inside c.rest) ∨
      (∃ t op d x m, c.Takes t d ∧ t.IsOp op ∧ p ≤ op.precedence ∧
        (expr n op.rightPrecedence).Gives d x m ∧ (climb n p (.binary op l x)).Gives m e c') ∨
      ∃ t d x m y k, c.Takes t d ∧ p ≤ Op.mul.precedence ∧ juxtaposes c.inside c.rest = true ∧
        (operandFrom (expr n) (primary n) t).Gives d x m ∧
        (climb n (Op.mul.precedence + 1) x).Gives m y k ∧
        (climb n p (.binary .mul l y)).Gives k e c' := by
  rw [climb, gives_bind_next] at h
  split at h
  · next hnil =>
    obtain ⟨-, rfl, rfl⟩ := gives_pure.1 h
    refine .inl ⟨rfl, rfl, ?_⟩
    rw [List.head?_eq_none_iff.1 hnil]
    trivial
  · next t ht =>
    obtain ⟨ts, hts⟩ := List.head?_eq_some_iff.1 ht
    split at h
    · next hk =>
      split at h
      · exact absurd h not_gives_fail
      · next op hop =>
        split at h
        · next hlt =>
          obtain ⟨-, rfl, rfl⟩ := gives_pure.1 h
          refine .inl ⟨rfl, rfl, ?_⟩
          rw [hts, stops_operator hk]
          exact ⟨op, hop, hlt⟩
        · next hle =>
          obtain ⟨u, d, hu, h⟩ := gives_past.1 h
          obtain ⟨rfl, -⟩ := List.cons.inj (hts.symm.trans hu.1)
          obtain ⟨x, m, hx, h⟩ := gives_bind.1 h
          exact .inr (.inl ⟨t, op, d, x, m, hu, ⟨hk, hop⟩, Nat.not_lt.1 hle, hx, h⟩)
    · next hk =>
      obtain ⟨_, h⟩ := gives_bind_get.1 h
      rw [juxtaposed_of_afterOperand ha] at h
      split at h
      · next hj =>
        obtain ⟨u, d, hu, h⟩ := gives_operandThen.1 h
        obtain ⟨rfl, -⟩ := List.cons.inj (hts.symm.trans hu.1)
        rcases h with ⟨hop, -⟩ | ⟨hop, -⟩ | ⟨-, x, m, hx, h⟩
        · exact absurd hop.1 hk
        · exact absurd hop.1 hk
        · obtain ⟨y, k, hy, h⟩ := gives_bind.1 h
          exact .inr (.inr ⟨t, d, x, m, y, k, hu, hj.1, hj.2, hx, hy, h⟩)
      · next hj =>
        obtain ⟨-, rfl, rfl⟩ := gives_pure.1 h
        refine .inl ⟨rfl, rfl, ?_⟩
        rw [hts, stops_of_ne_operator hk, ← hts]
        exact hj

section Step

variable (hE : ∀ p, (expr n p).Realizes (.expr p)) (hC : ∀ p l, (climb n p l).RealizesClimb p l)
  (hP : (primary n).Realizes .operand)

include hE hC hP in
theorem realizes_expr_succ (p : Nat) : (expr (n + 1) p).Realizes (.expr p) where
  sound {c₀ c c' e} hc h := by
    obtain ⟨t, d, ht, h⟩ := gives_operandThen.1 h
    rw [ht.1]
    have hd := hc.trans ht.reaches
    rcases h with ⟨hop, x, m, hx, h⟩ | ⟨hop, x, m, hx, h⟩ | ⟨hk, x, m, hx, h⟩
    · obtain ⟨hrx, hm⟩ := (hE _).sound hd hx
      obtain ⟨hre, hr⟩ := (hC _ _).sound hm ((hE _).afterOperand hx) h
      exact ⟨.minus hop hrx hre, hr⟩
    · obtain ⟨hrx, hm⟩ := (hE _).sound hd hx
      obtain ⟨hre, hr⟩ := (hC _ _).sound hm ((hE _).afterOperand hx) h
      exact ⟨.plus hop hrx hre, hr⟩
    · have hO := realizesAfter_operandFrom hE hP t
      obtain ⟨hrx, hdm⟩ := hO.sound hx
      obtain ⟨hre, hr⟩ := (hC _ _).sound (hd.trans hdm) (hO.afterOperand ht hx) h
      exact ⟨.unsigned (hd.inside_eq ▸ hrx) hre, hr⟩
  complete {c₀ c ts r e} hc hn hts h := by
    obtain ⟨t, s, rfl, -⟩ := h.head_expr
    obtain ⟨ht, hs, hn'⟩ := next_place hn hts
    have hd := hc.trans ht.reaches
    cases h with
    | minus hop hx he =>
      obtain ⟨m, hgx, hm, hcm⟩ := (hE _).complete hd hn' hs hx
      obtain ⟨c', hge, hr, hcc⟩ :=
        (hC _ _).complete hcm ((hE _).afterOperand hgx) hgx.length_lt' hm he
      exact ⟨c', gives_operandThen.2 ⟨t, _, ht, .inl ⟨hop, _, m, hgx, hge⟩⟩, hr, hcc⟩
    | plus hop hx he =>
      obtain ⟨m, hgx, hm, hcm⟩ := (hE _).complete hd hn' hs hx
      obtain ⟨c', hge, hr, hcc⟩ :=
        (hC _ _).complete hcm ((hE _).afterOperand hgx) hgx.length_lt' hm he
      exact ⟨c', gives_operandThen.2 ⟨t, _, ht, .inr (.inl ⟨hop, _, m, hgx, hge⟩)⟩, hr, hcc⟩
    | unsigned hx he =>
      have hO := realizesAfter_operandFrom hE hP t
      obtain ⟨m, hgx, hm, hcm⟩ := hO.complete hn' hs (hd.inside_eq ▸ hx)
      obtain ⟨c', hge, hr, hcc⟩ :=
        (hC _ _).complete (hd.trans hcm) (hO.afterOperand ht hgx) hgx.length_lt' hm he
      have hk : t.kind ≠ .operator := by
        obtain ⟨u, us, hu, hk⟩ := hx.startsOperand
        obtain ⟨rfl, -⟩ := List.cons.inj hu
        exact ne_operator_of_startsOperand hk
      exact ⟨c', gives_operandThen.2 ⟨t, _, ht, .inr (.inr ⟨hk, _, m, hgx, hge⟩)⟩, hr, hcc⟩

include hE hP in
theorem realizes_primary_succ : (primary (n + 1)).Realizes .operand where
  sound {c₀ c c' e} hc h := by
    obtain ⟨t, d, ht, h⟩ := gives_past.1 h
    have hd := hc.trans ht.reaches
    obtain ⟨hr, hdc⟩ := (realizesAfter_operandFrom hE hP t).sound h
    rw [ht.1]
    exact ⟨hd.inside_eq ▸ hr, hd.trans hdc⟩
  complete {c₀ c ts r e} hc hn hts h := by
    obtain ⟨t, s, rfl, -⟩ := h.startsOperand
    obtain ⟨ht, hs, hn'⟩ := next_place hn hts
    have hd := hc.trans ht.reaches
    obtain ⟨c', hg, hr, hcc⟩ :=
      (realizesAfter_operandFrom hE hP t).complete hn' hs (hd.inside_eq ▸ h)
    exact ⟨c', gives_past.2 ⟨t, _, ht, hg⟩, hr, hd.trans hcc⟩

/-- A factor is an operand without a sign and what binds more tightly than a product. -/
theorem reads_factor {p : Nat} {b : Bool} {ts r : List Token} {e : Expr}
    (hj : juxtaposes b ts = true) (h : Reads (.expr p) b ts e r) :
    ∃ x m, Reads .operand b ts x m ∧ Reads (.climb p x) b m e r := by
  cases h with
  | minus ht | plus ht => simp [juxtaposes, ht.1, TokenKind.startsOperand] at hj
  | unsigned hx he => exact ⟨_, _, hx, he⟩

include hE hC hP in
theorem realizesClimb_succ (p : Nat) (l : Expr) : (climb (n + 1) p l).RealizesClimb p l where
  sound {c₀ c c' e} hc ha h := by
    rcases gives_of_climb ha h with ⟨rfl, rfl, hs⟩ | ⟨t, op, d, x, m, ht, hop, hl, hx, h⟩ |
      ⟨t, d, x, m, y, k, ht, hl, hj, hx, hy, h⟩
    · exact ⟨.stop (hc.inside_eq ▸ hs), hc⟩
    · obtain ⟨hrx, hm⟩ := (hE _).sound (hc.trans ht.reaches) hx
      obtain ⟨hre, hr⟩ := (hC _ _).sound hm ((hE _).afterOperand hx) h
      rw [ht.1]
      exact ⟨.operator hop hl hrx hre, hr⟩
    · have hO := realizesAfter_operandFrom hE hP t
      have hd := hc.trans ht.reaches
      obtain ⟨hrx, hdm⟩ := hO.sound hx
      have ham := hO.afterOperand ht hx
      obtain ⟨hry, hk⟩ := (hC _ _).sound (hd.trans hdm) ham hy
      obtain ⟨hre, hr⟩ := (hC _ _).sound hk ((hC _ _).afterOperand ham hy) h
      rw [← ht.1, hd.inside_eq] at hrx
      exact ⟨.factor hl (hc.inside_eq ▸ hj) (.unsigned hrx hry) hre, hr⟩
  complete {c₀ c ts r e} hc ha hn hts h := by
    cases h with
    | stop hs =>
      rw [← hts, ← hc.inside_eq] at hs
      exact ⟨c, .climb_stop ha hn hs, hts, hc⟩
    | operator hop hl hx he =>
      obtain ⟨ht, hs, hn'⟩ := next_place hn hts
      obtain ⟨m, hgx, hm, hcm⟩ := (hE _).complete (hc.trans ht.reaches) hn' hs hx
      obtain ⟨c', hge, hr, hcc⟩ :=
        (hC _ _).complete hcm ((hE _).afterOperand hgx) hgx.length_lt' hm he
      exact ⟨c', .climb_operator ht hop hl hgx hge, hr, hcc⟩
    | factor hl hj hx he =>
      obtain ⟨x, m, hx, hy⟩ := reads_factor hj hx
      obtain ⟨t, s, rfl, hk⟩ := hx.startsOperand
      obtain ⟨ht, hs, hn'⟩ := next_place hn hts
      have hd := hc.trans ht.reaches
      have hO := realizesAfter_operandFrom hE hP t
      obtain ⟨m₁, hgx, hm₁, hcm₁⟩ := hO.complete hn' hs (hd.inside_eq ▸ hx)
      have ha₁ := hO.afterOperand ht hgx
      obtain ⟨m₂, hgy, hm₂, hcm₂⟩ := (hC _ _).complete (hd.trans hcm₁) ha₁ hgx.length_lt' hm₁ hy
      obtain ⟨c', hge, hr, hcc⟩ :=
        (hC _ _).complete hcm₂ ((hC _ _).afterOperand ha₁ hgy) hgy.length_lt' hm₂ he
      rw [← hts, ← hc.inside_eq] at hj
      have hg := Gives.climb_factor ha ht (ne_operator_of_startsOperand hk) hl hj hgx hgy hge
      exact ⟨c', hg, hr, hcc⟩

end Step

/-- **The parser reads by the rules.** -/
theorem realizes (n : Nat) : (∀ p, (expr n p).Realizes (.expr p)) ∧
    (∀ p l, (climb n p l).RealizesClimb p l) ∧ (primary n).Realizes .operand := by
  induction n with
  | zero =>
    exact ⟨fun p => ⟨fun _ h => absurd h.length_lt (by omega), fun _ h => absurd h (by omega)⟩,
      fun p l => ⟨fun _ _ h => absurd h.length_lt (by omega), fun _ _ h => absurd h (by omega)⟩,
      ⟨fun _ h => absurd h.length_lt (by omega), fun _ h => absurd h (by omega)⟩⟩
  | succ n ih =>
    obtain ⟨hE, hC, hP⟩ := ih
    exact ⟨realizes_expr_succ hE hC hP, realizesClimb_succ hE hC hP, realizes_primary_succ hE hP⟩

/-! ## Reading all of the tokens -/

/-- What a step comes to if no token may be left after it. -/
def outcome {n : Nat} {α : Type} : EStateM.Result ParseError (Below n) α → Except ParseError α
  | .ok a c =>
    match c.1.rest with
    | [] => .ok a
    | t :: _ => .error (.trailingInput t)
  | .error e _ => .error e

theorem finishing_run {α : Type} (p : Parser) (step : (n : Nat) → Parse n α) :
    Parser.finishing (p.run step) =
      outcome (step (p.cursor.rest.length + 1) ⟨p.cursor, Nat.lt_succ_self _⟩) := by
  unfold Parser.run
  cases step (p.cursor.rest.length + 1) ⟨p.cursor, Nat.lt_succ_self _⟩ with
  | error e c => rfl
  | ok a c =>
    unfold outcome
    cases h : c.1.rest with
    | nil => simp [Parser.finishing, Parser.finish, h, bind, Except.bind, pure, Except.pure]
    | cons t ts => simp [Parser.finishing, Parser.finish, h, bind, Except.bind]

theorem outcome_map {n : Nat} {α β : Type} (x : Parse n α) (f : α → β) (c : Below n) :
    outcome ((f <$> x) c) = (outcome (x c)).map f := by
  show outcome (EStateM.map f x c) = _
  unfold EStateM.map
  cases x c with
  | error e d => rfl
  | ok a d =>
    simp only [outcome]
    cases d.1.rest <;> rfl

end Parse

/-! ## Parsers -/

namespace Parser

open Parse

/-- What a step that has to take all tokens gives. -/
theorem finishing_run_eq_ok_iff {α : Type} {p : Parser} {step : (n : Nat) → Parse n α} {a : α} :
    finishing (p.run step) = .ok a ↔
      ∃ c', (step (p.cursor.rest.length + 1)).Gives p.cursor a c' ∧ c'.rest = [] := by
  unfold run finishing
  split
  · next b c hb =>
    have hg : (step (p.cursor.rest.length + 1)).Gives p.cursor b c.1 := ⟨_, c.2, hb⟩
    unfold finish
    constructor
    · intro h
      split at h
      · next hr =>
        cases h
        exact ⟨c.1, hg, hr⟩
      · cases h
    · rintro ⟨c', ⟨_, _, he⟩, hr⟩
      cases hb.symm.trans he
      simp only [hr]
      rfl
  · next e c hb =>
    constructor
    · intro h
      cases h
    · rintro ⟨c', ⟨_, _, he⟩, -⟩
      cases hb.symm.trans he

end Parser

open Parse in
/-- **All of a list of tokens is read** where it is parsed. -/
theorem parse_eq_ok_iff {line : String} {ts : List Token} {e : Expr} :
    parse line ts = .ok e ↔ Reads (.expr 0) false ts e [] := by
  have hE := (realizes (ts.length + 1)).1 0
  unfold parse Parser.expr
  rw [Parser.finishing_run_eq_ok_iff]
  constructor
  · rintro ⟨c', h, hr⟩
    exact hr ▸ (hE.sound (.refl _) h).1
  · intro h
    obtain ⟨c', hg, hr, -⟩ :=
      hE.complete (.refl (Cursor.start line.utf8ByteSize ts)) (Nat.lt_succ_self _) rfl h
    exact ⟨c', hg, hr⟩

/-! ## Statements -/

/-- An expression ends before an equality sign. -/
theorem Reads.eq_of_equal {p : Nat} {b : Bool} {name equal : Token} {ts r : List Token} {e : Expr}
    (h : Reads (.expr p) b (name :: equal :: ts) e r) (hn : name.kind = .identifier)
    (hq : equal.kind = .equal) : r = equal :: ts := by
  have hop : name.kind ≠ .operator := by
    rw [hn]
    decide
  have hno : ∀ κ : Bracket, name.kind ≠ κ.opening := by
    rw [hn]
    rintro (_ | _) <;> decide
  cases h with
  | minus ht | plus ht => exact absurd ht.1 hop
  | unsigned hx he =>
    cases hx with
    | name =>
      cases he with
      | stop => rfl
      | operator ht =>
        have hk := ht.1
        rw [hq] at hk
        cases hk
      | factor _ hj => simp [juxtaposes, hq, TokenKind.startsOperand] at hj
    | brackets hx =>
      cases hx with
      | bracketed ho => exact absurd ho (hno _)
    | number ht | constant ht | call ht | iteration ht | iterationScripts ht =>
      rw [hn] at ht
      cases ht
    | fraction ht | sqrt ht | integral ht | integralScripts ht | derivative ht | derivativeAt ht =>
      have hk := ht.1
      rw [hn] at hk
      cases hk

section

variable {line : String} {ts : List Token} {e : Expr}

open Parse

/-- What a step gives that reads an expression and makes a statement of it. -/
theorem finishing_map_expr {make : Expr → Statement} {p : Parser} {st : Statement} :
    Parser.finishing (p.run fun n => make <$> expr n 0) = .ok st ↔
      ∃ e, make e = st ∧ Reads (.expr 0) p.cursor.inside p.cursor.rest e [] := by
  have hE := (realizes (p.cursor.rest.length + 1)).1 0
  rw [Parser.finishing_run_eq_ok_iff]
  constructor
  · rintro ⟨c', h, hr⟩
    obtain ⟨e, he, hm⟩ := gives_map.1 h
    exact ⟨e, hm, hr ▸ (hE.sound (.refl _) he).1⟩
  · rintro ⟨e, hm, h⟩
    obtain ⟨c', hg, hr, -⟩ := hE.complete (.refl _) (Nat.lt_succ_self _) rfl h
    exact ⟨c', gives_map.2 ⟨e, hg, hm⟩, hr⟩

theorem parseStatement_of_equal {name equal : Token} (hn : name.kind = .identifier)
    (hq : equal.kind = .equal) {st : Statement} :
    parseStatement line (name :: equal :: ts) = .ok st ↔
      ∃ e, .assign name.text e = st ∧ Reads (.expr 0) false ts e [] := by
  have hE := (realizes (ts.length + 3)).1 0
  unfold parseStatement Parser.statement
  simp only [Parser.ofTokens]
  rw [if_pos ⟨hn, hq⟩, Parser.finishing_run_eq_ok_iff]
  constructor
  · rintro ⟨c', h, hr⟩
    obtain ⟨_, d, hd, h⟩ := gives_bind.1 h
    obtain ⟨e, d', he, h⟩ := gives_bind.1 h
    obtain ⟨-, rfl, rfl⟩ := gives_pure.1 h
    obtain rfl := gives_skip hd
    exact ⟨e, rfl, hr ▸ (hE.sound ⟨2, rfl⟩ he).1⟩
  · rintro ⟨e, rfl, h⟩
    have hs : (skip 2 : Parse (ts.length + 3) Unit).Gives _ () _ :=
      .skip (c := Cursor.start line.utf8ByteSize (name :: equal :: ts)) (Nat.lt_succ_self _) 2
    obtain ⟨c', hg, hr, -⟩ := hE.complete ⟨2, rfl⟩ hs.length_lt' rfl h
    exact ⟨c', hs.bind (hg.bind (.pure hg.length_lt' _)), hr⟩

theorem parseStatement_of_not_equal {st : Statement}
    (h : ∀ name equal s, ts = name :: equal :: s →
      ¬(name.kind = .identifier ∧ equal.kind = .equal)) :
    parseStatement line ts = .ok st ↔ ∃ e, .expr e = st ∧ Reads (.expr 0) false ts e [] := by
  have hs : parseStatement line ts =
      Parser.finishing ((Parser.ofTokens line ts).run fun n => .expr <$> expr n 0) := by
    unfold parseStatement Parser.statement
    simp only [Parser.ofTokens]
    split
    · next name equal s => rw [if_neg (h name equal s rfl)]
    · rfl
  rw [hs]
  exact finishing_map_expr

/-- A list of tokens is the statement `e` where all of it is read as `e`. -/
theorem parseStatement_eq_expr_iff :
    parseStatement line ts = .ok (.expr e) ↔ Reads (.expr 0) false ts e [] := by
  by_cases h : ∃ name equal s, ts = name :: equal :: s ∧ name.kind = .identifier ∧
    equal.kind = .equal
  · obtain ⟨name, equal, s, rfl, hn, hq⟩ := h
    rw [parseStatement_of_equal hn hq]
    constructor
    · rintro ⟨e', h, -⟩
      cases h
    · intro h
      exact absurd (h.eq_of_equal hn hq) (List.cons_ne_nil _ _).symm
  · rw [parseStatement_of_not_equal fun name equal s hs ha => h ⟨name, equal, s, hs, ha⟩]
    constructor
    · rintro ⟨e', h, hr⟩
      cases h
      exact hr
    · exact fun hr => ⟨e, rfl, hr⟩

/-- A list of tokens is an assignment where a name and an equality sign stand before an expression. -/
theorem parseStatement_eq_assign_iff {v : String} :
    parseStatement line ts = .ok (.assign v e) ↔ ∃ name equal s, ts = name :: equal :: s ∧
      name.kind = .identifier ∧ equal.kind = .equal ∧ name.text = v ∧
      Reads (.expr 0) false s e [] := by
  constructor
  · intro h
    by_cases ha : ∃ name equal s, ts = name :: equal :: s ∧ name.kind = .identifier ∧
      equal.kind = .equal
    · obtain ⟨name, equal, s, rfl, hn, hq⟩ := ha
      obtain ⟨e', he, hr⟩ := (parseStatement_of_equal hn hq).1 h
      cases he
      exact ⟨name, equal, s, rfl, hn, hq, rfl, hr⟩
    · obtain ⟨e', he, -⟩ := (parseStatement_of_not_equal fun name equal s hs hk =>
        ha ⟨name, equal, s, hs, hk⟩).1 h
      cases he
  · rintro ⟨name, equal, s, rfl, hn, hq, rfl, hr⟩
    exact (parseStatement_of_equal hn hq).2 ⟨e, rfl, hr⟩

end

end LatexCalc
