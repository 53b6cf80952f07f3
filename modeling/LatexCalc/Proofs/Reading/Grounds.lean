import LatexCalc.Proofs.Reading.Served
import Mathlib.Data.List.Basic

/-!
# Grounds for failure

A step of the parser accounts for what it does (`Parse.Accounts`): it takes tokens and does nothing else
to its place, its value is made of tokens that are there, and where it fails there is a ground for it
(`ParseError.HasGround`), a token or the end of all tokens. The steps that the parser is put together from
keep to this, and so does the parser (`Parse.accounts_expr`), whatever the tokens are.
-/

namespace LatexCalc

/-! ## Places that are reached -/

namespace Cursor

variable {c d : Cursor}

/-- Tokens that are not left are counted. -/
theorem Reaches.index_add (h : c.Reaches d) :
    d.index + d.rest.length = c.index + c.rest.length := by
  obtain ⟨k, rfl⟩ := h
  induction k generalizing c with
  | zero => rfl
  | succ k ih =>
    rw [Function.iterate_succ_apply, ih]
    unfold advance
    split
    · rfl
    · next t ts hts =>
      simp only [hts, List.length_cons]
      omega

theorem Reaches.suffix (h : c.Reaches d) : d.rest <:+ c.rest := by
  obtain ⟨k, rfl⟩ := h
  rw [rest_iterate_advance]
  exact List.drop_suffix k c.rest

theorem Reaches.index_le (h : c.Reaches d) : c.index ≤ d.index := by
  have hadd := h.index_add
  have hle := h.suffix.length_le
  omega

theorem Reaches.size_eq (h : c.Reaches d) : d.size = c.size := by
  obtain ⟨k, rfl⟩ := h
  induction k generalizing c with
  | zero => rfl
  | succ k ih => rw [Function.iterate_succ_apply, ih, size_advance]

end Cursor

/-! ## Steps -/

/-- There is a ground for the failure, which comes up at the place `d`: it is about one of the tokens
`ts`, or it is about the end and no token is left. That a token is no operator is said only of operators
without a meaning, and that it is no number only of numbers that cannot be read. -/
inductive ParseError.HasGround (ts : List Token) (d : Cursor) : ParseError → Prop
  | token {x : Expectation} {t : Token} (ht : t ∈ ts)
    (hop : x = .operator → t.kind = .operator ∧ Op.ofText? t.text = none)
    (hnumber : x = .number → t.kind = .number ∧ readFloat? t.text = none) :
    HasGround ts d (.unexpectedToken x t)
  | ending (x : Expectation) (hd : d.rest = []) : HasGround ts d (.unexpectedEnd x d.size)
  | mismatched (v : String) {t : Token} (ht : t ∈ ts) : HasGround ts d (.mismatchedVariable v t)

theorem ParseError.HasGround.surface {ts : List Token} {d : Cursor} {e : ParseError}
    (h : e.HasGround ts d) : e.HasGround ts d.surface := by
  cases h with
  | token ht hop hnumber => exact .token ht hop hnumber
  | ending x hd => exact .ending x hd
  | mismatched v ht => exact .mismatched v ht

namespace Parse

open Cursor

variable {n : Nat} {α β : Type} {ts : List Token} {V : α → Prop} {W : β → Prop} {c : Below n}

/-- What comes of a step from `c` on: a value that satisfies `V`, or a failure with a ground. -/
inductive Accounted (ts : List Token) (V : α → Prop) (c : Below n) :
    EStateM.Result ParseError (Below n) α → Prop
  | ok {a d} (hd : c.1.Reaches d.1) (ha : V a) : Accounted ts V c (.ok a d)
  | error {e d} (hd : c.1.Reaches d.1) (he : e.HasGround ts d.1) : Accounted ts V c (.error e d)

/-- From each place among the tokens `ts` on, the step takes tokens and does nothing else to the place.
Its value satisfies `V`, or there is a ground for its failure. -/
def Accounts (ts : List Token) (V : α → Prop) (x : Parse n α) : Prop :=
  ∀ c : Below n, c.1.rest ⊆ ts → Accounted ts V c (x c)

/-- The step accounts for what it does, and nothing is said of its value. -/
abbrev Grounded (ts : List Token) (x : Parse n α) : Prop :=
  x.Accounts ts fun _ => True

theorem Accounted.of_reaches {d : Below n} {r : EStateM.Result ParseError (Below n) α}
    (h : Accounted ts V d r) (hd : c.1.Reaches d.1) : Accounted ts V c r := by
  cases h with
  | ok he ha => exact .ok (hd.trans he) ha
  | error he hground => exact .error (hd.trans he) hground

theorem Accounted.bind {x : Parse n α} {f : α → Parse n β} (hx : Accounted ts V c (x c))
    (hf : ∀ a d, c.1.Reaches d.1 → V a → Accounted ts W d (f a d)) :
    Accounted ts W c ((x >>= f) c) := by
  show Accounted ts W c (EStateM.bind x f c)
  unfold EStateM.bind
  cases hr : x c with
  | ok a d =>
    rw [hr] at hx
    cases hx with
    | ok hd ha => exact (hf a d hd ha).of_reaches hd
  | error e d =>
    rw [hr] at hx
    cases hx with
    | error hd he => exact .error hd he

namespace Accounts

variable {x : Parse n α}

theorem pure {a : α} (h : V a) : (Pure.pure a : Parse n α).Accounts ts V :=
  fun c _ => .ok (.refl c.1) h

theorem throw {e : ParseError} (h : ∀ d : Cursor, e.HasGround ts d) :
    (throw e : Parse n α).Accounts ts V :=
  fun c _ => .error (.refl c.1) (h c.1)

theorem bind {f : α → Parse n β} (hx : x.Accounts ts V) (hf : ∀ a, V a → (f a).Accounts ts W) :
    (x >>= f).Accounts ts W :=
  fun c hc => (hx c hc).bind fun a d hd ha => hf a ha d fun _ ht => hc (hd.suffix.subset ht)

/-- A step of which the value does not matter, and one that goes on. -/
theorem seq {f : α → Parse n β} (hx : x.Accounts ts V) (hf : ∀ a, (f a).Accounts ts W) :
    (x >>= f).Accounts ts W :=
  hx.bind fun a _ => hf a

theorem map (hx : x.Accounts ts V) (f : α → β) : (f <$> x).Grounded ts := by
  rw [map_eq_pure_bind]
  exact hx.seq fun _ => pure trivial

/-! ### Steps at one token -/

theorem tokens : (Parse.tokens : Parse n _).Accounts ts fun us => us ⊆ ts :=
  fun c hc => .ok (.refl c.1) hc

theorem next : (next? : Parse n _).Accounts ts fun t => ∀ u ∈ t, u ∈ ts :=
  fun c hc => .ok (.refl c.1) fun _ hu => hc (List.mem_of_mem_head? hu)

theorem nextKind : (nextKind? : Parse n _).Grounded ts :=
  next.seq fun _ => pure trivial

theorem advance : (Parse.advance : Parse n _).Grounded ts :=
  fun _ _ => .ok ⟨1, rfl⟩ trivial

theorem skip (m : Nat) : (Parse.skip m : Parse n _).Grounded ts := by
  induction m with
  | zero => exact pure trivial
  | succ m ih => exact advance.seq fun _ => ih

theorem fail {e : Expectation} (he : e ≠ .operator ∧ e ≠ .number) :
    (Parse.fail e : Parse n α).Accounts ts V := by
  intro c hc
  have hground : (c.1.unexpected e c.1.rest.head?).HasGround ts c.1 := by
    cases hts : c.1.rest with
    | nil => exact .ending e hts
    | cons t us => exact .token (hc (hts ▸ List.mem_cons_self)) (absurd · he.1) (absurd · he.2)
  exact .error (.refl c.1) hground

theorem expectWith {e : Expectation} (he : e ≠ .operator ∧ e ≠ .number) (p : Token → Bool) :
    (Parse.expectWith e p : Parse n _).Accounts ts (· ∈ ts) := by
  refine next.bind fun t ht => ?_
  split
  · next u =>
    split
    · exact advance.seq fun _ => pure (ht u rfl)
    · exact fail he
  · exact fail he

theorem expect (kind : TokenKind) : (Parse.expect kind : Parse n _).Accounts ts (· ∈ ts) :=
  expectWith (by simp) _

theorem expectOp (op : Op) : (Parse.expectOp op : Parse n _).Accounts ts (· ∈ ts) :=
  expectWith (by simp) _

theorem expectName : (Parse.expectName : Parse n _).Accounts ts (· ∈ ts) :=
  expectWith (by simp) _

/-- What was entered is left again. -/
theorem inIntegrand (hx : x.Accounts ts V) : (Parse.inIntegrand x).Accounts ts V := by
  intro c hc
  have h := hx ⟨c.1.deepen, c.2⟩ hc
  cases hr : x ⟨c.1.deepen, c.2⟩ with
  | ok a d =>
    rw [hr] at h
    rw [inIntegrand_of_ok hr]
    cases h with
    | ok hd ha => exact .ok hd.of_deepen ha
  | error e d =>
    rw [hr] at h
    rw [inIntegrand_of_error hr]
    cases h with
    | error hd he => exact .error hd.of_deepen he.surface

theorem past {f : Token → Parse n α} (hf : ∀ t ∈ ts, (f t).Accounts ts V) (e : Expectation) :
    (Parse.past e f).Accounts ts V := by
  intro c hc
  cases hts : c.1.rest with
  | nil =>
    rw [past_of_nil hts]
    exact .error (.refl c.1) (.ending e hts)
  | cons t us =>
    obtain ⟨hb, h⟩ := past_of_cons (e := e) (f := f) hts
    have hreaches := (takes_advance hts).reaches
    have hafter := hf t (hc (hts ▸ List.mem_cons_self)) ⟨c.1.advance, hb⟩
      fun _ hu => hc (hreaches.suffix.subset hu)
    rw [h]
    cases hr : f t ⟨c.1.advance, hb⟩ with
    | ok a d =>
      rw [hr] at hafter
      cases hafter with
      | ok hd ha => exact .ok (hreaches.trans hd) ha
    | error e d =>
      rw [hr] at hafter
      cases hafter with
      | error hd hground => exact .error (hreaches.trans hd) hground

/-! ### Productions -/

variable {E : Nat → Parse n Expr} {P : Parse n Expr} (hE : ∀ p, (E p).Grounded ts)
  (hP : P.Grounded ts)

include hE

theorem upTo (close : TokenKind) : (Parse.upTo E close).Grounded ts :=
  (hE 0).seq fun _ => (expect close).seq fun _ => pure trivial

theorem group : (Parse.group E).Grounded ts :=
  (expect .braceOpen).seq fun _ => upTo hE .braceClose

theorem argument : (Parse.argument E).Grounded ts := by
  refine nextKind.seq fun kind => ?_
  split
  · exact advance.seq fun _ => upTo hE .braceClose
  · exact advance.seq fun _ => upTo hE .parenClose
  · exact fail (by simp)

theorem point (v : String) : (Parse.point E v).Grounded ts := by
  refine (expect .pipe).seq fun _ => (expect .underscore).seq fun _ =>
    (expect .braceOpen).seq fun _ => expectName.bind fun t ht => ?_
  have hrest : (do let _ ← Parse.expect .equal; Parse.upTo E .braceClose : Parse n _).Grounded ts :=
    (expect .equal).seq fun _ => upTo hE .braceClose
  have hthrow : (MonadExcept.throw (ParseError.mismatchedVariable v t) : Parse n PUnit).Grounded ts :=
    Accounts.throw fun _ => .mismatched v ht
  split
  · exact hthrow.seq fun _ => hrest
  · exact hrest

theorem derivative (v : String) : (Parse.derivative E v).Grounded ts := by
  refine nextKind.seq fun kind => ?_
  split
  · exact (point hE v).seq fun _ => (hE 0).seq fun _ => pure trivial
  · exact (hE 0).seq fun _ => pure trivial

theorem fraction : (Parse.fraction E).Grounded ts := by
  refine tokens.seq fun us => ?_
  split
  · exact (skip 6).seq fun _ => derivative hE _
  · exact (group hE).seq fun _ => (group hE).seq fun _ => pure trivial

include hP

theorem bounds : (Parse.bounds E P).Grounded ts := by
  refine nextKind.seq fun kind => ?_
  split
  · exact advance.seq fun _ => hP.seq fun _ => (expectOp .pow).seq fun _ => hP.seq fun _ => pure trivial
  · exact (group hE).seq fun _ => (group hE).seq fun _ => pure trivial

omit hE hP in
theorem differential : (Parse.differential : Parse n _).Grounded ts := by
  refine tokens.seq fun us => ?_
  split
  · split
    · exact advance.seq fun _ => pure trivial
    · exact fail (by simp)
  · exact fail (by simp)

theorem integral : (Parse.integral E P).Grounded ts :=
  (bounds hE hP).seq fun _ => (inIntegrand (hE 0)).seq fun _ => differential.seq fun _ => pure trivial

theorem range : (Parse.range E P).Grounded ts := by
  refine nextKind.seq fun kind => ?_
  split
  · exact advance.seq fun _ => (expect .braceOpen).seq fun _ => expectName.seq fun _ =>
      (expect .equal).seq fun _ => (upTo hE .braceClose).seq fun _ => (expectOp .pow).seq fun _ =>
        hP.seq fun _ => pure trivial
  · exact (expect .braceOpen).seq fun _ => expectName.seq fun _ => (expect .braceClose).seq fun _ =>
      (group hE).seq fun _ => (group hE).seq fun _ => pure trivial

theorem iteration (make : String → Expr → Expr → Expr → Expr) :
    (Parse.iteration E P make).Grounded ts :=
  (range hE hP).seq fun _ => (hE 0).seq fun _ => pure trivial

theorem command (name : String) : (Parse.command E P name).Grounded ts := by
  unfold Parse.command
  split
  · exact fraction hE
  · exact (group hE).map _
  · exact integral hE hP
  · exact iteration hE hP _
  · exact iteration hE hP _
  · exact pure trivial
  · exact pure trivial
  · exact (argument hE).map _

/-- A number that cannot be read is the only ground for missing one. -/
theorem operandFrom {t : Token} (ht : t ∈ ts) : (Parse.operandFrom E P t).Grounded ts := by
  unfold Parse.operandFrom
  split
  · next hk =>
    split
    · exact pure trivial
    · next hx => exact throw fun _ => .token ht (by simp) fun _ => ⟨hk, hx⟩
  · exact pure trivial
  · exact command hE hP _
  · exact upTo hE .parenClose
  · exact upTo hE .braceClose
  · exact throw fun _ => .token ht (by simp) (by simp)

theorem operandThen {K : Expr → Parse n Expr} (hK : ∀ e, (K e).Grounded ts) :
    (Parse.operandThen E P K).Grounded ts := by
  refine next.seq fun t => ?_
  split
  · split
    · split
      · exact past (fun _ _ => (hE _).seq fun _ => hK _) .expression
      · exact past (fun _ _ => (hE _).seq fun _ => hK _) .expression
      · exact fail (by simp)
    · exact past (fun t ht => (operandFrom hE hP ht).seq fun _ => hK _) .expression
  · exact fail (by simp)

end Accounts

/-! ### Expressions -/

/-- An expression that goes on with an operator without a meaning has a ground to fail. -/
theorem accounts_climb (hE : ∀ p, (expr n p).Grounded ts)
    (hC : ∀ p e, (climb n p e).Grounded ts)
    (hP : (primary n).Grounded ts) (p : Nat) (e : Expr) :
    (climb (n + 1) p e).Grounded ts := by
  intro c hc
  cases hts : c.1.rest with
  | nil =>
    rw [climb_of_nil p e hts]
    exact .ok (.refl c.1) trivial
  | cons t us =>
    by_cases hk : t.kind = .operator
    · cases hop : Op.ofText? t.text with
      | none =>
        have hfail : (fail .operator : Parse (n + 1) Expr) c =
            .error (.unexpectedToken .operator t) c := by
          show EStateM.Result.error (c.1.unexpected .operator c.1.rest.head?) c = _
          rw [hts]
          rfl
        rw [climb_of_unknown p e hts hk hop, hfail]
        exact .error (.refl c.1) (.token (hc (hts ▸ List.mem_cons_self)) (fun _ => ⟨hk, hop⟩) (by simp))
      | some op =>
        rw [climb_of_operator p e hts ⟨hk, hop⟩]
        split
        · exact .ok (.refl c.1) trivial
        · exact Accounts.past (fun _ _ => (hE _).seq fun _ => hC _ _) .expression c hc
    · rw [climb_of_operand p e hts hk]
      split
      · exact Accounts.operandThen hE hP (fun _ => (hC _ _).seq fun _ => hC _ _) c hc
      · exact .ok (.refl c.1) trivial

/-- **The parser accounts for what it does**, whatever the tokens are. -/
theorem accounts_expr (ts : List Token) (n : Nat) : (∀ p, (expr n p).Grounded ts) ∧
    (∀ p e, (climb n p e).Grounded ts) ∧
    (primary n).Grounded ts := by
  induction n with
  | zero =>
    exact ⟨fun _ c => c.elim_zero.elim, fun _ _ c => c.elim_zero.elim, fun c => c.elim_zero.elim⟩
  | succ n ih =>
    obtain ⟨hE, hC, hP⟩ := ih
    refine ⟨fun p => ?_, accounts_climb hE hC hP, ?_⟩
    · rw [expr]
      exact .operandThen hE hP (hC p)
    · rw [primary]
      exact .past (fun _ ht => .operandFrom hE hP ht) .expression

end Parse

end LatexCalc
