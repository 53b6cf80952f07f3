import LatexCalc.Proofs.Reading.Demands
import LatexCalc.Proofs.Reading.Moved
import LatexCalc.Proofs.Reading.Run

/-!
# The parser serves demands

A step of the parser serves a list of demands (`Parse.Serves`): where it succeeds, these demands are met
by the tokens that it takes, and where it fails, it fails at the token that they refuse. Expressions,
what follows an operand, and operands each serve the one demand that is named after them
(`serves_expr`).
-/

namespace LatexCalc

/-- The failure is about the place in a line of `size` bytes where the tokens `ts` are left. -/
inductive ParseError.At (size : Nat) : ParseError → List Token → Prop
  | token (x : Expectation) (t : Token) (ts : List Token) : At size (.unexpectedToken x t) (t :: ts)
  | ending (x : Expectation) : At size (.unexpectedEnd x size) []
  | trailing (t : Token) (ts : List Token) : At size (.trailingInput t) (t :: ts)
  | mismatched (v : String) (t : Token) (ts : List Token) :
    At size (.mismatchedVariable v t) (t :: ts)

theorem Cursor.at_unexpected (c : Cursor) (x : Expectation) :
    (c.unexpected x c.rest.head?).At c.size c.rest := by
  cases h : c.rest with
  | nil => exact .ending x
  | cons t ts => exact .token x t ts

theorem Cursor.size_advance (c : Cursor) : c.advance.size = c.size := by
  unfold Cursor.advance
  split <;> rfl

/-- A header that is there is taken as a whole. -/
theorem refusal_header {v : String} {ts : List Token} (h : derivativeVariable? ts = some v)
    (π : List Demand) : refusal? (Demand.header ++ π) ts = refusal? π (ts.drop 6) := by
  unfold derivativeVariable? at h
  split at h
  · next o d c o' x c' ts =>
    split at h
    · next hk =>
      obtain ⟨h₁, h₂, -, h₃, h₄, h₅, h₆⟩ := hk
      simp [Demand.header, refusal?, feed, Demand.more, Demand.Over, h₁, h₂, h₃, h₄, h₅, h₆]
    · cases h
  · cases h

namespace Parse

open Cursor

variable {n : Nat} {α β : Type} {b : Bool} {π π' : List Demand} {c : Below n}

/-- The place `d`, to which a step comes from `c`, is in as many integrands of the same line. -/
def Keeps (c d : Below n) : Prop :=
  d.1.integrands = c.1.integrands ∧ d.1.size = c.1.size

/-- What comes of a step from `c` on: the demands `π` are met, or the step fails where they refuse. -/
inductive Served (π : List Demand) (c : Below n) : EStateM.Result ParseError (Below n) α → Prop
  | ok {a d} (h : ∀ ρ, refusal? (π ++ ρ) c.1.rest = refusal? ρ d.1.rest) (hd : Keeps c d) :
    Served π c (.ok a d)
  | error {e d ts} (h : ∀ ρ, refusal? (π ++ ρ) c.1.rest = some ts) (he : e.At c.1.size ts) :
    Served π c (.error e d)

/-- The step meets the demands `π`, inside an integrand or outside, as `b` tells. -/
def Serves (b : Bool) (π : List Demand) (x : Parse n α) : Prop :=
  ∀ c : Below n, c.1.inside = b → Served π c (x c)

theorem Keeps.inside_eq {d : Below n} (h : Keeps c d) : d.1.inside = c.1.inside := by
  unfold Cursor.inside
  rw [h.1]

/-! ## Steps at a place -/

theorem bind_of_ok {x : Parse n α} {f : α → Parse n β} {a : α} {d : Below n} (h : x c = .ok a d) :
    (x >>= f) c = f a d := by
  show EStateM.bind x f c = f a d
  unfold EStateM.bind
  rw [h]

theorem bind_of_error {x : Parse n α} {f : α → Parse n β} {e : ParseError} {d : Below n}
    (h : x c = .error e d) : (x >>= f) c = .error e d := by
  show EStateM.bind x f c = .error e d
  unfold EStateM.bind
  rw [h]

theorem tokens_bind (f : List Token → Parse n β) : (tokens >>= f) c = f c.1.rest c := rfl

theorem next_bind (f : Option Token → Parse n β) : (next? >>= f) c = f c.1.rest.head? c := rfl

theorem nextKind_bind (f : Option TokenKind → Parse n β) :
    (nextKind? >>= f) c = f (c.1.rest.head?.map Token.kind) c := rfl

theorem expectWith_of_nil {p : Token → Bool} {x : Expectation} (hts : c.1.rest = []) :
    expectWith x p c = fail x c := by
  rw [expectWith, next_bind, hts]
  rfl

theorem expectWith_of_cons {p : Token → Bool} {x : Expectation} {t : Token} {ts : List Token}
    (hts : c.1.rest = t :: ts) :
    expectWith x p c = if p t then .ok t c.advance else fail x c := by
  rw [expectWith, next_bind, hts]
  simp only [List.head?_cons]
  split <;> rfl

theorem exists_of_head {k : TokenKind} {ts : List Token} (h : ts.head?.map Token.kind = some k) :
    ∃ t us, ts = t :: us ∧ t.kind = k := by
  cases ts with
  | nil => cases h
  | cons t us => exact ⟨t, us, rfl, Option.some.inj h⟩

/-! ## One step of climbing -/

section

variable {c : Below (n + 1)} {t : Token} {ts : List Token} (least : Nat) (e : Expr)

theorem climb_of_nil (hts : c.1.rest = []) : climb (n + 1) least e c = .ok e c := by
  rw [climb, next_bind, hts]
  rfl

/-- An operator without a meaning is a failure at every level. -/
theorem climb_of_unknown (hts : c.1.rest = t :: ts) (hk : t.kind = .operator)
    (hop : Op.ofText? t.text = none) :
    climb (n + 1) least e c = (fail .operator : Parse (n + 1) Expr) c := by
  rw [climb, next_bind, hts]
  simp only [List.head?_cons, if_pos hk, hop]

theorem climb_of_operator {op : Op} (hts : c.1.rest = t :: ts) (ht : t.IsOp op) :
    climb (n + 1) least e c =
      if op.precedence < least then .ok e c
      else past .expression (fun _ => expr n op.rightPrecedence >>= fun x =>
        climb n least (.binary op e x)) c := by
  rw [climb, next_bind, hts]
  simp only [List.head?_cons, if_pos ht.1, ht.2]
  split <;> rfl

theorem climb_of_operand (hts : c.1.rest = t :: ts) (hk : t.kind ≠ .operator) :
    climb (n + 1) least e c =
      if least ≤ Op.mul.precedence ∧ c.1.juxtaposed = true then
        operandThen (expr n) (primary n) (fun x => climb n (Op.mul.precedence + 1) x >>= fun y =>
          climb n least (.binary .mul e y)) c
      else .ok e c := by
  rw [climb, next_bind, hts]
  simp only [List.head?_cons, if_neg hk]
  show (if least ≤ Op.mul.precedence ∧ c.1.juxtaposed = true then _ else _ : Parse (n + 1) Expr) c = _
  split <;> rfl

end

namespace Served

/-- A step from `d` on meets what is left of the demands there. -/
theorem of_eq {d : Below n} {r : EStateM.Result ParseError (Below n) α}
    (h : ∀ ρ, refusal? (π ++ ρ) c.1.rest = refusal? (π' ++ ρ) d.1.rest) (hd : Keeps c d)
    (hr : Served π' d r) : Served π c r := by
  cases hr with
  | ok h' hd' =>
    exact .ok (fun ρ => (h ρ).trans (h' ρ)) ⟨hd'.1.trans hd.1, hd'.2.trans hd.2⟩
  | error h' he => exact .error (fun ρ => (h ρ).trans (h' ρ)) (hd.2 ▸ he)

theorem bind {x : Parse n α} {f : α → Parse n β} (hx : Served π c (x c))
    (hf : ∀ a d, x c = .ok a d → d.1.inside = c.1.inside → Served π' d (f a d)) :
    Served (π ++ π') c ((x >>= f) c) := by
  show Served (π ++ π') c (EStateM.bind x f c)
  unfold EStateM.bind
  cases hr : x c with
  | ok a d =>
    rw [hr] at hx
    cases hx with
    | ok h hd =>
      refine (hf a d hr hd.inside_eq).of_eq (fun ρ => ?_) hd
      rw [List.append_assoc, h]
  | error e d =>
    rw [hr] at hx
    cases hx with
    | error h he =>
      refine .error (fun ρ => ?_) he
      rw [List.append_assoc, h]

theorem pure {π : List Demand} (h : ∀ ρ, refusal? (π ++ ρ) c.1.rest = refusal? ρ c.1.rest) (a : α) :
    Served π c ((Pure.pure a : Parse n α) c) :=
  .ok h ⟨rfl, rfl⟩

theorem fail {σ : Demand} (ho : ¬σ.Over c.1.rest)
    (h : ∀ t ts, c.1.rest = t :: ts → σ.more t ts = none) (x : Expectation) :
    Served [σ] c ((fail x : Parse n α) c) :=
  .error (fun _ => refusal_of_none ho h) (c.1.at_unexpected x)

/-- A demand that the next token takes the place of, and a step after that token. -/
theorem advance {σ : Demand} {t : Token} {ts : List Token} {f : Unit → Parse n α}
    (hts : c.1.rest = t :: ts) (ho : ¬σ.Over (t :: ts)) (hσ : σ.more t ts = some π)
    (hf : ∀ d : Below n, d.1.rest = ts → d.1.inside = c.1.inside → Served π d (f () d)) :
    Served [σ] c ((Parse.advance >>= f) c) := by
  have hd : c.advance.1.rest = ts := by rw [Below.advance, rest_advance, hts]; rfl
  have hkeeps : Keeps c c.advance := ⟨c.1.integrands_advance, c.1.size_advance⟩
  refine (hf c.advance hd hkeeps.inside_eq).of_eq (fun ρ => ?_) hkeeps
  rw [hts, hd, List.singleton_append, refusal_taken (feed_of_more ho hσ)]

/-- A step after the next token, which is known to be there. -/
theorem past {t : Token} {ts : List Token} {x : Expectation} {f : Token → Parse n α}
    {c : Below (n + 1)} (hts : c.1.rest = t :: ts)
    (hπ : ∀ ρ, feed t ts (π ++ ρ) = some (π' ++ ρ))
    (hf : ∀ d : Below n, c.1.Takes t d.1 → d.1.inside = c.1.inside → Served π' d (f t d)) :
    Served π c (Parse.past x f c) := by
  obtain ⟨hn, h⟩ := past_of_cons (e := x) (f := f) hts
  have hd : c.1.advance.rest = ts := by rw [rest_advance, hts]; rfl
  have hin : c.1.advance.inside = c.1.inside := (takes_advance hts).reaches.inside_eq
  have hserved := hf ⟨c.1.advance, hn⟩ (takes_advance hts) hin
  rw [h]
  cases hr : f t ⟨c.1.advance, hn⟩ with
  | ok a d =>
    rw [hr] at hserved
    cases hserved with
    | ok h hk =>
      refine .ok (fun ρ => ?_) ⟨hk.1.trans c.1.integrands_advance, hk.2.trans c.1.size_advance⟩
      rw [hts, refusal_taken (hπ ρ), ← hd]
      exact h ρ
  | error e d =>
    rw [hr] at hserved
    cases hserved with
    | error h he =>
      refine .error (fun ρ => ?_) (c.1.size_advance ▸ he)
      rw [hts, refusal_taken (hπ ρ), ← hd]
      exact h ρ

end Served

namespace Serves

theorem pure (a : α) : (Pure.pure a : Parse n α).Serves b [] :=
  fun _ _ => .pure (fun _ => rfl) a

theorem bind {x : Parse n α} {f : α → Parse n β} (hx : x.Serves b π)
    (hf : ∀ a, (f a).Serves b π') : (x >>= f).Serves b (π ++ π') :=
  fun c hc => (hx c hc).bind fun a d _ hd => hf a d (hd.trans hc)

theorem map {x : Parse n α} (hx : x.Serves b π) (f : α → β) : (f <$> x).Serves b π := by
  rw [map_eq_pure_bind, ← List.append_nil π]
  exact hx.bind fun a => .pure (f a)

theorem bind_pure {x : Parse n α} (hx : x.Serves b π) (f : α → β) :
    (x >>= fun a => Pure.pure (f a)).Serves b π := by
  rw [← map_eq_pure_bind]
  exact hx.map f

theorem inIntegrand {x : Parse n α} (hx : x.Serves true π) : (inIntegrand x).Serves b π := by
  intro c _
  have h := hx ⟨c.1.deepen, c.2⟩ c.1.inside_deepen
  cases hr : x ⟨c.1.deepen, c.2⟩ with
  | ok a d =>
    rw [hr] at h
    rw [inIntegrand_of_ok hr]
    cases h with
    | ok h hd =>
      refine .ok h ⟨?_, hd.2⟩
      show d.1.integrands - 1 = c.1.integrands
      rw [hd.1]
      rfl
  | error e d =>
    rw [hr] at h
    rw [inIntegrand_of_error hr]
    cases h with
    | error h he => exact .error h he

/-! ### Steps at one token -/

/-- A token that has to satisfy `p` serves a demand that asks for the same. -/
theorem expectWith {σ : Demand} {p : Token → Bool} (ho : ∀ ts, ¬σ.Over ts)
    (hσ : ∀ t ts, σ.more t ts = if p t then some [] else none) (x : Expectation) :
    (expectWith x p : Parse n Token).Serves b [σ] := by
  intro c _
  cases hts : c.1.rest with
  | nil =>
    rw [expectWith_of_nil hts]
    exact .fail (ho _) (by simp [hts]) x
  | cons t ts =>
    rw [expectWith_of_cons hts]
    by_cases hp : p t = true
    · rw [if_pos hp]
      refine .ok (fun ρ => ?_) ⟨c.1.integrands_advance, c.1.size_advance⟩
      have hd : c.advance.1.rest = ts := by rw [Below.advance, rest_advance, hts]; rfl
      rw [hts, hd]
      exact refusal_taken (feed_of_more (ho _) ((hσ t ts).trans (if_pos hp)))
    · rw [if_neg hp]
      refine .fail (ho _) (fun u us hus => ?_) x
      obtain ⟨rfl, rfl⟩ := List.cons.inj (hts.symm.trans hus)
      exact (hσ t ts).trans (if_neg hp)

theorem expect (kind : TokenKind) : (expect kind : Parse n Token).Serves b [.token kind] :=
  expectWith (fun _ => id) (fun _ _ => by simp [Demand.more]) _

theorem expectName : (expectName : Parse n Token).Serves b [.token .identifier] :=
  expectWith (fun _ => id) (fun _ _ => by simp [Demand.more]) _

theorem expectPower : (expectOp .pow : Parse n Token).Serves b [.power] :=
  expectWith (fun _ => id) (fun _ _ => by simp [Demand.more]) _

theorem differential : (differential : Parse n String).Serves b [.differential] := by
  intro c _
  rw [Parse.differential, tokens_bind]
  have hrefused (h : startsDifferential c.1.rest = false) (t : Token) (ts : List Token)
      (hts : c.1.rest = t :: ts) : Demand.differential.more t ts = none := by
    rw [hts] at h
    simp [Demand.more, h]
  cases hv : c.1.rest.head?.bind Token.differential? with
  | none =>
    refine .fail id (hrefused ?_) _
    cases hts : c.1.rest with
    | nil => rfl
    | cons t ts =>
      rw [hts, List.head?_cons, Option.bind_some] at hv
      simp [startsDifferential, hv]
  | some v =>
    by_cases hs : startsDifferential c.1.rest = true
    · simp only [hs, if_true]
      obtain ⟨t, ts, hts⟩ : ∃ t ts, c.1.rest = t :: ts := by
        cases hts : c.1.rest with
        | nil => simp [hts] at hv
        | cons t ts => exact ⟨t, ts, rfl⟩
      rw [hts] at hs
      have hmore : Demand.differential.more t ts = some [] := by simp [Demand.more, hs]
      exact .advance hts id hmore fun d _ _ => .pure (fun _ => rfl) v
    · simp only [hs]
      exact .fail id (hrefused (Bool.eq_false_iff.2 hs)) _

/-! ### Productions -/

variable {E : Nat → Parse n Expr} {P : Parse n Expr} (hE : ∀ b p, (E p).Serves b [.expr p b])
  (hP : ∀ b, P.Serves b [.operand b])

include hE

theorem upTo (close : TokenKind) : (upTo E close).Serves b [.expr 0 b, .token close] :=
  (hE b 0).bind fun e => (expect close).bind_pure fun _ => e

theorem group : (group E).Serves b (Demand.group b) :=
  (expect .braceOpen).bind fun _ => upTo hE .braceClose

/-- What serves an expression serves a body. -/
theorem body : (E 0).Serves b [.body b] := by
  intro c hc
  refine (hE b 0 c hc).of_eq (fun ρ => ?_) ⟨rfl, rfl⟩
  cases c.1.rest with
  | nil => rfl
  | cons t ts => rfl

theorem argument : (argument E).Serves b [.argument b] := by
  intro c hc
  rw [Parse.argument, nextKind_bind]
  cases hts : c.1.rest with
  | nil => exact .fail id (by simp [hts]) .argument
  | cons t ts =>
    simp only [List.head?_cons, Option.map_some]
    cases hk : t.kind
    case braceOpen =>
      have hmore : (Demand.argument b).more t ts = some [.expr 0 b, .token .braceClose] := by
        simp [Demand.more, hk]
      exact .advance hts id hmore fun d _ hd => upTo hE .braceClose d (hd.trans hc)
    case parenOpen =>
      have hmore : (Demand.argument b).more t ts = some [.expr 0 b, .token .parenClose] := by
        simp [Demand.more, hk]
      exact .advance hts id hmore fun d _ hd => upTo hE .parenClose d (hd.trans hc)
    all_goals
      refine .fail id (fun u us hus => ?_) .argument
      obtain ⟨rfl, rfl⟩ := List.cons.inj (hts.symm.trans hus)
      simp [Demand.more, hk]

omit hE in
/-- The name `v`, and a step after it. -/
theorem named (v : String) {f : Parse n Expr} (hf : f.Serves b π) :
    (Parse.expectName >>= fun found =>
      if found.text ≠ v then (throw (.mismatchedVariable v found) : Parse n PUnit) >>= fun _ => f
      else f).Serves b (.named v :: π) := by
  intro c hc
  by_cases hname : ∃ t ts, c.1.rest = t :: ts ∧ t.kind = .identifier ∧ t.text ≠ v
  · obtain ⟨t, ts, hts, hk, hv⟩ := hname
    have hmore : (Demand.named v).more t ts = none := by simp [Demand.more, hv]
    have hrefused (ρ : List Demand) : refusal? (.named v :: π ++ ρ) c.1.rest = some (t :: ts) := by
      rw [hts]
      refine refusal_of_none id fun u us hus => ?_
      obtain ⟨rfl, rfl⟩ := List.cons.inj hus
      exact hmore
    have hfound : (Parse.expectName : Parse n Token) c = .ok t c.advance := by
      rw [Parse.expectName, expectWith_of_cons hts, if_pos (by simpa using hk)]
    rw [bind_of_ok hfound, if_pos hv]
    exact .error hrefused (.mismatched v t ts)
  · have hsame (ρ : List Demand) :
        refusal? (.named v :: π ++ ρ) c.1.rest = refusal? ([.token .identifier] ++ π ++ ρ) c.1.rest := by
      cases hts : c.1.rest with
      | nil => rfl
      | cons t ts =>
        have hmore : (Demand.named v).more t ts = (Demand.token .identifier).more t ts := by
          by_cases hk : t.kind = .identifier
          · have hv : t.text = v := by_contra fun hv => hname ⟨t, ts, hts, hk, hv⟩
            simp [Demand.more, hk, hv]
          · simp [Demand.more, hk]
        simp [refusal?, feed, hmore, Demand.Over]
    refine ((expectName c hc).bind fun found d hr hd => ?_).of_eq hsame ⟨rfl, rfl⟩
    obtain ⟨-, ht, hk⟩ := gives_expectName.1 ⟨c.2, d.2, hr⟩
    rw [if_neg fun hv => hname ⟨found, _, ht.1, hk, hv⟩]
    exact hf d (hd.trans hc)

theorem point (v : String) : (point E v).Serves b
    ([.token .pipe, .token .underscore, .token .braceOpen, .named v, .token .equal, .expr 0 b,
      .token .braceClose]) :=
  (expect .pipe).bind fun _ => (expect .underscore).bind fun _ => (expect .braceOpen).bind fun _ =>
    named v ((expect .equal).bind fun _ => upTo hE .braceClose)

/-- What is left of a derivative after its header. -/
theorem derivative (v : String) : (derivative E v).Serves b [.derivand v b] := by
  intro c hc
  rw [Parse.derivative, nextKind_bind]
  by_cases hk : c.1.rest.head?.map Token.kind = some .pipe
  · rw [if_pos hk]
    have hserved := (point hE v c hc).bind fun place d _ hd =>
      (body hE).bind_pure (fun f => Expr.derivativeAt v place f) d (hd.trans hc)
    refine hserved.of_eq (fun ρ => ?_) ⟨rfl, rfl⟩
    obtain ⟨t, ts, hts, hk⟩ := exists_of_head hk
    simp [hts, refusal?, feed, Demand.more, Demand.Over, hk]
  · rw [if_neg hk]
    refine ((body hE).bind_pure (fun f => Expr.derivative v f) c hc).of_eq (fun ρ => ?_) ⟨rfl, rfl⟩
    cases hts : c.1.rest with
    | nil => rfl
    | cons t ts =>
      have hpipe : t.kind ≠ .pipe := by simpa [hts] using hk
      simp [refusal?, feed, Demand.more, Demand.Over, hpipe]

/-- A fraction or a derivative, as what follows tells. -/
theorem fraction (hc : c.1.inside = b) :
    Served (Demand.ofFraction b c.1.rest) c (fraction E c) := by
  unfold Demand.ofFraction
  rw [Parse.fraction, tokens_bind]
  cases hv : derivativeVariable? c.1.rest with
  | none =>
    exact (group hE).bind (fun x => (group hE).bind_pure fun y => Expr.fraction x y) c hc
  | some v =>
    let d := c.advance.advance.advance.advance.advance.advance
    have hr : c.1.Reaches d.1 := ⟨6, rfl⟩
    refine (derivative hE v d (hr.inside_eq.trans hc)).of_eq (fun ρ => ?_)
      ⟨hr.integrands_eq, by simp [d, Below.advance, Cursor.size_advance]⟩
    have hd : d.1.rest = c.1.rest.drop 6 := rest_iterate_advance 6 c.1
    rw [hd, List.append_assoc, refusal_header hv]

include hP

theorem bounds : (bounds E P).Serves b [.bounds b] := by
  intro c hc
  rw [Parse.bounds, nextKind_bind]
  by_cases hk : c.1.rest.head?.map Token.kind = some .underscore
  · obtain ⟨t, ts, hts, hk'⟩ := exists_of_head hk
    have hmore : (Demand.bounds b).more t ts = some [.operand b, .power, .operand b] := by
      simp [Demand.more, hk']
    rw [if_pos hk]
    refine .advance hts id hmore fun d _ hd => ?_
    exact (hP b).bind (fun x => expectPower.bind fun _ => (hP b).bind_pure fun y => (x, y)) d
      (hd.trans hc)
  · rw [if_neg hk]
    refine ((group hE).bind (fun x => (group hE).bind_pure fun y => (x, y)) c hc).of_eq (fun ρ => ?_)
      ⟨rfl, rfl⟩
    cases hts : c.1.rest with
    | nil => rfl
    | cons t ts =>
      rw [hts] at hk
      cases hk' : t.kind <;>
        simp_all [refusal?, feed, Demand.more, Demand.Over, Demand.group]

theorem integral : (integral E P).Serves b [.bounds b, .body true, .differential] :=
  (bounds hE hP).bind fun xy => (inIntegrand (body hE)).bind fun f =>
    differential.bind_pure fun v => Expr.integral v xy.1 xy.2 f

theorem range : (range E P).Serves b [.range b] := by
  intro c hc
  rw [Parse.range, nextKind_bind]
  by_cases hk : c.1.rest.head?.map Token.kind = some .underscore
  · obtain ⟨t, ts, hts, hk'⟩ := exists_of_head hk
    have hmore : (Demand.range b).more t ts = some [.token .braceOpen, .token .identifier,
        .token .equal, .expr 0 b, .token .braceClose, .power, .operand b] := by
      simp [Demand.more, hk']
    rw [if_pos hk]
    refine .advance hts id hmore fun d _ hd => ?_
    exact (expect .braceOpen).bind (fun _ => expectName.bind fun v => (expect .equal).bind fun _ =>
      (upTo hE .braceClose).bind fun x => expectPower.bind fun _ =>
        (hP b).bind_pure fun y => (v.text, x, y)) d (hd.trans hc)
  · rw [if_neg hk]
    have hserved := (expect .braceOpen).bind (fun _ => expectName.bind fun v =>
      (expect .braceClose).bind fun _ => (group hE).bind fun x =>
        (group hE).bind_pure fun y => (v.text, x, y)) c hc
    refine hserved.of_eq (fun ρ => ?_) ⟨rfl, rfl⟩
    cases hts : c.1.rest with
    | nil => rfl
    | cons t ts =>
      rw [hts] at hk
      cases hk' : t.kind <;>
        simp_all [refusal?, feed, Demand.more, Demand.Over, Demand.group]

theorem iteration (make : String → Expr → Expr → Expr → Expr) :
    (iteration E P make).Serves b [.range b, .body b] :=
  (range hE hP).bind fun r => (body hE).bind_pure fun f => make r.1 r.2.1 r.2.2 f

theorem command (name : String) (hc : c.1.inside = b) :
    Served (Demand.ofCommand b name c.1.rest) c (command E P name c) := by
  unfold Parse.command
  split
  · exact fraction hE hc
  · exact (group hE).map Expr.sqrt c hc
  · exact integral hE hP c hc
  · exact iteration hE hP .sum c hc
  · exact iteration hE hP .product c hc
  · exact pure (Expr.number circleConstant) c hc
  · exact pure (Expr.number naturalBase) c hc
  · unfold Demand.ofCommand
    split
    case h_8 => exact (argument hE).map (Expr.call name) c hc
    all_goals contradiction

end Serves

/-! ## Operands -/

/-- What comes of a step after the token `t`: demands are met, or `t` itself is refused. -/
def ServedAfter (t : Token) (π : Option (List Demand)) (c : Below n)
    (r : EStateM.Result ParseError (Below n) α) : Prop :=
  match π with
  | some π => Served π c r
  | none => ∃ e d, r = .error e d ∧ e.At c.1.size (t :: c.1.rest)

theorem ServedAfter.bind {t : Token} {o : Option (List Demand)} {x : Parse n α} {f : α → Parse n β}
    (hx : ServedAfter t o c (x c))
    (hf : ∀ a d, x c = .ok a d → d.1.inside = c.1.inside → Served π' d (f a d)) :
    ServedAfter t (o.map (· ++ π')) c ((x >>= f) c) := by
  cases o with
  | some π => exact Served.bind hx hf
  | none =>
    obtain ⟨e, d, hr, he⟩ := hx
    refine ⟨e, d, ?_, he⟩
    show EStateM.bind x f c = _
    unfold EStateM.bind
    rw [hr]

/-- A step after the next token, which puts its demands in the place of the first one or is refused. -/
theorem Served.past_after {σ : Demand} {t : Token} {ts : List Token} {x : Expectation}
    {f : Token → Parse n α} {c : Below (n + 1)} (hts : c.1.rest = t :: ts) (ho : ¬σ.Over (t :: ts))
    (hf : ∀ d : Below n, c.1.Takes t d.1 → d.1.inside = c.1.inside →
      ServedAfter t (σ.more t ts) d (f t d)) :
    Served [σ] c (Parse.past x f c) := by
  cases hσ : σ.more t ts with
  | some π =>
    refine .past hts (fun ρ => feed_of_more ho hσ) fun d ht hd => ?_
    have h := hf d ht hd
    rwa [hσ] at h
  | none =>
    obtain ⟨hn, h⟩ := past_of_cons (e := x) (f := f) hts
    have hserved := hf ⟨c.1.advance, hn⟩ (takes_advance hts) (takes_advance hts).reaches.inside_eq
    rw [hσ] at hserved
    obtain ⟨e, d, hr, he⟩ := hserved
    rw [h, hr]
    have hrefused (ρ : List Demand) : refusal? ([σ] ++ ρ) c.1.rest = some (t :: ts) := by
      rw [hts]
      refine refusal_of_none ho fun u us hus => ?_
      obtain ⟨rfl, rfl⟩ := List.cons.inj hus
      exact hσ
    exact .error hrefused (by simpa [Cursor.size_advance, rest_advance, hts] using he)

section

variable {E : Nat → Parse n Expr} {P : Parse n Expr} (hE : ∀ b p, (E p).Serves b [.expr p b])
  (hP : ∀ b, P.Serves b [.operand b])

include hE hP

theorem servedAfter_operandFrom (t : Token) (hc : c.1.inside = b) :
    ServedAfter t (Demand.ofOperand b t c.1.rest) c (operandFrom E P t c) := by
  unfold operandFrom Demand.ofOperand
  cases t.kind with
  | number =>
    simp only
    cases hx : readFloat? t.text with
    | none => exact ⟨_, _, rfl, .token _ _ _⟩
    | some x => exact Serves.pure (Expr.number x) c hc
  | identifier => exact Serves.pure (Expr.ident t.text) c hc
  | function => exact Serves.command hE hP t.command hc
  | parenOpen => exact Serves.upTo hE .parenClose c hc
  | braceOpen => exact Serves.upTo hE .braceClose c hc
  | _ => exact ⟨_, _, rfl, .token _ _ _⟩

/-- An operand that may have a sign, and what follows it: the demands `π'`. -/
theorem served_operandThen (hRE : ∀ p, (E p).Realizes (.expr p)) (hRP : P.Realizes .operand)
    {K : Expr → Parse n Expr} {σ : Demand} {c : Below (n + 1)} (hc : c.1.inside = b)
    (hK : ∀ e (d : Below n), d.1.inside = b → d.1.afterOperand = true → Served π' d (K e d))
    (ho : ¬σ.Over c.1.rest)
    (hσ : ∀ t ts, c.1.rest = t :: ts → σ.more t ts =
      if t.kind = .operator then
        match Op.ofText? t.text with
        | some .sub | some .add => some ([.expr Op.mul.precedence b] ++ π')
        | _ => none
      else (Demand.ofOperand b t ts).map (· ++ π')) :
    Served [σ] c (operandThen E P K c) := by
  rw [operandThen, next_bind]
  cases hts : c.1.rest with
  | nil => exact .fail ho (by simp [hts]) .expression
  | cons t ts =>
    have hmore := hσ t ts hts
    rw [hts] at ho
    simp only [List.head?_cons]
    by_cases hk : t.kind = .operator
    · rw [if_pos hk] at hmore ⊢
      have hsigned (make : Expr → Expr) (d : Below n) (hd : d.1.inside = c.1.inside) :
          Served ([.expr Op.mul.precedence b] ++ π') d
            ((E Op.mul.precedence >>= fun e => K (make e)) d) :=
        (hE b _ d (hd.trans hc)).bind fun e m hr hm =>
          hK _ m (hm.trans (hd.trans hc)) ((hRE _).afterOperand ⟨d.2, m.2, hr⟩)
      have hfail (hnone : σ.more t ts = none) : Served [σ] c ((fail .expression : Parse (n + 1) Expr) c) := by
        refine .fail (hts ▸ ho) (fun u us hus => ?_) .expression
        obtain ⟨rfl, rfl⟩ := List.cons.inj (hts.symm.trans hus)
        exact hnone
      cases hop : Op.ofText? t.text with
      | none => exact hfail (by rw [hmore, hop])
      | some op =>
        rw [hop] at hmore
        cases op with
        | sub => exact .past hts (fun ρ => feed_of_more ho hmore) fun d _ hd => hsigned _ d hd
        | add => exact .past hts (fun ρ => feed_of_more ho hmore) fun d _ hd => hsigned id d hd
        | _ => exact hfail hmore
    · rw [if_neg hk] at hmore ⊢
      refine .past_after hts ho fun d ht hd => ?_
      obtain rfl : ts = d.1.rest := (List.cons.inj (hts.symm.trans ht.1)).2
      rw [hmore]
      refine (servedAfter_operandFrom hE hP t (hd.trans hc)).bind fun e m hr hm => ?_
      have hO := realizesAfter_operandFrom hRE hRP t
      exact hK e m (hm.trans (hd.trans hc)) (hO.afterOperand ht ⟨d.2, m.2, hr⟩)

end

/-! ## Expressions -/

/-- An expression that goes on after an operand. -/
theorem served_climb {p : Nat} {c : Below (n + 1)} (hE : ∀ b p, (expr n p).Serves b [.expr p b])
    (hP : ∀ b, (primary n).Serves b [.operand b]) (hRE : ∀ p, (expr n p).Realizes (.expr p))
    (hRC : ∀ p l, (climb n p l).RealizesClimb p l) (hRP : (primary n).Realizes .operand)
    (hC : ∀ b p e (d : Below n), d.1.inside = b → d.1.afterOperand = true →
      Served [.rest p b] d (climb n p e d))
    (hc : c.1.inside = b) (ha : c.1.afterOperand = true) (hs : ¬Stops p b c.1.rest) (e : Expr) :
    Served [.rest p b] c (climb (n + 1) p e c) := by
  cases hts : c.1.rest with
  | nil => exact absurd (hts ▸ trivial) hs
  | cons t ts =>
    rw [hts] at hs
    by_cases hk : t.kind = .operator
    · cases hop : Op.ofText? t.text with
      | none =>
        rw [climb_of_unknown p e hts hk hop]
        refine .fail (hts ▸ hs) (fun u us hus => ?_) .operator
        obtain ⟨rfl, rfl⟩ := List.cons.inj (hts.symm.trans hus)
        simp [Demand.more, Demand.ofRest, hk, hop]
      | some op =>
        have hle : ¬op.precedence < p := fun hlt => hs ((stops_operator hk).2 ⟨op, hop, hlt⟩)
        have hmore : (Demand.rest p b).more t ts =
            some ([.expr op.rightPrecedence b] ++ [.rest p b]) := by
          simp [Demand.more, Demand.ofRest, hk, hop]
        rw [climb_of_operator p e hts ⟨hk, hop⟩, if_neg hle]
        refine .past hts (fun ρ => feed_of_more hs hmore) fun d _ hd => ?_
        exact (hE b _ d (hd.trans hc)).bind fun x m hr hm =>
          hC b p _ m (hm.trans (hd.trans hc)) ((hRE _).afterOperand ⟨d.2, m.2, hr⟩)
    · have hj := not_not.1 (mt (stops_of_ne_operator hk).2 hs)
      rw [← hts, ← hc, ← juxtaposed_of_afterOperand ha] at hj
      rw [climb_of_operand p e hts hk, if_pos hj]
      have hK (x : Expr) (d : Below n) (hd : d.1.inside = b) (hda : d.1.afterOperand = true) :
          Served ([.rest (Op.mul.precedence + 1) b] ++ [.rest p b]) d
            ((climb n (Op.mul.precedence + 1) x >>= fun y => climb n p (.binary .mul e y)) d) :=
        (hC b _ x d hd hda).bind fun y m hr hm =>
          hC b p _ m (hm.trans hd) ((hRC _ x).afterOperand hda ⟨d.2, m.2, hr⟩)
      refine served_operandThen hE hP hRE hRP hc hK (hts ▸ hs) fun u us hus => ?_
      obtain ⟨rfl, rfl⟩ := List.cons.inj (hts.symm.trans hus)
      rw [if_neg hk]
      simp [Demand.more, Demand.ofRest, hk]

/-- **The parser serves the demands that its steps are named after.** -/
theorem serves_expr (n : Nat) :
    (∀ b p, (expr n p).Serves b [.expr p b]) ∧
    (∀ b p e (c : Below n), c.1.inside = b → c.1.afterOperand = true →
      Served [.rest p b] c (climb n p e c)) ∧
    ∀ b, (primary n).Serves b [.operand b] := by
  induction n with
  | zero =>
    exact ⟨fun _ _ c _ => c.elim_zero.elim, fun _ _ _ c _ _ => c.elim_zero.elim,
      fun _ c _ => c.elim_zero.elim⟩
  | succ n ih =>
    obtain ⟨hE, hC, hP⟩ := ih
    obtain ⟨hRE, hRC, hRP⟩ := realizes n
    refine ⟨fun b p c hc => ?_, fun b p e c hc ha => ?_, fun b c hc => ?_⟩
    · rw [expr]
      exact served_operandThen hE hP hRE hRP hc (fun e d => hC b p e d) id fun t ts _ => rfl
    · by_cases hs : Stops p b c.1.rest
      · obtain ⟨_, _, hr⟩ := Gives.climb_stop (l := e) ha c.2 (hc ▸ hs)
        rw [show climb (n + 1) p e c = _ from hr]
        exact .ok (fun ρ => refusal_over hs) ⟨rfl, rfl⟩
      · exact served_climb hE hP hRE hRC hRP hC hc ha hs e
    · rw [primary]
      cases hts : c.1.rest with
      | nil =>
        rw [past_of_nil hts]
        have hat := c.1.at_unexpected .expression
        rw [hts] at hat
        refine .error (fun ρ => ?_) hat
        rw [hts]
        exact refusal_of_none id fun t us h => by cases h
      | cons t ts =>
        refine .past_after hts id fun d ht hd => ?_
        obtain rfl : ts = d.1.rest := (List.cons.inj (hts.symm.trans ht.1)).2
        exact servedAfter_operandFrom hE hP t (hd.trans hc)

end Parse

open Parse in
/-- **Parsing fails where tokens are refused**, and succeeds where none is and nothing is missing. -/
theorem parse_refusal (line : String) (ts : List Token) :
    match parse line ts with
    | .ok _ => refusal? [.expr 0 false] ts = none
    | .error e => ∃ us, refusal? [.expr 0 false] ts = some us ∧ e.At line.utf8ByteSize us := by
  let start : Below (ts.length + 1) := ⟨Cursor.start line.utf8ByteSize ts, Nat.lt_succ_self _⟩
  have hserved := (serves_expr (ts.length + 1)).1 false 0 start rfl
  have hparse : parse line ts = outcome (expr (ts.length + 1) 0 start) := finishing_run _ _
  rw [hparse]
  cases hr : expr (ts.length + 1) 0 start with
  | error e d =>
    rw [hr] at hserved
    cases hserved with
    | error h he => exact ⟨_, h [], he⟩
  | ok a d =>
    rw [hr] at hserved
    cases hserved with
    | ok h hd =>
      have hrefusal : refusal? [.expr 0 false] ts = refusal? [] d.1.rest := h []
      cases hts : d.1.rest with
      | nil =>
        rw [hts] at hrefusal
        simpa [outcome, hts, refusal?] using hrefusal
      | cons t us =>
        rw [hts] at hrefusal
        simp only [outcome, hts]
        exact ⟨t :: us, hrefusal, .trailing t us⟩

end LatexCalc
