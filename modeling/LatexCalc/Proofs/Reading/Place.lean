import LatexCalc.Expr.Parser
import Mathlib.Logic.Function.Iterate

/-!
# Places that a step reaches

Every step of the parser that succeeds takes tokens one after the other, so the place where it ends
is the place where it began, advanced some number of times (`Cursor.Reaches`). Such a place is known
from the tokens left there (`Reaches.eq_of_rest`): it is in the same number of integrands, and the
token before it is the last one taken (`Reaches.previous_eq`).

`Parse.Gives` says that a step succeeds between two places. The lemmas on it turn a step that is put
together from others into the places between them.
-/

namespace LatexCalc

namespace Cursor

/-- Whether a place is inside an integrand. -/
def inside (c : Cursor) : Bool :=
  decide (0 < c.integrands)

/-- Whether the token before a place may end an operand. -/
def afterOperand (c : Cursor) : Bool :=
  c.previous.any TokenKind.endsOperand

/-- The next token is `t`, and `c'` is the place after it. -/
def Takes (c : Cursor) (t : Token) (c' : Cursor) : Prop :=
  c.rest = t :: c'.rest ∧ c' = c.advance

theorem takes_advance {c : Cursor} {t : Token} {ts : List Token} (h : c.rest = t :: ts) :
    c.Takes t c.advance := by
  simp [Takes, h]

/-- Tokens taken one after the other lead from `c` to `c'`. -/
def Reaches (c c' : Cursor) : Prop :=
  ∃ k, advance^[k] c = c'

namespace Reaches

theorem refl (c : Cursor) : c.Reaches c := ⟨0, rfl⟩

theorem trans {c₁ c₂ c₃ : Cursor} (h₁ : c₁.Reaches c₂) (h₂ : c₂.Reaches c₃) : c₁.Reaches c₃ := by
  obtain ⟨k, rfl⟩ := h₁
  obtain ⟨l, rfl⟩ := h₂
  exact ⟨l + k, Function.iterate_add_apply _ l k c₁⟩

end Reaches

theorem Takes.reaches {c c' : Cursor} {t : Token} (h : c.Takes t c') : c.Reaches c' :=
  ⟨1, h.2.symm⟩

@[simp] theorem integrands_advance (c : Cursor) : c.advance.integrands = c.integrands := by
  unfold advance
  split <;> rfl

theorem previous_advance {c : Cursor} {t : Token} {ts : List Token} (h : c.rest = t :: ts) :
    c.advance.previous = some t.kind := by
  simp [advance, h]

theorem rest_iterate_advance (k : Nat) (c : Cursor) : (advance^[k] c).rest = c.rest.drop k := by
  induction k generalizing c with
  | zero => rfl
  | succ k ih => rw [Function.iterate_succ_apply, ih, rest_advance, List.drop_tail]

theorem Reaches.integrands_eq {c c' : Cursor} (h : c.Reaches c') :
    c'.integrands = c.integrands := by
  obtain ⟨k, rfl⟩ := h
  induction k generalizing c with
  | zero => rfl
  | succ k ih => rw [Function.iterate_succ_apply, ih, integrands_advance]

theorem Reaches.inside_eq {c c' : Cursor} (h : c.Reaches c') : c'.inside = c.inside := by
  rw [inside, inside, h.integrands_eq]

/-- A place further on is reached as soon as its tokens are the last ones. -/
theorem exists_reaches {c : Cursor} {u r : List Token} (h : c.rest = u ++ r) :
    ∃ c', c.Reaches c' ∧ c'.rest = r :=
  ⟨_, ⟨u.length, rfl⟩, by rw [rest_iterate_advance, h, List.drop_left]⟩

theorem iterate_advance_of_nil {c : Cursor} (h : c.rest = []) (k : Nat) : advance^[k] c = c :=
  Function.iterate_fixed (advance_of_nil h) k

/-- Advancing beyond the last token changes nothing. -/
theorem iterate_advance_min (k : Nat) (c : Cursor) :
    advance^[min k c.rest.length] c = advance^[k] c := by
  rcases Nat.le_total k c.rest.length with h | h
  · rw [Nat.min_eq_left h]
  · obtain ⟨l, rfl⟩ := Nat.exists_eq_add_of_le' h
    have hend : (advance^[c.rest.length] c).rest = [] := by simp [rest_iterate_advance]
    rw [Nat.min_eq_right h, Function.iterate_add_apply, iterate_advance_of_nil hend]

/-- Of the places that are reached, each is known from its tokens. -/
theorem Reaches.eq_of_rest {c c₁ c₂ : Cursor} (h₁ : c.Reaches c₁) (h₂ : c.Reaches c₂)
    (h : c₁.rest = c₂.rest) : c₁ = c₂ := by
  obtain ⟨k, rfl⟩ := h₁
  obtain ⟨l, rfl⟩ := h₂
  have hlen := congrArg List.length h
  rw [rest_iterate_advance, rest_iterate_advance, List.length_drop, List.length_drop] at hlen
  rw [← iterate_advance_min k, ← iterate_advance_min l,
    show min k c.rest.length = min l c.rest.length by omega]

/-- The token before a place that is reached is the last one taken. -/
theorem Reaches.previous_eq {c c' : Cursor} {u : List Token} {t : Token} (h : c.Reaches c')
    (hr : c.rest = u ++ t :: c'.rest) : c'.previous = some t.kind := by
  obtain ⟨d, hd, hdr⟩ := exists_reaches hr
  have hdc : d.advance = c' :=
    (hd.trans (takes_advance hdr).reaches).eq_of_rest h (by rw [rest_advance, hdr]; rfl)
  rw [← hdc, previous_advance hdr]

/-! ## Integrands -/

/-- The same place inside one integrand more. -/
def deepen (c : Cursor) : Cursor :=
  { c with integrands := c.integrands + 1 }

/-- The same place inside one integrand less. -/
def surface (c : Cursor) : Cursor :=
  { c with integrands := c.integrands - 1 }

@[simp] theorem inside_deepen (c : Cursor) : c.deepen.inside = true := by
  simp [inside, deepen]

theorem advance_deepen (c : Cursor) : c.deepen.advance = c.advance.deepen := by
  unfold advance deepen
  split <;> simp_all

theorem surface_deepen (c : Cursor) : c.deepen.surface = c := rfl

/-- What is reached inside an integrand is reached outside it as well. -/
theorem Reaches.of_deepen {c d : Cursor} (h : c.deepen.Reaches d) : c.Reaches d.surface := by
  obtain ⟨k, rfl⟩ := h
  have hs : Function.Semiconj deepen advance advance := fun x => (advance_deepen x).symm
  exact ⟨k, by rw [← (hs.iterate_right k).eq c, surface_deepen]⟩

end Cursor

namespace Parse

open Cursor

variable {n : Nat} {α β : Type} {c c' : Cursor}

/-- The step reads `a` from the place `c` on and ends at `c'`. -/
def Gives (x : Parse n α) (c : Cursor) (a : α) (c' : Cursor) : Prop :=
  ∃ h h', x ⟨c, h⟩ = .ok a ⟨c', h'⟩

theorem Gives.length_lt {x : Parse n α} {a : α} (h : x.Gives c a c') : c.rest.length < n :=
  h.1

theorem length_advance_lt (h : c.rest.length < n) : c.advance.rest.length < n :=
  (Below.advance ⟨c, h⟩).2

theorem Gives.length_lt' {x : Parse n α} {a : α} (h : x.Gives c a c') : c'.rest.length < n :=
  h.2.1

/-- What a step that stays in its place gives. -/
theorem gives_iff_of_stays {x : Parse n α} {f : Cursor → α} (hx : ∀ c, x c = .ok (f c.1) c) {a : α} :
    x.Gives c a c' ↔ c.rest.length < n ∧ f c = a ∧ c = c' := by
  constructor
  · rintro ⟨h, h', he⟩
    rw [hx] at he
    cases he
    exact ⟨h, rfl, rfl⟩
  · rintro ⟨h, rfl, rfl⟩
    exact ⟨h, h, hx _⟩

@[simp] theorem gives_pure {a b : α} :
    (pure a : Parse n α).Gives c b c' ↔ c.rest.length < n ∧ a = b ∧ c = c' :=
  gives_iff_of_stays (f := fun _ => a) fun _ => rfl

@[simp] theorem gives_tokens {ts : List Token} :
    (tokens : Parse n _).Gives c ts c' ↔ c.rest.length < n ∧ c.rest = ts ∧ c = c' :=
  gives_iff_of_stays fun _ => rfl

@[simp] theorem gives_next {t : Option Token} :
    (next? : Parse n _).Gives c t c' ↔ c.rest.length < n ∧ c.rest.head? = t ∧ c = c' :=
  gives_iff_of_stays (f := fun c => c.rest.head?) fun _ => rfl

@[simp] theorem gives_nextKind {k : Option TokenKind} :
    (nextKind? : Parse n _).Gives c k c' ↔
      c.rest.length < n ∧ c.rest.head?.map Token.kind = k ∧ c = c' :=
  gives_iff_of_stays (f := fun c => c.rest.head?.map Token.kind) fun _ => rfl

theorem gives_bind {x : Parse n α} {f : α → Parse n β} {b : β} :
    (x >>= f).Gives c b c' ↔ ∃ a d, x.Gives c a d ∧ (f a).Gives d b c' := by
  constructor
  · rintro ⟨h, h', he⟩
    change EStateM.bind x f ⟨c, h⟩ = _ at he
    unfold EStateM.bind at he
    split at he
    · next a d hx => exact ⟨a, d.1, ⟨h, d.2, hx⟩, d.2, h', he⟩
    · cases he
  · rintro ⟨a, d, ⟨h, hd, hx⟩, _, h', hf⟩
    refine ⟨h, h', ?_⟩
    change EStateM.bind x f ⟨c, h⟩ = _
    unfold EStateM.bind
    rw [hx]
    exact hf

theorem Gives.bind {x : Parse n α} {f : α → Parse n β} {a : α} {b : β} {d : Cursor}
    (hx : x.Gives c a d) (hf : (f a).Gives d b c') : (x >>= f).Gives c b c' :=
  gives_bind.2 ⟨a, d, hx, hf⟩

theorem Gives.pure (h : c.rest.length < n) (a : α) : (pure a : Parse n α).Gives c a c :=
  gives_pure.2 ⟨h, rfl, rfl⟩

theorem gives_map {x : Parse n α} {f : α → β} {b : β} :
    (f <$> x).Gives c b c' ↔ ∃ a, x.Gives c a c' ∧ f a = b := by
  rw [map_eq_pure_bind, gives_bind]
  constructor
  · rintro ⟨a, d, hx, hp⟩
    obtain ⟨-, rfl, rfl⟩ := gives_pure.1 hp
    exact ⟨a, hx, rfl⟩
  · rintro ⟨a, hx, rfl⟩
    exact ⟨a, c', hx, gives_pure.2 ⟨hx.length_lt', rfl, rfl⟩⟩

@[simp] theorem gives_advance {u : Unit} :
    (advance : Parse n _).Gives c u c' ↔ c.rest.length < n ∧ c.advance = c' := by
  constructor
  · rintro ⟨h, h', he⟩
    cases he
    exact ⟨h, rfl⟩
  · rintro ⟨h, rfl⟩
    exact ⟨h, (Below.advance ⟨c, h⟩).2, rfl⟩

theorem Gives.advance (hn : c.rest.length < n) : (advance : Parse n _).Gives c () c.advance :=
  gives_advance.2 ⟨hn, rfl⟩

theorem Gives.skip (hn : c.rest.length < n) (k : Nat) :
    (skip k : Parse n _).Gives c () (Cursor.advance^[k] c) := by
  induction k generalizing c with
  | zero => exact .pure hn ()
  | succ k ih => exact (Gives.advance hn).bind (ih (length_advance_lt hn))

theorem gives_skip {k : Nat} {u : Unit} (h : (skip k : Parse n _).Gives c u c') :
    c' = Cursor.advance^[k] c := by
  induction k generalizing c with
  | zero => exact (gives_pure.1 h).2.2.symm
  | succ k ih =>
    obtain ⟨_, d, hd, h⟩ := gives_bind.1 h
    obtain ⟨-, rfl⟩ := gives_advance.1 hd
    exact ih h

@[simp] theorem not_gives_throw {e : ParseError} {a : α} :
    ¬(throw e : Parse n α).Gives c a c' := by
  rintro ⟨h, h', he⟩
  cases he

@[simp] theorem not_gives_fail {e : Expectation} {a : α} : ¬(fail e : Parse n α).Gives c a c' := by
  rintro ⟨h, h', he⟩
  cases he

theorem gives_bind_next {f : Option Token → Parse n β} {b : β} :
    (next? >>= f).Gives c b c' ↔ (f c.rest.head?).Gives c b c' := by
  rw [gives_bind]
  constructor
  · rintro ⟨a, d, hx, hf⟩
    obtain ⟨-, rfl, rfl⟩ := gives_next.1 hx
    exact hf
  · exact fun hf => ⟨_, c, gives_next.2 ⟨hf.length_lt, rfl, rfl⟩, hf⟩

theorem gives_bind_nextKind {f : Option TokenKind → Parse n β} {b : β} :
    (nextKind? >>= f).Gives c b c' ↔ (f (c.rest.head?.map Token.kind)).Gives c b c' := by
  rw [gives_bind]
  constructor
  · rintro ⟨a, d, hx, hf⟩
    obtain ⟨-, rfl, rfl⟩ := gives_nextKind.1 hx
    exact hf
  · exact fun hf => ⟨_, c, gives_nextKind.2 ⟨hf.length_lt, rfl, rfl⟩, hf⟩

theorem gives_bind_tokens {f : List Token → Parse n β} {b : β} :
    (tokens >>= f).Gives c b c' ↔ (f c.rest).Gives c b c' := by
  rw [gives_bind]
  constructor
  · rintro ⟨a, d, hx, hf⟩
    obtain ⟨-, rfl, rfl⟩ := gives_tokens.1 hx
    exact hf
  · exact fun hf => ⟨_, c, gives_tokens.2 ⟨hf.length_lt, rfl, rfl⟩, hf⟩

theorem gives_bind_get {f : Below n → Parse n β} {b : β} :
    (get >>= f).Gives c b c' ↔ ∃ h, (f ⟨c, h⟩).Gives c b c' := by
  rw [gives_bind]
  constructor
  · rintro ⟨a, d, ⟨h, h', he⟩, hf⟩
    cases he
    exact ⟨h, hf⟩
  · exact fun ⟨h, hf⟩ => ⟨_, c, ⟨h, h, rfl⟩, hf⟩

theorem gives_expectWith {e : Expectation} {p : Token → Bool} {t : Token} :
    (expectWith e p : Parse n _).Gives c t c' ↔
      c.rest.length < n ∧ c.Takes t c' ∧ p t = true := by
  unfold expectWith
  rw [gives_bind_next]
  constructor
  · intro h
    split at h
    · next u hu =>
      obtain ⟨ts, hts⟩ := List.head?_eq_some_iff.1 hu
      split at h
      · next hp =>
        obtain ⟨_, d, hd, hr⟩ := gives_bind.1 h
        obtain ⟨hn, rfl⟩ := gives_advance.1 hd
        obtain ⟨-, rfl, rfl⟩ := gives_pure.1 hr
        exact ⟨hn, takes_advance hts, hp⟩
      · exact absurd h not_gives_fail
    · exact absurd h not_gives_fail
  · rintro ⟨hn, ⟨hc, rfl⟩, hp⟩
    rw [hc, List.head?_cons]
    simp only [hp, if_true]
    exact gives_bind.2 ⟨(), c.advance, gives_advance.2 ⟨hn, rfl⟩, gives_pure.2 ⟨length_advance_lt hn, rfl, rfl⟩⟩

theorem gives_expect {k : TokenKind} {t : Token} :
    (expect k : Parse n _).Gives c t c' ↔ c.rest.length < n ∧ c.Takes t c' ∧ t.kind = k := by
  rw [expect, gives_expectWith, decide_eq_true_eq]

theorem Gives.expect {k : TokenKind} {t : Token} {ts : List Token} (hn : c.rest.length < n)
    (ht : c.rest = t :: ts) (hk : t.kind = k) : (expect k : Parse n _).Gives c t c.advance :=
  gives_expect.2 ⟨hn, takes_advance ht, hk⟩

theorem gives_expectOp {op : Op} {t : Token} :
    (expectOp op : Parse n _).Gives c t c' ↔
      c.rest.length < n ∧ c.Takes t c' ∧ t.kind = .operator ∧ Op.ofText? t.text = some op := by
  rw [expectOp, gives_expectWith, Bool.and_eq_true, decide_eq_true_eq, decide_eq_true_eq]

theorem Gives.expectOp {op : Op} {t : Token} {ts : List Token} (hn : c.rest.length < n)
    (ht : c.rest = t :: ts) (hk : t.kind = .operator) (ho : Op.ofText? t.text = some op) :
    (expectOp op : Parse n _).Gives c t c.advance :=
  gives_expectOp.2 ⟨hn, takes_advance ht, hk, ho⟩

theorem gives_expectName {t : Token} :
    (expectName : Parse n _).Gives c t c' ↔
      c.rest.length < n ∧ c.Takes t c' ∧ t.kind = .identifier := by
  rw [expectName, gives_expectWith, decide_eq_true_eq]

theorem Gives.expectName {t : Token} {ts : List Token} (hn : c.rest.length < n)
    (ht : c.rest = t :: ts) (hk : t.kind = .identifier) :
    (expectName : Parse n _).Gives c t c.advance :=
  gives_expectName.2 ⟨hn, takes_advance ht, hk⟩

/-! A step after a token that was asked for: where it begins, and what is known of the token. -/

theorem gives_of_bind_advance {f : Unit → Parse n β} {b : β} (h : (advance >>= f).Gives c b c') :
    (f ()).Gives c.advance b c' := by
  obtain ⟨_, d, hd, h⟩ := gives_bind.1 h
  obtain ⟨-, rfl⟩ := gives_advance.1 hd
  exact h

theorem gives_of_bind_expect {k : TokenKind} {f : Token → Parse n β} {b : β}
    (h : (expect k >>= f).Gives c b c') :
    ∃ t d, c.Takes t d ∧ t.kind = k ∧ (f t).Gives d b c' := by
  obtain ⟨t, d, ht, h⟩ := gives_bind.1 h
  obtain ⟨-, ht, hk⟩ := gives_expect.1 ht
  exact ⟨t, d, ht, hk, h⟩

theorem gives_of_bind_expectOp {op : Op} {f : Token → Parse n β} {b : β}
    (h : (expectOp op >>= f).Gives c b c') :
    ∃ t d, c.Takes t d ∧ (t.kind = .operator ∧ Op.ofText? t.text = some op) ∧
      (f t).Gives d b c' := by
  obtain ⟨t, d, ht, h⟩ := gives_bind.1 h
  obtain ⟨-, ht, hk⟩ := gives_expectOp.1 ht
  exact ⟨t, d, ht, hk, h⟩

theorem gives_of_bind_expectName {f : Token → Parse n β} {b : β}
    (h : (expectName >>= f).Gives c b c') :
    ∃ t d, c.Takes t d ∧ t.kind = .identifier ∧ (f t).Gives d b c' := by
  obtain ⟨t, d, ht, h⟩ := gives_bind.1 h
  obtain ⟨-, ht, hk⟩ := gives_expectName.1 ht
  exact ⟨t, d, ht, hk, h⟩

theorem gives_past {e : Expectation} {k : Token → Parse n α} {a : α} :
    (past e k).Gives c a c' ↔ ∃ t d, c.Takes t d ∧ (k t).Gives d a c' := by
  constructor
  · rintro ⟨h, h', he⟩
    unfold past at he
    split at he
    · cases he
    · next t ts hts =>
      simp only at he
      split at he
      · next b d hk =>
        cases he
        exact ⟨t, c.advance, takes_advance hts, _, d.2, hk⟩
      · cases he
  · rintro ⟨t, d, ⟨hc, rfl⟩, hd, hd', hk⟩
    have h : c.rest.length < n + 1 := by
      rw [hc, List.length_cons]
      omega
    refine ⟨h, Nat.lt_succ_of_lt hd', ?_⟩
    unfold past
    split
    · next hnil => exact absurd (hc.symm.trans hnil) (List.cons_ne_nil _ _)
    · next u us hus =>
      obtain ⟨rfl, -⟩ := List.cons.inj (hc.symm.trans hus)
      simp only
      rw [hk]
      rfl

/-- What is read inside an integrand is read one integrand deeper. -/
theorem inIntegrand_of_ok {x : Parse n α} {c d : Below n} {a : α}
    (h : x ⟨c.1.deepen, c.2⟩ = .ok a d) : inIntegrand x c = .ok a ⟨d.1.surface, d.2⟩ := by
  have hx : x ⟨{ c.1 with integrands := c.1.integrands + 1 }, c.2⟩ = .ok a d := h
  rw [inIntegrand, hx]
  rfl

/-- The integrand is left also where this fails. -/
theorem inIntegrand_of_error {x : Parse n α} {c d : Below n} {e : ParseError}
    (h : x ⟨c.1.deepen, c.2⟩ = .error e d) : inIntegrand x c = .error e ⟨d.1.surface, d.2⟩ := by
  have hx : x ⟨{ c.1 with integrands := c.1.integrands + 1 }, c.2⟩ = .error e d := h
  rw [inIntegrand, hx]
  rfl

theorem gives_inIntegrand {x : Parse n α} {a : α} :
    (inIntegrand x).Gives c a c' ↔ ∃ d, x.Gives c.deepen a d ∧ c' = d.surface := by
  constructor
  · rintro ⟨h, h', he⟩
    unfold inIntegrand at he
    split at he
    · next b d hx =>
      cases he
      exact ⟨d.1, ⟨h, d.2, hx⟩, rfl⟩
    · cases he
  · rintro ⟨d, ⟨h, h', hx⟩, rfl⟩
    exact ⟨h, h', inIntegrand_of_ok (c := ⟨c, h⟩) (d := ⟨d, h'⟩) hx⟩

end Parse

end LatexCalc
