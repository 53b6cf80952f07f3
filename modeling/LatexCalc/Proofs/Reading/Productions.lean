import LatexCalc.Proofs.Reading.Place
import LatexCalc.Proofs.Reading.Rules

/-!
# Productions by the rules

A step of the parser `Realizes` a phase of reading if it succeeds exactly where the rules read
something, with the same expression and the same tokens left. The productions realize the phases
that they are made for as soon as the steps `E` and `P` that they are given realize expressions and
operands: what starts with a token is read by the rules from that token on
(`realizesAfter_operandFrom`), and an operand with a sign goes on in one of three ways
(`gives_operandThen`).

Soundness goes from a run to the rules, completeness from the rules to a run. The place `c₀` at
which a production begins is carried along, since all places on its way are in the same integrands.
-/

namespace LatexCalc

namespace Parse

open Cursor

variable {n : Nat} {c₀ c c' : Cursor}

/-- The step succeeds exactly by the rules for a phase, wherever on the way from `c₀` it begins. -/
structure Realizes (x : Parse n Expr) (ph : Phase) : Prop where
  sound : ∀ {c₀ c c' : Cursor} {e : Expr}, c₀.Reaches c → x.Gives c e c' →
    Reads ph c₀.inside c.rest e c'.rest ∧ c₀.Reaches c'
  complete : ∀ {c₀ c : Cursor} {ts r : List Token} {e : Expr}, c₀.Reaches c → c.rest.length < n →
    c.rest = ts → Reads ph c₀.inside ts e r → ∃ c', x.Gives c e c' ∧ c'.rest = r ∧ c₀.Reaches c'

/-- The step succeeds exactly by the rules for what follows the operand `lhs`. -/
structure RealizesClimb (x : Parse n Expr) (least : Nat) (lhs : Expr) : Prop where
  sound : ∀ {c₀ c c' : Cursor} {e : Expr}, c₀.Reaches c → c.afterOperand = true → x.Gives c e c' →
    Reads (.climb least lhs) c₀.inside c.rest e c'.rest ∧ c₀.Reaches c'
  complete : ∀ {c₀ c : Cursor} {ts r : List Token} {e : Expr}, c₀.Reaches c →
    c.afterOperand = true → c.rest.length < n → c.rest = ts →
    Reads (.climb least lhs) c₀.inside ts e r → ∃ c', x.Gives c e c' ∧ c'.rest = r ∧ c₀.Reaches c'

/-- The step succeeds exactly by the rules for operands, the token `t` being taken before it. -/
structure RealizesAfter (t : Token) (x : Parse n Expr) : Prop where
  sound : ∀ {c c' : Cursor} {e : Expr}, x.Gives c e c' →
    Reads .operand c.inside (t :: c.rest) e c'.rest ∧ c.Reaches c'
  complete : ∀ {c : Cursor} {ts r : List Token} {e : Expr}, c.rest.length < n → c.rest = ts →
    Reads .operand c.inside (t :: ts) e r → ∃ c', x.Gives c e c' ∧ c'.rest = r ∧ c.Reaches c'

/-! ## Productions -/

section Productions

variable {E : Nat → Parse n Expr} {P : Parse n Expr}

section Brackets

variable (hE : ∀ p, (E p).Realizes (.expr p))
include hE

theorem sound_upTo (κ : Bracket) {o : Token} {e : Expr} (hc : c₀.Reaches c) (ho : o.kind = κ.opening)
    (h : (upTo E κ.closing).Gives c e c') :
    Reads (.bracketed κ) c₀.inside (o :: c.rest) e c'.rest ∧ c₀.Reaches c' := by
  unfold upTo at h
  obtain ⟨x, d, hx, h⟩ := gives_bind.1 h
  obtain ⟨t, d', ht, hk, h⟩ := gives_of_bind_expect h
  obtain ⟨-, rfl, rfl⟩ := gives_pure.1 h
  obtain ⟨hr, hd⟩ := (hE 0).sound hc hx
  exact ⟨.bracketed ho (ht.1 ▸ hr) hk, hd.trans ht.reaches⟩

theorem complete_upTo (κ : Bracket) {o : Token} {ts r : List Token} {e : Expr} (hc : c₀.Reaches c)
    (hn : c.rest.length < n) (hts : c.rest = ts) (h : Reads (.bracketed κ) c₀.inside (o :: ts) e r) :
    ∃ c', (upTo E κ.closing).Gives c e c' ∧ c'.rest = r ∧ c₀.Reaches c' := by
  cases h with
  | bracketed _ hx hk =>
    obtain ⟨d, hd, hr, hcd⟩ := (hE 0).complete hc hn hts hx
    have ht := Gives.expect hd.length_lt' hr hk
    exact ⟨d.advance, hd.bind (ht.bind (.pure ht.length_lt' _)), by rw [rest_advance, hr]; rfl,
      hcd.trans (takes_advance hr).reaches⟩

theorem realizes_group : (group E).Realizes (.bracketed .brace) where
  sound {c₀ c c' e} hc h := by
    obtain ⟨t, d, ht, hk, h⟩ := gives_of_bind_expect h
    rw [ht.1]
    exact sound_upTo hE .brace (hc.trans ht.reaches) hk h
  complete {c₀ c ts r e} hc hn hts h := by
    obtain ⟨o, s, rfl, ho⟩ := h.head_bracketed
    have ht := Gives.expect hn hts ho
    obtain ⟨c', hg, hr, hcc⟩ := complete_upTo hE .brace (hc.trans (takes_advance hts).reaches) ht.length_lt'
      (by rw [rest_advance, hts]; rfl) h
    exact ⟨c', ht.bind hg, hr, hcc⟩

theorem sound_opened (κ : Bracket) {e : Expr} (hc : c₀.Reaches c)
    (hk : c.rest.head?.map Token.kind = some κ.opening)
    (h : (advance >>= fun _ => upTo E κ.closing).Gives c e c') :
    Reads (.bracketed κ) c₀.inside c.rest e c'.rest ∧ c₀.Reaches c' := by
  obtain ⟨t, ht, hk⟩ := Option.map_eq_some_iff.1 hk
  obtain ⟨ts, hts⟩ := List.head?_eq_some_iff.1 ht
  rw [(takes_advance hts).1]
  exact sound_upTo hE κ (hc.trans (takes_advance hts).reaches) hk (gives_of_bind_advance h)

theorem sound_argument {e : Expr} (hc : c₀.Reaches c) (h : (argument E).Gives c e c') :
    (∃ κ, Reads (.bracketed κ) c₀.inside c.rest e c'.rest) ∧ c₀.Reaches c' := by
  unfold argument at h
  rw [gives_bind_nextKind] at h
  split at h
  · next hk => exact (sound_opened hE .brace hc hk h).imp_left fun hr => ⟨_, hr⟩
  · next hk => exact (sound_opened hE .paren hc hk h).imp_left fun hr => ⟨_, hr⟩
  · exact absurd h not_gives_fail

theorem complete_argument {κ : Bracket} {ts r : List Token} {e : Expr} (hc : c₀.Reaches c)
    (hn : c.rest.length < n) (hts : c.rest = ts) (h : Reads (.bracketed κ) c₀.inside ts e r) :
    ∃ c', (argument E).Gives c e c' ∧ c'.rest = r ∧ c₀.Reaches c' := by
  obtain ⟨o, s, rfl, ho⟩ := h.head_bracketed
  obtain ⟨c', hg, hr, hcc⟩ := complete_upTo hE κ (hc.trans (takes_advance hts).reaches)
    (length_advance_lt hn) (by rw [rest_advance, hts]; rfl) h
  refine ⟨c', ?_, hr, hcc⟩
  unfold argument
  rw [gives_bind_nextKind, hts, List.head?_cons, Option.map_some, ho]
  cases κ with
  | brace => exact (Gives.advance hn).bind hg
  | paren => exact (Gives.advance hn).bind hg

end Brackets

theorem gives_differential {v : String} :
    (differential : Parse n String).Gives c v c' ↔ c.rest.length < n ∧
      ∃ d, c.Takes d c' ∧ startsDifferential c.rest = true ∧ d.differential? = some v := by
  unfold differential
  rw [gives_bind_tokens]
  constructor
  · intro h
    split at h
    · next hd =>
      obtain ⟨d, hd, hv⟩ := Option.bind_eq_some_iff.1 hd
      obtain ⟨ts, hts⟩ := List.head?_eq_some_iff.1 hd
      split at h
      · next hs =>
        obtain ⟨_, k, hk, h⟩ := gives_bind.1 h
        obtain ⟨hn, rfl⟩ := gives_advance.1 hk
        obtain ⟨-, rfl, rfl⟩ := gives_pure.1 h
        exact ⟨hn, d, takes_advance hts, hs, hv⟩
      · exact absurd h not_gives_fail
    · exact absurd h not_gives_fail
  · rintro ⟨hn, d, ⟨hd, rfl⟩, hs, hv⟩
    have hb : c.rest.head?.bind Token.differential? = some v := by
      rw [hd, List.head?_cons, Option.bind_some, hv]
    simp only [hb, hs, if_true]
    exact (Gives.advance hn).bind (.pure (length_advance_lt hn) v)

section Headed

variable (hE : ∀ p, (E p).Realizes (.expr p)) (hP : P.Realizes .operand)

include hE hP in
theorem sound_bounds {x y : Expr} (hc : c₀.Reaches c) (h : (bounds E P).Gives c (x, y) c') :
    ((∃ m, Reads (.bracketed .brace) c₀.inside c.rest x m ∧
        Reads (.bracketed .brace) c₀.inside m y c'.rest) ∨
      ∃ u ts t m, c.rest = u :: ts ∧ u.kind = .underscore ∧
        Reads .operand c₀.inside ts x (t :: m) ∧ t.IsOp .pow ∧
        Reads .operand c₀.inside m y c'.rest) ∧ c₀.Reaches c' := by
  unfold bounds at h
  rw [gives_bind_nextKind] at h
  split at h
  · next hk =>
    obtain ⟨u, hu, hk⟩ := Option.map_eq_some_iff.1 hk
    obtain ⟨ts, hts⟩ := List.head?_eq_some_iff.1 hu
    obtain ⟨x', d₂, h₂, h⟩ := gives_bind.1 (gives_of_bind_advance h)
    obtain ⟨t, d₃, ht, hop, h⟩ := gives_of_bind_expectOp h
    obtain ⟨y', d₄, h₄, h⟩ := gives_bind.1 h
    obtain ⟨-, he, rfl⟩ := gives_pure.1 h
    cases he
    obtain ⟨hx, hd₂⟩ := hP.sound (hc.trans (takes_advance hts).reaches) h₂
    obtain ⟨hy, hd₄⟩ := hP.sound (hd₂.trans ht.reaches) h₄
    exact ⟨.inr ⟨u, c.advance.rest, t, d₃.rest, (takes_advance hts).1, hk, ht.1 ▸ hx, hop, hy⟩, hd₄⟩
  · obtain ⟨x', d₁, h₁, h⟩ := gives_bind.1 h
    obtain ⟨y', d₂, h₂, h⟩ := gives_bind.1 h
    obtain ⟨-, he, rfl⟩ := gives_pure.1 h
    cases he
    obtain ⟨hx, hd₁⟩ := (realizes_group hE).sound hc h₁
    obtain ⟨hy, hd₂⟩ := (realizes_group hE).sound hd₁ h₂
    exact ⟨.inl ⟨_, hx, hy⟩, hd₂⟩

include hE in
theorem complete_bounds {ts m k : List Token} {x y : Expr} (hc : c₀.Reaches c)
    (hn : c.rest.length < n) (hts : c.rest = ts)
    (hx : Reads (.bracketed .brace) c₀.inside ts x m)
    (hy : Reads (.bracketed .brace) c₀.inside m y k) :
    ∃ c', (bounds E P).Gives c (x, y) c' ∧ c'.rest = k ∧ c₀.Reaches c' := by
  obtain ⟨d₁, h₁, hr₁, hd₁⟩ := (realizes_group hE).complete hc hn hts hx
  obtain ⟨d₂, h₂, hr₂, hd₂⟩ := (realizes_group hE).complete hd₁ h₁.length_lt' hr₁ hy
  refine ⟨d₂, ?_, hr₂, hd₂⟩
  obtain ⟨o, s, rfl, ho⟩ := hx.head_bracketed
  unfold bounds
  rw [gives_bind_nextKind, hts, List.head?_cons, Option.map_some, ho]
  exact h₁.bind (h₂.bind (.pure h₂.length_lt' _))

include hP in
theorem complete_bounds_scripts {u t : Token} {ts m k : List Token} {x y : Expr} (hc : c₀.Reaches c)
    (hn : c.rest.length < n) (hts : c.rest = u :: ts) (hu : u.kind = .underscore)
    (hx : Reads .operand c₀.inside ts x (t :: m)) (ht : t.IsOp .pow)
    (hy : Reads .operand c₀.inside m y k) :
    ∃ c', (bounds E P).Gives c (x, y) c' ∧ c'.rest = k ∧ c₀.Reaches c' := by
  have hr : c.advance.rest = ts := by rw [rest_advance, hts]; rfl
  obtain ⟨d₁, h₁, hr₁, hd₁⟩ := hP.complete (hc.trans (takes_advance hts).reaches)
    (length_advance_lt hn) hr hx
  have h₂ := Gives.expectOp h₁.length_lt' hr₁ ht.1 ht.2
  obtain ⟨d₃, h₃, hr₃, hd₃⟩ := hP.complete (hd₁.trans (takes_advance hr₁).reaches) h₂.length_lt'
    (by rw [rest_advance, hr₁]; rfl) hy
  refine ⟨d₃, ?_, hr₃, hd₃⟩
  unfold bounds
  rw [gives_bind_nextKind, hts, List.head?_cons, Option.map_some, hu]
  exact (Gives.advance hn).bind (h₁.bind (h₂.bind (h₃.bind (.pure h₃.length_lt' _))))

include hE hP in
theorem sound_integral {t : Token} {e : Expr} (ht : t.IsCommand "int")
    (h : (integral E P).Gives c e c') :
    Reads .operand c.inside (t :: c.rest) e c'.rest ∧ c.Reaches c' := by
  obtain ⟨⟨x, y⟩, d₁, h₁, h⟩ := gives_bind.1 h
  obtain ⟨f, d₂, h₂, h⟩ := gives_bind.1 h
  obtain ⟨v, d₃, h₃, h⟩ := gives_bind.1 h
  obtain ⟨-, rfl, rfl⟩ := gives_pure.1 h
  obtain ⟨hb, hd₁⟩ := sound_bounds hE hP (.refl c) h₁
  obtain ⟨d, hd, rfl⟩ := gives_inIntegrand.1 h₂
  obtain ⟨hf, hr⟩ := (hE 0).sound (.refl _) hd
  obtain ⟨-, dx, hdx, hs, hv⟩ := gives_differential.1 h₃
  rw [inside_deepen] at hf
  rw [show d.rest = d.surface.rest from rfl, hdx.1] at hf
  rw [hdx.1] at hs
  refine ⟨?_, (hd₁.trans hr.of_deepen).trans hdx.reaches⟩
  rcases hb with ⟨m, hx, hy⟩ | ⟨u, ts, p, m, hu, hk, hx, hp, hy⟩
  · exact .integral ht hx hy hf hs hv
  · rw [hu]
    exact .integralScripts ht hk hx hp hy hf hs hv

include hE in
/-- What follows the bounds of an integral. -/
theorem complete_integrand {d : Token} {k r : List Token} {f : Expr} {v : String} (x y : Expr)
    (hb : (bounds E P).Gives c (x, y) c') (hk : c'.rest = k) (hc : c.Reaches c')
    (hf : Reads (.expr 0) true k f (d :: r)) (hd : startsDifferential (d :: r) = true)
    (hv : d.differential? = some v) :
    ∃ c', (integral E P).Gives c (.integral v x y f) c' ∧ c'.rest = r ∧ c.Reaches c' := by
  rw [← inside_deepen c'] at hf
  obtain ⟨d₁, h₁, hr₁, hd₁⟩ := (hE 0).complete (.refl c'.deepen) hb.length_lt' hk hf
  have h₂ := gives_inIntegrand.2 ⟨d₁, h₁, rfl⟩
  have hs : d₁.surface.rest = d :: r := hr₁
  have h₃ := gives_differential.2 ⟨h₂.length_lt', d, takes_advance hs, hs ▸ hd, hv⟩
  exact ⟨_, hb.bind (h₂.bind (h₃.bind (.pure h₃.length_lt' _))), by rw [rest_advance, hs]; rfl,
    (hc.trans hd₁.of_deepen).trans (takes_advance hs).reaches⟩

include hE hP in
theorem sound_range {v : String} {x y : Expr} (hc : c₀.Reaches c)
    (h : (range E P).Gives c (v, x, y) c') :
    ((∃ o w k ts m, c.rest = o :: w :: k :: ts ∧ o.kind = .braceOpen ∧ w.kind = .identifier ∧
        w.text = v ∧ k.kind = .braceClose ∧ Reads (.bracketed .brace) c₀.inside ts x m ∧
        Reads (.bracketed .brace) c₀.inside m y c'.rest) ∨
      ∃ u o w q ts k p m, c.rest = u :: o :: w :: q :: ts ∧ u.kind = .underscore ∧
        o.kind = .braceOpen ∧ w.kind = .identifier ∧ w.text = v ∧ q.kind = .equal ∧
        Reads (.expr 0) c₀.inside ts x (k :: p :: m) ∧ k.kind = .braceClose ∧ p.IsOp .pow ∧
        Reads .operand c₀.inside m y c'.rest) ∧ c₀.Reaches c' := by
  unfold range at h
  rw [gives_bind_nextKind] at h
  split at h
  · next hk =>
    obtain ⟨u, hu, hk⟩ := Option.map_eq_some_iff.1 hk
    obtain ⟨ts, hts⟩ := List.head?_eq_some_iff.1 hu
    obtain ⟨o, d₁, ho, hok, h⟩ := gives_of_bind_expect (gives_of_bind_advance h)
    obtain ⟨w, d₂, hw, hwk, h⟩ := gives_of_bind_expectName h
    obtain ⟨q, d₃, hq, hqk, h⟩ := gives_of_bind_expect h
    obtain ⟨x', d₄, h₄, h⟩ := gives_bind.1 h
    obtain ⟨p, d₅, hp, hop, h⟩ := gives_of_bind_expectOp h
    obtain ⟨y', d₆, h₆, h⟩ := gives_bind.1 h
    obtain ⟨-, he, rfl⟩ := gives_pure.1 h
    cases he
    have hd₁ := (hc.trans (takes_advance hts).reaches).trans ho.reaches
    have hd₃ := (hd₁.trans hw.reaches).trans hq.reaches
    obtain ⟨hx, hd₄⟩ := sound_upTo hE .brace hd₃ hok h₄
    obtain ⟨hy, hd₆⟩ := hP.sound (hd₄.trans hp.reaches) h₆
    have hr := (takes_advance hts).1
    rw [ho.1, hw.1, hq.1] at hr
    cases hx with
    | bracketed _ hx hkk =>
      rw [hp.1] at hx
      exact ⟨.inr ⟨u, o, w, q, _, _, p, _, hr, hk, hok, hwk, rfl, hqk, hx, hkk, hop, hy⟩, hd₆⟩
  · obtain ⟨o, d₁, ho, hok, h⟩ := gives_of_bind_expect h
    obtain ⟨w, d₂, hw, hwk, h⟩ := gives_of_bind_expectName h
    obtain ⟨k, d₃, hk, hkk, h⟩ := gives_of_bind_expect h
    obtain ⟨x', d₄, h₄, h⟩ := gives_bind.1 h
    obtain ⟨y', d₅, h₅, h⟩ := gives_bind.1 h
    obtain ⟨-, he, rfl⟩ := gives_pure.1 h
    cases he
    have hd₃ := ((hc.trans ho.reaches).trans hw.reaches).trans hk.reaches
    obtain ⟨hx, hd₄⟩ := (realizes_group hE).sound hd₃ h₄
    obtain ⟨hy, hd₅⟩ := (realizes_group hE).sound hd₄ h₅
    have hr := ho.1
    rw [hw.1, hk.1] at hr
    exact ⟨.inl ⟨o, w, k, _, _, hr, hok, hwk, rfl, hkk, hx, hy⟩, hd₅⟩

include hE in
theorem complete_range {o w k : Token} {ts m r : List Token} {x y : Expr} (hc : c₀.Reaches c)
    (hn : c.rest.length < n) (hts : c.rest = o :: w :: k :: ts) (ho : o.kind = .braceOpen)
    (hw : w.kind = .identifier) (hk : k.kind = .braceClose)
    (hx : Reads (.bracketed .brace) c₀.inside ts x m)
    (hy : Reads (.bracketed .brace) c₀.inside m y r) :
    ∃ c', (range E P).Gives c (w.text, x, y) c' ∧ c'.rest = r ∧ c₀.Reaches c' := by
  have hr₁ : c.advance.rest = w :: k :: ts := by rw [rest_advance, hts]; rfl
  have hr₂ : c.advance.advance.rest = k :: ts := by rw [rest_advance, hr₁]; rfl
  have hr₃ : c.advance.advance.advance.rest = ts := by rw [rest_advance, hr₂]; rfl
  have h₁ := Gives.expect hn hts ho
  have h₂ := Gives.expectName h₁.length_lt' hr₁ hw
  have h₃ := Gives.expect h₂.length_lt' hr₂ hk
  have hd₂ := (hc.trans (takes_advance hts).reaches).trans (takes_advance hr₁).reaches
  obtain ⟨d₄, h₄, hr₄, hd₄⟩ := (realizes_group hE).complete (hd₂.trans (takes_advance hr₂).reaches)
    h₃.length_lt' hr₃ hx
  obtain ⟨d₅, h₅, hr₅, hd₅⟩ := (realizes_group hE).complete hd₄ h₄.length_lt' hr₄ hy
  refine ⟨d₅, ?_, hr₅, hd₅⟩
  unfold range
  rw [gives_bind_nextKind, hts, List.head?_cons, Option.map_some, ho]
  exact h₁.bind (h₂.bind (h₃.bind (h₄.bind (h₅.bind (.pure h₅.length_lt' _)))))

include hE hP in
theorem complete_range_scripts {u o w q k p : Token} {ts m r : List Token} {x y : Expr}
    (hc : c₀.Reaches c) (hn : c.rest.length < n) (hts : c.rest = u :: o :: w :: q :: ts)
    (hu : u.kind = .underscore) (ho : o.kind = .braceOpen) (hw : w.kind = .identifier)
    (hq : q.kind = .equal) (hx : Reads (.expr 0) c₀.inside ts x (k :: p :: m))
    (hk : k.kind = .braceClose) (hp : p.IsOp .pow) (hy : Reads .operand c₀.inside m y r) :
    ∃ c', (range E P).Gives c (w.text, x, y) c' ∧ c'.rest = r ∧ c₀.Reaches c' := by
  have hr₁ : c.advance.rest = o :: w :: q :: ts := by rw [rest_advance, hts]; rfl
  have hr₂ : c.advance.advance.rest = w :: q :: ts := by rw [rest_advance, hr₁]; rfl
  have hr₃ : c.advance.advance.advance.rest = q :: ts := by rw [rest_advance, hr₂]; rfl
  have hr₄ : c.advance.advance.advance.advance.rest = ts := by rw [rest_advance, hr₃]; rfl
  have h₁ := Gives.advance hn
  have h₂ := Gives.expect h₁.length_lt' hr₁ ho
  have h₃ := Gives.expectName h₂.length_lt' hr₂ hw
  have h₄ := Gives.expect h₃.length_lt' hr₃ hq
  have hd₂ := (hc.trans (takes_advance hts).reaches).trans (takes_advance hr₁).reaches
  have hd₄ := (hd₂.trans (takes_advance hr₂).reaches).trans (takes_advance hr₃).reaches
  obtain ⟨d₅, h₅, hr₅, hd₅⟩ := complete_upTo hE .brace hd₄ h₄.length_lt' hr₄ (.bracketed ho hx hk)
  have h₆ := Gives.expectOp h₅.length_lt' hr₅ hp.1 hp.2
  obtain ⟨d₇, h₇, hr₇, hd₇⟩ := hP.complete (hd₅.trans (takes_advance hr₅).reaches) h₆.length_lt'
    (by rw [rest_advance, hr₅]; rfl) hy
  refine ⟨d₇, ?_, hr₇, hd₇⟩
  unfold range
  rw [gives_bind_nextKind, hts, List.head?_cons, Option.map_some, hu]
  exact h₁.bind (h₂.bind (h₃.bind (h₄.bind (h₅.bind (h₆.bind (h₇.bind (.pure h₇.length_lt' _)))))))

include hE hP in
theorem sound_iteration {t : Token} {make : String → Expr → Expr → Expr → Expr} {e : Expr}
    (ht : t.kind = .function) (hm : iteration? t.command = some make)
    (h : (iteration E P make).Gives c e c') :
    Reads .operand c.inside (t :: c.rest) e c'.rest ∧ c.Reaches c' := by
  obtain ⟨⟨v, x, y⟩, d₁, h₁, h⟩ := gives_bind.1 h
  obtain ⟨f, d₂, h₂, h⟩ := gives_bind.1 h
  obtain ⟨-, rfl, rfl⟩ := gives_pure.1 h
  obtain ⟨hr, hd₁⟩ := sound_range hE hP (.refl c) h₁
  obtain ⟨hf, hd₂⟩ := (hE 0).sound hd₁ h₂
  refine ⟨?_, hd₂⟩
  rcases hr with ⟨o, w, k, ts, m, hc, ho, hw, rfl, hk, hx, hy⟩ |
    ⟨u, o, w, q, ts, k, p, m, hc, hu, ho, hw, rfl, hq, hx, hk, hp, hy⟩
  · rw [hc]
    exact .iteration ht hm ho hw hk hx hy hf
  · rw [hc]
    exact .iterationScripts ht hm hu ho hw hq hx hk hp hy hf

include hE in
/-- What follows the range of a sum or product. -/
theorem complete_body {make : String → Expr → Expr → Expr → Expr} {v : String} {x y f : Expr}
    {r : List Token} (hr : (range E P).Gives c (v, x, y) c') (hc : c.Reaches c')
    (hf : Reads (.expr 0) c.inside c'.rest f r) :
    ∃ c', (iteration E P make).Gives c (make v x y f) c' ∧ c'.rest = r ∧ c.Reaches c' := by
  obtain ⟨d, hd, hdr, hcd⟩ := (hE 0).complete hc hr.length_lt' rfl hf
  exact ⟨d, hr.bind (hd.bind (.pure hd.length_lt' _)), hdr, hcd⟩

include hE in
theorem sound_point {v : String} {x : Expr} (hc : c₀.Reaches c) (h : (point E v).Gives c x c') :
    (∃ p u o w q ts k, c.rest = p :: u :: o :: w :: q :: ts ∧ p.kind = .pipe ∧
      u.kind = .underscore ∧ o.kind = .braceOpen ∧ w.kind = .identifier ∧ w.text = v ∧
      q.kind = .equal ∧ Reads (.expr 0) c₀.inside ts x (k :: c'.rest) ∧ k.kind = .braceClose) ∧
      c₀.Reaches c' := by
  obtain ⟨p, d₁, hp, hpk, h⟩ := gives_of_bind_expect h
  obtain ⟨u, d₂, hu, huk, h⟩ := gives_of_bind_expect h
  obtain ⟨o, d₃, ho, hok, h⟩ := gives_of_bind_expect h
  obtain ⟨w, d₄, hw, hwk, h⟩ := gives_of_bind_expectName h
  split at h
  · obtain ⟨_, _, h, _⟩ := gives_bind.1 h
    exact absurd h not_gives_throw
  · next hwv =>
    obtain ⟨q, d₅, hq, hqk, h⟩ := gives_of_bind_expect h
    have hd₃ := ((hc.trans hp.reaches).trans hu.reaches).trans ho.reaches
    obtain ⟨hx, hd⟩ := sound_upTo hE .brace ((hd₃.trans hw.reaches).trans hq.reaches) hok h
    have hr := hp.1
    rw [hu.1, ho.1, hw.1, hq.1] at hr
    cases hx with
    | bracketed _ hx hk =>
      exact ⟨⟨p, u, o, w, q, _, _, hr, hpk, huk, hok, hwk, not_not.1 hwv, hqk, hx, hk⟩, hd⟩

include hE in
theorem complete_point {p u o w q k : Token} {ts r : List Token} {x : Expr} (hc : c₀.Reaches c)
    (hn : c.rest.length < n) (hts : c.rest = p :: u :: o :: w :: q :: ts) (hp : p.kind = .pipe)
    (hu : u.kind = .underscore) (ho : o.kind = .braceOpen) (hw : w.kind = .identifier)
    (hq : q.kind = .equal) (hx : Reads (.expr 0) c₀.inside ts x (k :: r))
    (hk : k.kind = .braceClose) :
    ∃ c', (point E w.text).Gives c x c' ∧ c'.rest = r ∧ c₀.Reaches c' := by
  have hr₁ : c.advance.rest = u :: o :: w :: q :: ts := by rw [rest_advance, hts]; rfl
  have hr₂ : c.advance.advance.rest = o :: w :: q :: ts := by rw [rest_advance, hr₁]; rfl
  have hr₃ : c.advance.advance.advance.rest = w :: q :: ts := by rw [rest_advance, hr₂]; rfl
  have hr₄ : c.advance.advance.advance.advance.rest = q :: ts := by rw [rest_advance, hr₃]; rfl
  have hr₅ : c.advance.advance.advance.advance.advance.rest = ts := by rw [rest_advance, hr₄]; rfl
  have h₁ := Gives.expect hn hts hp
  have h₂ := Gives.expect h₁.length_lt' hr₁ hu
  have h₃ := Gives.expect h₂.length_lt' hr₂ ho
  have h₄ := Gives.expectName h₃.length_lt' hr₃ hw
  have h₅ := Gives.expect h₄.length_lt' hr₄ hq
  have hd₂ := (hc.trans (takes_advance hts).reaches).trans (takes_advance hr₁).reaches
  have hd₄ := (hd₂.trans (takes_advance hr₂).reaches).trans (takes_advance hr₃).reaches
  obtain ⟨d, h, hr, hd⟩ := complete_upTo hE .brace (hd₄.trans (takes_advance hr₄).reaches) h₅.length_lt' hr₅
    (.bracketed ho hx hk)
  refine ⟨d, h₁.bind (h₂.bind (h₃.bind (h₄.bind ?_))), hr, hd⟩
  simp only [ne_eq, not_true_eq_false, if_false]
  exact h₅.bind h

include hE in
theorem sound_derivative {t : Token} {ts : List Token} {v : String} {e : Expr} (hc : c₀.Reaches c)
    (ht : t.IsCommand "frac") (hd : derivativeVariable? ts = some v) (hts : c.rest = ts.drop 6)
    (h : (derivative E v).Gives c e c') :
    Reads .operand c₀.inside (t :: ts) e c'.rest ∧ c₀.Reaches c' := by
  unfold derivative at h
  rw [gives_bind_nextKind] at h
  split at h
  · obtain ⟨x, d₁, h₁, h⟩ := gives_bind.1 h
    obtain ⟨f, d₂, h₂, h⟩ := gives_bind.1 h
    obtain ⟨-, rfl, rfl⟩ := gives_pure.1 h
    obtain ⟨⟨p, u, o, w, q, k, m, hs, hp, hu, ho, hw, hwv, hq, hx, hm⟩, hd₁⟩ := sound_point hE hc h₁
    obtain ⟨hf, hd₂⟩ := (hE 0).sound hd₁ h₂
    exact ⟨.derivativeAt ht hd (hts ▸ hs) hp hu ho hw hwv hq hx hm hf, hd₂⟩
  · obtain ⟨f, d₁, h₁, h⟩ := gives_bind.1 h
    obtain ⟨-, rfl, rfl⟩ := gives_pure.1 h
    obtain ⟨hf, hd₁⟩ := (hE 0).sound hc h₁
    exact ⟨.derivative ht hd (hts ▸ hf), hd₁⟩

include hE in
theorem sound_fraction {t : Token} {e : Expr} (ht : t.IsCommand "frac")
    (h : (fraction E).Gives c e c') :
    Reads .operand c.inside (t :: c.rest) e c'.rest ∧ c.Reaches c' := by
  unfold fraction at h
  rw [gives_bind_tokens] at h
  split at h
  · next v hv =>
    obtain ⟨_, d, hd, h⟩ := gives_bind.1 h
    obtain rfl := gives_skip hd
    exact sound_derivative hE ⟨6, rfl⟩ ht hv (rest_iterate_advance 6 c) h
  · next hv =>
    obtain ⟨x, d₁, h₁, h⟩ := gives_bind.1 h
    obtain ⟨y, d₂, h₂, h⟩ := gives_bind.1 h
    obtain ⟨-, rfl, rfl⟩ := gives_pure.1 h
    obtain ⟨hx, hd₁⟩ := (realizes_group hE).sound (.refl c) h₁
    obtain ⟨hy, hd₂⟩ := (realizes_group hE).sound hd₁ h₂
    exact ⟨.fraction ht hv hx hy, hd₂⟩

include hE in
theorem complete_fraction {ts m r : List Token} {x y : Expr} (hn : c.rest.length < n)
    (hts : c.rest = ts) (hd : derivativeVariable? ts = none)
    (hx : Reads (.bracketed .brace) c.inside ts x m)
    (hy : Reads (.bracketed .brace) c.inside m y r) :
    ∃ c', (fraction E).Gives c (.fraction x y) c' ∧ c'.rest = r ∧ c.Reaches c' := by
  obtain ⟨d₁, h₁, hr₁, hd₁⟩ := (realizes_group hE).complete (.refl c) hn hts hx
  obtain ⟨d₂, h₂, hr₂, hd₂⟩ := (realizes_group hE).complete hd₁ h₁.length_lt' hr₁ hy
  refine ⟨d₂, ?_, hr₂, hd₂⟩
  unfold fraction
  rw [gives_bind_tokens, hts, hd]
  exact h₁.bind (h₂.bind (.pure h₂.length_lt' _))

/-- A derivative is read where its header stands. -/
theorem gives_fraction_of_derivative {v : String} {e : Expr} (hn : c.rest.length < n)
    (hd : derivativeVariable? c.rest = some v)
    (h : (derivative E v).Gives (Cursor.advance^[6] c) e c') : (fraction E).Gives c e c' := by
  unfold fraction
  rw [gives_bind_tokens, hd]
  exact (Gives.skip hn 6).bind h

include hE in
theorem complete_derivative {ts r : List Token} {v : String} {f : Expr} (hn : c.rest.length < n)
    (hts : c.rest = ts) (hd : derivativeVariable? ts = some v)
    (hf : Reads (.expr 0) c.inside (ts.drop 6) f r) :
    ∃ c', (fraction E).Gives c (.derivative v f) c' ∧ c'.rest = r ∧ c.Reaches c' := by
  have hr : (Cursor.advance^[6] c).rest = ts.drop 6 := by rw [rest_iterate_advance, hts]
  have hn' : (Cursor.advance^[6] c).rest.length < n := (Gives.skip hn 6).length_lt'
  obtain ⟨d, h, hdr, hcd⟩ := (hE 0).complete ⟨6, rfl⟩ hn' hr hf
  refine ⟨d, gives_fraction_of_derivative hn (hts ▸ hd) ?_, hdr, hcd⟩
  obtain ⟨t, s, hs, -⟩ := hf.head_expr
  have hk : t.kind ≠ .pipe := Reads.head_ne_pipe (hs ▸ hf)
  unfold derivative
  rw [gives_bind_nextKind, hr, hs, List.head?_cons, Option.map_some,
    if_neg (by simpa using hk)]
  exact h.bind (.pure h.length_lt' _)

include hE in
theorem complete_derivativeAt {p u o w q k : Token} {ts s m r : List Token} {x f : Expr}
    (hn : c.rest.length < n) (hts : c.rest = ts) (hd : derivativeVariable? ts = some w.text)
    (hs : ts.drop 6 = p :: u :: o :: w :: q :: s) (hp : p.kind = .pipe) (hu : u.kind = .underscore)
    (ho : o.kind = .braceOpen) (hw : w.kind = .identifier) (hq : q.kind = .equal)
    (hx : Reads (.expr 0) c.inside s x (k :: m)) (hk : k.kind = .braceClose)
    (hf : Reads (.expr 0) c.inside m f r) :
    ∃ c', (fraction E).Gives c (.derivativeAt w.text x f) c' ∧ c'.rest = r ∧ c.Reaches c' := by
  have hr : (Cursor.advance^[6] c).rest = p :: u :: o :: w :: q :: s := by
    rw [rest_iterate_advance, hts, hs]
  have hn' : (Cursor.advance^[6] c).rest.length < n := (Gives.skip hn 6).length_lt'
  obtain ⟨d₁, h₁, hr₁, hd₁⟩ := complete_point hE ⟨6, rfl⟩ hn' hr hp hu ho hw hq hx hk
  obtain ⟨d₂, h₂, hr₂, hd₂⟩ := (hE 0).complete hd₁ h₁.length_lt' hr₁ hf
  refine ⟨d₂, gives_fraction_of_derivative hn (hts ▸ hd) ?_, hr₂, hd₂⟩
  unfold derivative
  rw [gives_bind_nextKind, hr, List.head?_cons, Option.map_some, hp, if_pos rfl]
  exact h₁.bind (h₂.bind (.pure h₂.length_lt' _))

include hE hP in
theorem sound_command {t : Token} {e : Expr} (ht : t.kind = .function)
    (h : (command E P t.command).Gives c e c') :
    Reads .operand c.inside (t :: c.rest) e c'.rest ∧ c.Reaches c' := by
  unfold command at h
  split at h
  · next hc => exact sound_fraction hE ⟨ht, hc⟩ h
  · next hc =>
    obtain ⟨x, hx, rfl⟩ := gives_map.1 h
    obtain ⟨hr, hd⟩ := (realizes_group hE).sound (.refl c) hx
    exact ⟨.sqrt ⟨ht, hc⟩ hr, hd⟩
  · next hc => exact sound_integral hE hP ⟨ht, hc⟩ h
  · next hc => exact sound_iteration hE hP ht (by rw [hc]; rfl) h
  · next hc => exact sound_iteration hE hP ht (by rw [hc]; rfl) h
  · next hc =>
    obtain ⟨-, rfl, rfl⟩ := gives_pure.1 h
    exact ⟨.constant ht (by rw [hc]; rfl), .refl c⟩
  · next hc =>
    obtain ⟨-, rfl, rfl⟩ := gives_pure.1 h
    exact ⟨.constant ht (by rw [hc]; rfl), .refl c⟩
  · obtain ⟨x, hx, rfl⟩ := gives_map.1 h
    obtain ⟨⟨κ, hr⟩, hd⟩ := sound_argument hE (.refl c) hx
    exact ⟨.call ht (by simp_all [headedCommands]) hr, hd⟩

theorem command_of_constant {name : String} {x : Float} (h : constant? name = some x) :
    command E P name = pure (.number x) := by
  unfold constant? at h
  split at h
  · cases h
    rfl
  · cases h
    rfl
  · cases h

theorem command_of_iteration {name : String} {make : String → Expr → Expr → Expr → Expr}
    (h : iteration? name = some make) : command E P name = iteration E P make := by
  unfold iteration? at h
  split at h
  · cases h
    rfl
  · cases h
    rfl
  · cases h

theorem command_of_not_mem {name : String} (h : name ∉ headedCommands) :
    command E P name = .call name <$> argument E := by
  unfold command
  split
  case h_8 => rfl
  all_goals exact absurd (by decide) h

include hE hP in
/-- An operand is read by the rules from its first token on. -/
theorem realizesAfter_operandFrom (t : Token) : RealizesAfter t (operandFrom E P t) where
  sound {c c' e} h := by
    unfold operandFrom at h
    split at h
    · next ht =>
      split at h
      · next x hx =>
        obtain ⟨-, rfl, rfl⟩ := gives_pure.1 h
        exact ⟨.number ht hx, .refl c⟩
      · exact absurd h not_gives_throw
    · next ht =>
      obtain ⟨-, rfl, rfl⟩ := gives_pure.1 h
      exact ⟨.name ht, .refl c⟩
    · next ht => exact sound_command hE hP ht h
    · next ht => exact (sound_upTo hE .paren (.refl c) ht h).imp_left .brackets
    · next ht => exact (sound_upTo hE .brace (.refl c) ht h).imp_left .brackets
    · exact absurd h not_gives_throw
  complete {c ts r e} hn hts h := by
    unfold operandFrom
    cases h with
    | number ht hx =>
      simp only [ht, hx]
      exact ⟨c, .pure hn _, hts, .refl c⟩
    | name ht =>
      simp only [ht]
      exact ⟨c, .pure hn _, hts, .refl c⟩
    | constant ht hx =>
      simp only [ht, command_of_constant hx]
      exact ⟨c, .pure hn _, hts, .refl c⟩
    | @brackets κ _ _ _ _ hx =>
      have hup := complete_upTo hE κ (.refl c) hn hts hx
      cases hx with
      | bracketed ho _ _ =>
        cases κ with
        | brace =>
          simp only [ho]
          exact hup
        | paren =>
          simp only [ho]
          exact hup
    | fraction ht hd hx hy =>
      simp only [ht.1, ht.2]
      exact complete_fraction hE hn hts hd hx hy
    | sqrt ht hx =>
      simp only [ht.1, ht.2]
      obtain ⟨d, hg, hr, hd⟩ := (realizes_group hE).complete (.refl c) hn hts hx
      exact ⟨d, gives_map.2 ⟨_, hg, rfl⟩, hr, hd⟩
    | call ht hc hx =>
      simp only [ht, command_of_not_mem hc]
      obtain ⟨d, hg, hr, hd⟩ := complete_argument hE (.refl c) hn hts hx
      exact ⟨d, gives_map.2 ⟨_, hg, rfl⟩, hr, hd⟩
    | integral ht hx hy hf hd hv =>
      simp only [ht.1, ht.2]
      obtain ⟨d, hb, hr, hcd⟩ := complete_bounds (P := P) hE (.refl c) hn hts hx hy
      exact complete_integrand hE _ _ hb hr hcd hf hd hv
    | integralScripts ht hu hx hop hy hf hd hv =>
      simp only [ht.1, ht.2]
      obtain ⟨d, hb, hr, hcd⟩ := complete_bounds_scripts (E := E) hP (.refl c) hn hts hu hx hop hy
      exact complete_integrand hE _ _ hb hr hcd hf hd hv
    | iteration ht hm ho hw hk hx hy hf =>
      simp only [ht, command_of_iteration hm]
      obtain ⟨d, hg, hr, hcd⟩ := complete_range (P := P) hE (.refl c) hn hts ho hw hk hx hy
      exact complete_body hE hg hcd (hr ▸ hf)
    | iterationScripts ht hm hu ho hw hq hx hk hp hy hf =>
      simp only [ht, command_of_iteration hm]
      obtain ⟨d, hg, hr, hcd⟩ := complete_range_scripts hE hP (.refl c) hn hts hu ho hw hq hx hk hp hy
      exact complete_body hE hg hcd (hr ▸ hf)
    | derivative ht hd hf =>
      simp only [ht.1, ht.2]
      exact complete_derivative hE hn hts hd hf
    | derivativeAt ht hd hs hp hu ho hw hwv hq hx hk hf =>
      subst hwv
      simp only [ht.1, ht.2]
      exact complete_derivativeAt hE hn hts hd hs hp hu ho hw hq hx hk hf

end Headed

/-! ## Operands with signs -/

/-- The three ways in which an operand that may have a sign goes on. -/
theorem gives_operandThen {K : Expr → Parse n Expr} {e : Expr} :
    (operandThen E P K).Gives c e c' ↔ ∃ t d, c.Takes t d ∧
      ((t.IsOp .sub ∧ ∃ x m, (E Op.mul.precedence).Gives d x m ∧
          (K (.binary .sub (.number 0) x)).Gives m e c') ∨
        (t.IsOp .add ∧ ∃ x m, (E Op.mul.precedence).Gives d x m ∧ (K x).Gives m e c') ∨
        (t.kind ≠ .operator ∧ ∃ x m, (operandFrom E P t).Gives d x m ∧ (K x).Gives m e c')) := by
  unfold operandThen
  rw [gives_bind_next]
  constructor
  · intro h
    split at h
    · next t ht =>
      obtain ⟨ts, hts⟩ := List.head?_eq_some_iff.1 ht
      split at h
      · next hk =>
        split at h
        · next hop =>
          obtain ⟨u, d, hu, h⟩ := gives_past.1 h
          obtain ⟨rfl, -⟩ := List.cons.inj (hts.symm.trans hu.1)
          obtain ⟨x, m, hx, h⟩ := gives_bind.1 h
          exact ⟨t, d, hu, .inl ⟨⟨hk, hop⟩, x, m, hx, h⟩⟩
        · next hop =>
          obtain ⟨u, d, hu, h⟩ := gives_past.1 h
          obtain ⟨rfl, -⟩ := List.cons.inj (hts.symm.trans hu.1)
          obtain ⟨x, m, hx, h⟩ := gives_bind.1 h
          exact ⟨t, d, hu, .inr (.inl ⟨⟨hk, hop⟩, x, m, hx, h⟩)⟩
        · exact absurd h not_gives_fail
      · next hk =>
        obtain ⟨u, d, hu, h⟩ := gives_past.1 h
        obtain ⟨rfl, -⟩ := List.cons.inj (hts.symm.trans hu.1)
        obtain ⟨x, m, hx, h⟩ := gives_bind.1 h
        exact ⟨t, d, hu, .inr (.inr ⟨hk, x, m, hx, h⟩)⟩
    · exact absurd h not_gives_fail
  · rintro ⟨t, d, ht, h⟩
    rw [ht.1, List.head?_cons]
    rcases h with ⟨⟨hk, hop⟩, x, m, hx, h⟩ | ⟨⟨hk, hop⟩, x, m, hx, h⟩ | ⟨hk, x, m, hx, h⟩
    · simp only [hk, if_true, hop]
      exact gives_past.2 ⟨t, d, ht, hx.bind h⟩
    · simp only [hk, if_true, hop]
      exact gives_past.2 ⟨t, d, ht, hx.bind h⟩
    · simp only [hk, if_false]
      exact gives_past.2 ⟨t, d, ht, hx.bind h⟩

end Productions

end Parse

end LatexCalc
