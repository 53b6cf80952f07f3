import LatexCalc.Proofs.Reading.Place

/-!
# Parsing at another place

What a parser makes of tokens does not depend on where they stand: of tokens that are moved along a line
it makes the same tree, or it fails at the same token with the same words. `Parse.Mirrors` relates two
steps that do the same at places with the same tokens, one of them moved; the steps that a parser is put
together from respect it (`mirrors_expr`). A parser looks at more than the tokens in three ways, which a
place shares with its image (`Cursor.Image`): whether it is inside an integrand, whether an operand may
have ended before it, and where the line ends.
-/

namespace LatexCalc

/-- The same token, `k` bytes further on. -/
def Token.moved (k : Nat) (t : Token) : Token :=
  { t with offset := t.offset + k }

@[simp] theorem Token.kind_moved (k : Nat) (t : Token) : (t.moved k).kind = t.kind := rfl

@[simp] theorem Token.text_moved (k : Nat) (t : Token) : (t.moved k).text = t.text := rfl

@[simp] theorem Token.differential_moved (k : Nat) (t : Token) :
    (t.moved k).differential? = t.differential? := rfl

/-- The same failure, `k` bytes further on. -/
def ParseError.moved (k : Nat) : ParseError → ParseError
  | unexpectedToken expected found => unexpectedToken expected (found.moved k)
  | unexpectedEnd expected offset => unexpectedEnd expected (offset + k)
  | trailingInput found => trailingInput (found.moved k)
  | mismatchedVariable expected found => mismatchedVariable expected (found.moved k)

/-! ## Looking ahead -/

section

variable {f : Token → Token} (hk : ∀ t, (f t).kind = t.kind) (ht : ∀ t, (f t).text = t.text)

include hk ht

/-- Whether a differential starts is a matter of kinds and texts. -/
theorem startsDifferential_map (ts : List Token) :
    startsDifferential (ts.map f) = startsDifferential ts := by
  have hd (t : Token) : (f t).differential? = t.differential? := by
    rw [Token.differential?, ht, Token.differential?]
  induction ts with
  | nil => rfl
  | cons t ts ih =>
    cases ts with
    | nil => simp only [List.map_cons, List.map_nil, startsDifferential, hk, hd]
    | cons u ts =>
      rw [List.map_cons] at ih
      simp only [List.map_cons, startsDifferential, hk, hd] at ih ⊢
      rw [ih]

/-- So is the header of a derivative. -/
theorem derivativeVariable_map (ts : List Token) :
    derivativeVariable? (ts.map f) = derivativeVariable? ts := by
  have hd (t : Token) : (f t).differential? = t.differential? := by
    rw [Token.differential?, ht, Token.differential?]
  unfold derivativeVariable?
  rcases ts with _ | ⟨a, _ | ⟨b, _ | ⟨c, _ | ⟨d, _ | ⟨e, _ | ⟨g, ts⟩⟩⟩⟩⟩⟩ <;>
    simp only [List.map_cons, List.map_nil, hk, ht, hd]

end

theorem startsDifferential_moved (k : Nat) (ts : List Token) :
    startsDifferential (ts.map (Token.moved k)) = startsDifferential ts :=
  startsDifferential_map (Token.kind_moved k) (Token.text_moved k) ts

theorem derivativeVariable_moved (k : Nat) (ts : List Token) :
    derivativeVariable? (ts.map (Token.moved k)) = derivativeVariable? ts :=
  derivativeVariable_map (Token.kind_moved k) (Token.text_moved k) ts

theorem map_kind_moved (k : Nat) (t : Option Token) :
    (t.map (Token.moved k)).map Token.kind = t.map Token.kind := by
  cases t <;> rfl

/-! ## Places -/

namespace Cursor

/-- A place with the same tokens left, `k` bytes further on in a line that is as much longer. -/
structure Image (k : Nat) (c c' : Cursor) : Prop where
  rest : c'.rest = c.rest.map (Token.moved k)
  inside : c'.inside = c.inside
  afterOperand : c'.afterOperand = c.afterOperand
  size : c'.size = c.size + k

namespace Image

variable {k : Nat} {c c' : Cursor}

theorem head (h : c.Image k c') : c'.rest.head? = c.rest.head?.map (Token.moved k) := by
  rw [h.rest, List.head?_map]

theorem advance (h : c.Image k c') : c.advance.Image k c'.advance where
  rest := by rw [rest_advance, rest_advance, h.rest, List.map_tail]
  inside := by rw [Cursor.inside, Cursor.inside, integrands_advance, integrands_advance]; exact h.inside
  afterOperand := by
    cases hr : c.rest with
    | nil =>
      rw [advance_of_nil hr, advance_of_nil (by rw [h.rest, hr]; rfl)]
      exact h.afterOperand
    | cons t ts =>
      have hr' : c'.rest = t.moved k :: ts.map (Token.moved k) := by rw [h.rest, hr]; rfl
      rw [Cursor.afterOperand, Cursor.afterOperand, previous_advance hr, previous_advance hr']
      rfl
  size := by
    unfold Cursor.advance
    rw [h.rest]
    cases c.rest <;> exact h.size

theorem deepen (h : c.Image k c') : c.deepen.Image k c'.deepen where
  rest := h.rest
  inside := by rw [inside_deepen, inside_deepen]
  afterOperand := h.afterOperand
  size := h.size

theorem unexpected (h : c.Image k c') (e : Expectation) (t : Option Token) :
    c'.unexpected e (t.map (Token.moved k)) = (c.unexpected e t).moved k := by
  cases t with
  | none => simp [Cursor.unexpected, ParseError.moved, h.size]
  | some t => rfl

theorem juxtaposed (h : c.Image k c') : c'.juxtaposed = c.juxtaposed := by
  have hafter := h.afterOperand
  have hinside := h.inside
  unfold Cursor.afterOperand at hafter
  unfold Cursor.inside at hinside
  unfold Cursor.juxtaposed
  rw [hafter, hinside, h.head, map_kind_moved, h.rest, startsDifferential_moved]

end Image

/-- The places `d` and `d'`, to which two steps come from `c` and `c'`: each is in as many integrands as
the step began in, and `d'` has the tokens of `d`. -/
structure Along (k : Nat) (c c' d d' : Cursor) : Prop where
  image : d.Image k d'
  integrands : d.integrands = c.integrands
  integrands' : d'.integrands = c'.integrands

theorem Along.trans {k : Nat} {c c' d d' e e' : Cursor} (h : Along k c c' d d')
    (h' : Along k d d' e e') : Along k c c' e e' :=
  ⟨h'.image, h'.integrands.trans h.integrands, h'.integrands'.trans h.integrands'⟩

theorem Image.along {k : Nat} {c c' : Cursor} (h : c.Image k c') : Along k c c' c c' :=
  ⟨h, rfl, rfl⟩

theorem Image.along_advance {k : Nat} {c c' : Cursor} (h : c.Image k c') :
    Along k c c' c.advance c'.advance :=
  ⟨h.advance, c.integrands_advance, c'.integrands_advance⟩

/-- Out of the integrand again, places are inside one just if they were before it. -/
theorem Along.surface {k : Nat} {c c' d d' : Cursor} (hc : c.Image k c')
    (h : Along k c.deepen c'.deepen d d') : Along k c c' d.surface d'.surface := by
  have hd : d.surface.integrands = c.integrands := by
    show d.integrands - 1 = c.integrands
    rw [h.integrands]
    rfl
  have hd' : d'.surface.integrands = c'.integrands := by
    show d'.integrands - 1 = c'.integrands
    rw [h.integrands']
    rfl
  refine ⟨⟨h.image.rest, ?_, h.image.afterOperand, h.image.size⟩, hd, hd'⟩
  have hinside := hc.inside
  unfold Cursor.inside at hinside ⊢
  rw [hd, hd', hinside]

end Cursor

/-! ## Steps -/

namespace Parse

open Cursor

variable {n n' : Nat} {α α' β β' : Type} {k : Nat}

/-- The outcomes of two steps that begin at `c` and `c'`: values that `V` relates, or the same failure. -/
inductive Same (k : Nat) (V : α → α' → Prop) (c : Below n) (c' : Below n') :
    EStateM.Result ParseError (Below n) α → EStateM.Result ParseError (Below n') α' → Prop
  | ok {a a' d d'} (hv : V a a') (hd : Along k c.1 c'.1 d.1 d'.1) :
    Same k V c c' (.ok a d) (.ok a' d')
  | error {e d d'} (hd : Along k c.1 c'.1 d.1 d'.1) :
    Same k V c c' (.error e d) (.error (e.moved k) d')

theorem Same.trans {V : α → α' → Prop} {c d : Below n} {c' d' : Below n'} {r r'}
    (h : Same k V d d' r r') (hd : Along k c.1 c'.1 d.1 d'.1) : Same k V c c' r r' := by
  cases h with
  | ok hv he => exact .ok hv (hd.trans he)
  | error he => exact .error (hd.trans he)

/-- What a step past a token makes of the outcome of the rest. -/
theorem past_of_cons {e : Expectation} {f : Token → Parse n α} {c : Below (n + 1)} {t : Token}
    {ts : List Token} (h : c.1.rest = t :: ts) : ∃ hc, past e f c =
      match f t ⟨c.1.advance, hc⟩ with
      | .ok a d => .ok a d.widen
      | .error e d => .error e d.widen := by
  have hc : c.1.advance.rest.length < n := by
    have := c.2
    rw [rest_advance, h, List.tail_cons]
    rw [h, List.length_cons] at this
    omega
  refine ⟨hc, ?_⟩
  unfold past
  split
  · next hnil => exact absurd (h.symm.trans hnil) (List.cons_ne_nil _ _)
  · next u us hus =>
    obtain ⟨rfl, -⟩ := List.cons.inj (h.symm.trans hus)
    rfl

theorem past_of_nil {e : Expectation} {f : Token → Parse n α} {c : Below (n + 1)}
    (h : c.1.rest = []) : past e f c = .error (c.1.unexpected e none) c := by
  unfold past
  split
  · rfl
  · next hcons => exact absurd (h.symm.trans hcons) (List.cons_ne_nil _ _).symm

/-- Two steps that do the same, the second one with tokens that are moved by `k` bytes. -/
def Mirrors (k : Nat) (V : α → α' → Prop) (x : Parse n α) (x' : Parse n' α') : Prop :=
  ∀ c c', c.1.Image k c'.1 → Same k V c c' (x c) (x' c')

namespace Mirrors

variable {V : α → α' → Prop} {W : β → β' → Prop} {x : Parse n α} {x' : Parse n' α'}

theorem pure {a : α} {a' : α'} (h : V a a') : Mirrors k V (pure a : Parse n α) (pure a' : Parse n' α') :=
  fun _ _ hc => .ok h hc.along

theorem throw (e : ParseError) :
    Mirrors k V (throw e : Parse n α) (throw (e.moved k) : Parse n' α') :=
  fun _ _ hc => .error hc.along

theorem bind {f : α → Parse n β} {f' : α' → Parse n' β'} (hx : Mirrors k V x x')
    (hf : ∀ a a', V a a' → Mirrors k W (f a) (f' a')) : Mirrors k W (x >>= f) (x' >>= f') := by
  intro c c' hc
  have h := hx c c' hc
  show Same k W c c' (EStateM.bind x f c) (EStateM.bind x' f' c')
  unfold EStateM.bind
  cases hr : x c <;> cases hr' : x' c' <;> rw [hr, hr'] at h <;> cases h
  case ok.ok hv hd => exact (hf _ _ hv _ _ hd.image).trans hd
  case error.error hd => exact .error hd

/-- A step whose value is the same, and one that goes on with it. -/
theorem bind_eq {x : Parse n α} {x' : Parse n' α} {f : α → Parse n β} {f' : α → Parse n' β'}
    (hx : Mirrors k Eq x x') (hf : ∀ a, Mirrors k W (f a) (f' a)) :
    Mirrors k W (x >>= f) (x' >>= f') :=
  hx.bind fun a _ h => h ▸ hf a

/-- A step whose value is a token, and one that goes on with it. -/
theorem bind_moved {x : Parse n Token} {x' : Parse n' Token} {f : Token → Parse n β}
    {f' : Token → Parse n' β'} (hx : Mirrors k (fun t t' => t' = t.moved k) x x')
    (hf : ∀ t, Mirrors k W (f t) (f' (t.moved k))) : Mirrors k W (x >>= f) (x' >>= f') :=
  hx.bind fun t _ h => h ▸ hf t

theorem map {x : Parse n α} {x' : Parse n' α} (hx : Mirrors k Eq x x') (f : α → β) :
    Mirrors k Eq (f <$> x) (f <$> x') := by
  rw [map_eq_pure_bind, map_eq_pure_bind]
  exact hx.bind_eq fun a => pure rfl

theorem ite {p p' : Prop} [Decidable p] [Decidable p'] {y : Parse n α} {y' : Parse n' α'}
    (hp : p' ↔ p) (hx : Mirrors k V x x') (hy : Mirrors k V y y') :
    Mirrors k V (if p then x else y) (if p' then x' else y') := by
  by_cases h : p
  · rwa [if_pos h, if_pos (hp.2 h)]
  · rwa [if_neg h, if_neg (mt hp.1 h)]

/-! ### Steps at one token -/

theorem tokens : Mirrors k (fun ts ts' => ts' = ts.map (Token.moved k)) (tokens : Parse n _)
    (tokens : Parse n' _) :=
  fun _ _ hc => .ok hc.rest hc.along

theorem next : Mirrors k (fun t t' => t' = t.map (Token.moved k)) (next? : Parse n _)
    (next? : Parse n' _) :=
  fun _ _ hc => .ok hc.head hc.along

theorem nextKind : Mirrors k Eq (nextKind? : Parse n _) (nextKind? : Parse n' _) :=
  next.bind fun t _ h => pure (by rw [h, map_kind_moved])

theorem get : Mirrors k (fun c c' => c'.1.juxtaposed = c.1.juxtaposed) (get : Parse n (Below n))
    (get : Parse n' (Below n')) :=
  fun _ _ hc => .ok hc.juxtaposed hc.along

theorem advance : Mirrors k Eq (advance : Parse n _) (advance : Parse n' _) :=
  fun _ _ hc => .ok rfl hc.along_advance

theorem skip (m : Nat) : Mirrors k Eq (skip m : Parse n _) (skip m : Parse n' _) := by
  induction m with
  | zero => exact pure rfl
  | succ m ih => exact advance.bind_eq fun _ => ih

theorem fail (e : Expectation) : Mirrors k V (fail e : Parse n α) (fail e : Parse n' α') := by
  intro c c' hc
  show Same k V c c' (.error (c.1.unexpected e c.1.rest.head?) c)
    (.error (c'.1.unexpected e c'.1.rest.head?) c')
  rw [hc.head, hc.unexpected]
  exact .error hc.along

variable {p : Token → Bool}

theorem expectWith (hp : ∀ t, p (t.moved k) = p t) (e : Expectation) :
    Mirrors k (fun t t' => t' = t.moved k) (expectWith e p : Parse n _)
      (expectWith e p : Parse n' _) := by
  refine next.bind fun t t' h => ?_
  subst h
  cases t with
  | none => exact fail e
  | some t =>
    exact ite (by rw [hp]) (advance.bind_eq fun _ => pure rfl) (fail e)

theorem expect (kind : TokenKind) : Mirrors k (fun t t' => t' = t.moved k)
    (expect kind : Parse n _) (expect kind : Parse n' _) :=
  expectWith (fun _ => rfl) _

theorem expectOp (op : Op) : Mirrors k (fun t t' => t' = t.moved k)
    (expectOp op : Parse n _) (expectOp op : Parse n' _) :=
  expectWith (fun _ => rfl) _

theorem expectName : Mirrors k (fun t t' => t' = t.moved k) (expectName : Parse n _)
    (expectName : Parse n' _) :=
  expectWith (fun _ => rfl) _

theorem inIntegrand (hx : Mirrors k V x x') : Mirrors k V (inIntegrand x) (inIntegrand x') := by
  intro c c' hc
  have h := hx ⟨c.1.deepen, c.2⟩ ⟨c'.1.deepen, c'.2⟩ hc.deepen
  show Same k V c c' (match x ⟨c.1.deepen, c.2⟩ with | .ok a d => _ | .error e d => _)
    (match x' ⟨c'.1.deepen, c'.2⟩ with | .ok a d => _ | .error e d => _)
  cases hr : x ⟨c.1.deepen, c.2⟩ <;> cases hr' : x' ⟨c'.1.deepen, c'.2⟩ <;> rw [hr, hr'] at h <;>
    cases h
  case ok.ok hv hd => exact .ok hv (hd.surface hc)
  case error.error hd => exact .error (hd.surface hc)

theorem past {f : Token → Parse n α} {f' : Token → Parse n' α'}
    (hf : ∀ t, Mirrors k V (f t) (f' (t.moved k))) (e : Expectation) :
    Mirrors k V (past e f) (past e f') := by
  intro c c' hc
  cases hr : c.1.rest with
  | nil =>
    have hfail : c'.1.unexpected e none = (c.1.unexpected e none).moved k := hc.unexpected e none
    rw [past_of_nil hr, past_of_nil (by rw [hc.rest, hr]; rfl), hfail]
    exact .error hc.along
  | cons t ts =>
    have hr' : c'.1.rest = t.moved k :: ts.map (Token.moved k) := by rw [hc.rest, hr]; rfl
    obtain ⟨hb, h⟩ := past_of_cons (e := e) (f := f) hr
    obtain ⟨hb', h'⟩ := past_of_cons (e := e) (f := f') hr'
    have hsame := (hf t ⟨_, hb⟩ ⟨_, hb'⟩ hc.advance)
    rw [h, h']
    cases ho : f t ⟨_, hb⟩ <;> cases ho' : f' (t.moved k) ⟨_, hb'⟩ <;> rw [ho, ho'] at hsame <;>
      cases hsame
    case ok.ok hv hd => exact .ok hv (hc.along_advance.trans hd)
    case error.error hd => exact .error (hc.along_advance.trans hd)

/-! ### Productions -/

variable {E : Nat → Parse n Expr} {E' : Nat → Parse n' Expr} {P : Parse n Expr} {P' : Parse n' Expr}
  (hE : ∀ p, Mirrors k Eq (E p) (E' p)) (hP : Mirrors k Eq P P')

include hE

theorem upTo (close : TokenKind) : Mirrors k Eq (upTo E close) (upTo E' close) :=
  (hE 0).bind_eq fun _ => (expect close).bind_moved fun _ => pure rfl

theorem group : Mirrors k Eq (group E) (group E') :=
  (expect .braceOpen).bind_moved fun _ => upTo hE .braceClose

theorem argument : Mirrors k Eq (argument E) (argument E') := by
  refine nextKind.bind_eq fun kind => ?_
  split
  · exact advance.bind_eq fun _ => upTo hE .braceClose
  · exact advance.bind_eq fun _ => upTo hE .parenClose
  · exact fail .argument

theorem point (v : String) : Mirrors k Eq (point E v) (point E' v) := by
  refine (expect .pipe).bind_moved fun _ => (expect .underscore).bind_moved fun _ =>
    (expect .braceOpen).bind_moved fun _ => expectName.bind_moved fun t => ?_
  have hrest : Mirrors k Eq (do let _ ← Parse.expect .equal; Parse.upTo E .braceClose)
      (do let _ ← Parse.expect .equal; Parse.upTo E' .braceClose) :=
    (expect .equal).bind_moved fun _ => upTo hE .braceClose
  exact ite Iff.rfl ((throw (.mismatchedVariable v t)).bind_eq fun _ => hrest) hrest

theorem derivative (v : String) : Mirrors k Eq (derivative E v) (derivative E' v) := by
  refine nextKind.bind_eq fun kind => ?_
  split
  · exact (point hE v).bind_eq fun _ => (hE 0).bind_eq fun _ => pure rfl
  · exact (hE 0).bind_eq fun _ => pure rfl

theorem fraction : Mirrors k Eq (fraction E) (fraction E') := by
  refine tokens.bind fun ts ts' h => ?_
  subst h
  rw [derivativeVariable_moved]
  split
  · exact (skip 6).bind_eq fun _ => derivative hE _
  · exact (group hE).bind_eq fun _ => (group hE).bind_eq fun _ => pure rfl

include hP

theorem bounds : Mirrors k Eq (bounds E P) (bounds E' P') := by
  refine nextKind.bind_eq fun kind => ?_
  split
  · exact advance.bind_eq fun _ => hP.bind_eq fun _ => (expectOp .pow).bind_moved fun _ =>
      hP.bind_eq fun _ => pure rfl
  · exact (group hE).bind_eq fun _ => (group hE).bind_eq fun _ => pure rfl

omit hE hP in
theorem differential : Mirrors k Eq (differential : Parse n _) (differential : Parse n' _) := by
  refine tokens.bind fun ts ts' h => ?_
  subst h
  have hname : (ts.map (Token.moved k)).head?.bind Token.differential? =
      ts.head?.bind Token.differential? := by
    cases ts <;> rfl
  rw [hname, startsDifferential_moved]
  split
  · split
    · exact advance.bind_eq fun _ => pure rfl
    · exact fail .differential
  · exact fail .differential

theorem integral : Mirrors k Eq (integral E P) (integral E' P') :=
  (bounds hE hP).bind_eq fun _ => (inIntegrand (hE 0)).bind_eq fun _ =>
    differential.bind_eq fun _ => pure rfl

theorem range : Mirrors k Eq (range E P) (range E' P') := by
  refine nextKind.bind_eq fun kind => ?_
  split
  · exact advance.bind_eq fun _ => (expect .braceOpen).bind_moved fun _ =>
      expectName.bind_moved fun _ => (expect .equal).bind_moved fun _ =>
        (upTo hE .braceClose).bind_eq fun _ => (expectOp .pow).bind_moved fun _ =>
          hP.bind_eq fun _ => pure rfl
  · exact (expect .braceOpen).bind_moved fun _ => expectName.bind_moved fun _ =>
      (expect .braceClose).bind_moved fun _ => (group hE).bind_eq fun _ =>
        (group hE).bind_eq fun _ => pure rfl

theorem iteration (make : String → Expr → Expr → Expr → Expr) :
    Mirrors k Eq (iteration E P make) (iteration E' P' make) :=
  (range hE hP).bind_eq fun _ => (hE 0).bind_eq fun _ => pure rfl

theorem command (name : String) : Mirrors k Eq (command E P name) (command E' P' name) := by
  unfold Parse.command
  split
  · exact fraction hE
  · exact (group hE).map _
  · exact integral hE hP
  · exact iteration hE hP _
  · exact iteration hE hP _
  · exact pure rfl
  · exact pure rfl
  · exact (argument hE).map _

theorem operandFrom (t : Token) :
    Mirrors k Eq (operandFrom E P t) (operandFrom E' P' (t.moved k)) := by
  unfold Parse.operandFrom
  rw [Token.kind_moved, Token.text_moved]
  split
  · split
    · exact pure rfl
    · exact throw (.unexpectedToken .number t)
  · exact pure rfl
  · exact command hE hP _
  · exact upTo hE .parenClose
  · exact upTo hE .braceClose
  · exact throw (.unexpectedToken .expression t)

theorem operandThen {K : Expr → Parse n Expr} {K' : Expr → Parse n' Expr}
    (hK : ∀ e, Mirrors k Eq (K e) (K' e)) :
    Mirrors k Eq (operandThen E P K) (operandThen E' P' K') := by
  refine next.bind fun t t' h => ?_
  subst h
  cases t with
  | none => exact fail .expression
  | some t =>
    refine ite Iff.rfl ?_ ?_
    · rw [Token.text_moved]
      split
      · refine past (fun _ => ?_) .expression
        exact (hE _).bind_eq fun _ => hK _
      · refine past (fun _ => ?_) .expression
        exact (hE _).bind_eq fun _ => hK _
      · exact fail .expression
    · refine past (fun t => ?_) .expression
      exact (operandFrom hE hP t).bind_eq fun _ => hK _

end Mirrors

/-! ### Expressions -/

/-- No step begins with fewer than no tokens left. -/
theorem mirrors_zero {V : α → α' → Prop} {x : Parse n α} {x' : Parse n' α'} (h : n = 0 ∨ n' = 0) :
    Mirrors k V x x' := by
  intro c c' _
  rcases h with rfl | rfl
  · exact c.elim_zero.elim
  · exact c'.elim_zero.elim

/-- **An expression is read in the same way wherever its tokens stand**, and with however many of them
at most. -/
theorem mirrors_expr (k n n' : Nat) :
    (∀ p, Mirrors k Eq (expr n p) (expr n' p)) ∧
    (∀ p e, Mirrors k Eq (climb n p e) (climb n' p e)) ∧ Mirrors k Eq (primary n) (primary n') := by
  induction n generalizing n' with
  | zero => exact ⟨fun _ => mirrors_zero (.inl rfl), fun _ _ => mirrors_zero (.inl rfl),
      mirrors_zero (.inl rfl)⟩
  | succ n ih =>
    cases n' with
    | zero => exact ⟨fun _ => mirrors_zero (.inr rfl), fun _ _ => mirrors_zero (.inr rfl),
        mirrors_zero (.inr rfl)⟩
    | succ n' =>
      obtain ⟨hE, hC, hP⟩ := ih n'
      refine ⟨fun p => ?_, fun p e => ?_, ?_⟩
      · rw [expr, expr]
        exact Mirrors.operandThen hE hP (hC p)
      · rw [climb, climb]
        refine Mirrors.next.bind fun t t' h => ?_
        subst h
        cases t with
        | none => exact .pure rfl
        | some t =>
          refine .ite Iff.rfl ?_ ?_
          · rw [Token.text_moved]
            split
            · exact .fail .operator
            · refine .ite Iff.rfl (.pure rfl) (.past (fun _ => ?_) .expression)
              exact (hE _).bind_eq fun _ => hC _ _
          · refine Mirrors.get.bind fun c c' h => .ite (by rw [h]) ?_ (.pure rfl)
            exact Mirrors.operandThen hE hP fun _ => (hC _ _).bind_eq fun _ => hC _ _
      · rw [primary, primary]
        exact .past (Mirrors.operandFrom hE hP) .expression

end Parse

end LatexCalc
