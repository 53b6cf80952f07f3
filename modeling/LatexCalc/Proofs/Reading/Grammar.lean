import LatexCalc.Proofs.Decimal.Unsigned
import LatexCalc.Proofs.Reading.Chain
import LatexCalc.Proofs.Reading.Run

/-!
# The grammar of expressions

`Derives` is the grammar that lines are written in. It is ambiguous: nothing in it tells how tightly
operators bind, how far a sign reaches or where the body of a sum ends. The parser follows it.

* What the parser gives for a list of tokens is derived from the whole list (`Reads.derived`).
* The parser takes every list that can be derived, except where it is greedy: the last part of a sum,
  a product or a derivative goes on as far as an expression can. So where such an operand is a script,
  a bound of the form `_P^P`, an expression has to end after it (`Fits`, `Derives.read`).
-/

namespace LatexCalc

/-! ## The grammar -/

/-- The nonterminals. An operand is an expression without a sign in front that no operator or product
forms; `openEnd` tells whether it ends with an expression, as sums, products and derivatives do. -/
inductive Nonterminal
  | expr
  | operand (openEnd : Bool)
  | bracketed (κ : Bracket)

/-- The tokens of the fourth argument up to those of the last one form an expression. The flag `b`
tells whether that happens inside an integrand, at whatever depth of brackets. Scripts have to satisfy
`Script`, given whether they have an open end, the flag, and the tokens after them. -/
inductive Derives (Script : Bool → Bool → List Token → Prop) :
    Nonterminal → Bool → List Token → Expr → List Token → Prop
  | operand {w b ts x r} (hx : Derives Script (.operand w) b ts x r) : Derives Script .expr b ts x r
  | minus {b t ts x r} (ht : t.IsOp .sub) (hx : Derives Script .expr b ts x r) :
      Derives Script .expr b (t :: ts) (.binary .sub (.number 0) x) r
  | plus {b t ts x r} (ht : t.IsOp .add) (hx : Derives Script .expr b ts x r) :
      Derives Script .expr b (t :: ts) x r
  | operator {b ts x t op m y r} (hx : Derives Script .expr b ts x (t :: m)) (ht : t.IsOp op)
      (hy : Derives Script .expr b m y r) : Derives Script .expr b ts (.binary op x y) r
  | product {b ts x m y r} (hx : Derives Script .expr b ts x m)
      (hd : ¬(b = true ∧ startsDifferential m = true)) (hy : Derives Script .expr b m y r) :
      Derives Script .expr b ts (.binary .mul x y) r
  | bracketed {κ b o ts x c r} (ho : o.kind = κ.opening) (hx : Derives Script .expr b ts x (c :: r))
      (hc : c.kind = κ.closing) : Derives Script (.bracketed κ) b (o :: ts) x r
  | number {b t r x} (ht : t.kind = .number) (hx : readFloat? t.text = some x) :
      Derives Script (.operand false) b (t :: r) (.number x) r
  | name {b t r} (ht : t.kind = .identifier) :
      Derives Script (.operand false) b (t :: r) (.ident t.text) r
  | constant {b t r x} (ht : t.kind = .function) (hx : constant? t.command = some x) :
      Derives Script (.operand false) b (t :: r) (.number x) r
  | brackets {κ b ts x r} (hx : Derives Script (.bracketed κ) b ts x r) :
      Derives Script (.operand false) b ts x r
  | fraction {b t ts x m y r} (ht : t.IsCommand "frac") (hd : derivativeVariable? ts = none)
      (hx : Derives Script (.bracketed .brace) b ts x m)
      (hy : Derives Script (.bracketed .brace) b m y r) :
      Derives Script (.operand false) b (t :: ts) (.fraction x y) r
  | sqrt {b t ts x r} (ht : t.IsCommand "sqrt") (hx : Derives Script (.bracketed .brace) b ts x r) :
      Derives Script (.operand false) b (t :: ts) (.sqrt x) r
  | call {κ b t ts x r} (ht : t.kind = .function) (hn : t.command ∉ headedCommands)
      (hx : Derives Script (.bracketed κ) b ts x r) :
      Derives Script (.operand false) b (t :: ts) (.call t.command x) r
  | integral {b t ts x m y k f d r v} (ht : t.IsCommand "int")
      (hx : Derives Script (.bracketed .brace) b ts x m)
      (hy : Derives Script (.bracketed .brace) b m y k) (hf : Derives Script .expr true k f (d :: r))
      (hd : startsDifferential (d :: r) = true) (hv : d.differential? = some v) :
      Derives Script (.operand false) b (t :: ts) (.integral v x y f) r
  | integralScripts {w w' b t u ts x c m y k f d r v} (ht : t.IsCommand "int")
      (hu : u.kind = .underscore) (hx : Derives Script (.operand w) b ts x (c :: m))
      (hw : Script w b (c :: m)) (hc : c.IsOp .pow) (hy : Derives Script (.operand w') b m y k)
      (hw' : Script w' b k) (hf : Derives Script .expr true k f (d :: r))
      (hd : startsDifferential (d :: r) = true) (hv : d.differential? = some v) :
      Derives Script (.operand false) b (t :: u :: ts) (.integral v x y f) r
  | iteration {b t make o v c ts x m y k f r} (ht : t.kind = .function)
      (hm : iteration? t.command = some make) (ho : o.kind = .braceOpen) (hv : v.kind = .identifier)
      (hc : c.kind = .braceClose) (hx : Derives Script (.bracketed .brace) b ts x m)
      (hy : Derives Script (.bracketed .brace) b m y k) (hf : Derives Script .expr b k f r) :
      Derives Script (.operand true) b (t :: o :: v :: c :: ts) (make v.text x y f) r
  | iterationScripts {w b t make u o v q ts x c p m y k f r} (ht : t.kind = .function)
      (hm : iteration? t.command = some make) (hu : u.kind = .underscore) (ho : o.kind = .braceOpen)
      (hv : v.kind = .identifier) (hq : q.kind = .equal)
      (hx : Derives Script .expr b ts x (c :: p :: m)) (hc : c.kind = .braceClose) (hp : p.IsOp .pow)
      (hy : Derives Script (.operand w) b m y k) (hw : Script w b k)
      (hf : Derives Script .expr b k f r) :
      Derives Script (.operand true) b (t :: u :: o :: v :: q :: ts) (make v.text x y f) r
  | derivative {b t ts v f r} (ht : t.IsCommand "frac") (hd : derivativeVariable? ts = some v)
      (hf : Derives Script .expr b (ts.drop 6) f r) :
      Derives Script (.operand true) b (t :: ts) (.derivative v f) r
  | derivativeAt {b t ts v p u o n q k x c m f r} (ht : t.IsCommand "frac")
      (hd : derivativeVariable? ts = some v) (hs : ts.drop 6 = p :: u :: o :: n :: q :: k)
      (hp : p.kind = .pipe) (hu : u.kind = .underscore) (ho : o.kind = .braceOpen)
      (hn : n.kind = .identifier) (hnv : n.text = v) (hq : q.kind = .equal)
      (hx : Derives Script .expr b k x (c :: m)) (hc : c.kind = .braceClose)
      (hf : Derives Script .expr b m f r) :
      Derives Script (.operand true) b (t :: ts) (.derivativeAt v x f) r

/-- Any operand may be a script. -/
def Anywhere (_openEnd _b : Bool) (_ts : List Token) : Prop :=
  True

/-- The operands without an open end may be scripts. -/
def Closed (openEnd _b : Bool) (_ts : List Token) : Prop :=
  openEnd = false

/-- An operand with an open end may be a script where an expression ends after it. -/
def Fits (openEnd b : Bool) (ts : List Token) : Prop :=
  openEnd = true → Stops 0 b ts

section

variable {Script Script' : Bool → Bool → List Token → Prop} {s : Nonterminal} {b : Bool}
  {ts r : List Token} {e : Expr}

/-- A looser condition on scripts derives more. -/
theorem Derives.mono (hS : ∀ w b ts, Script w b ts → Script' w b ts) (h : Derives Script s b ts e r) :
    Derives Script' s b ts e r := by
  induction h with
  | operand _ hx => exact .operand hx
  | minus ht _ hx => exact .minus ht hx
  | plus ht _ hx => exact .plus ht hx
  | operator _ ht _ hx hy => exact .operator hx ht hy
  | product _ hd _ hx hy => exact .product hx hd hy
  | bracketed ho _ hc hx => exact .bracketed ho hx hc
  | number ht hx => exact .number ht hx
  | name ht => exact .name ht
  | constant ht hx => exact .constant ht hx
  | brackets _ hx => exact .brackets hx
  | fraction ht hd _ _ hx hy => exact .fraction ht hd hx hy
  | sqrt ht _ hx => exact .sqrt ht hx
  | call ht hn _ hx => exact .call ht hn hx
  | integral ht _ _ _ hd hv hx hy hf => exact .integral ht hx hy hf hd hv
  | integralScripts ht hu _ hw hc _ hw' _ hd hv hx hy hf =>
    exact .integralScripts ht hu hx (hS _ _ _ hw) hc hy (hS _ _ _ hw') hf hd hv
  | iteration ht hm ho hv hc _ _ _ hx hy hf => exact .iteration ht hm ho hv hc hx hy hf
  | iterationScripts ht hm hu ho hv hq _ hc hp _ hw _ hx hy hf =>
    exact .iterationScripts ht hm hu ho hv hq hx hc hp hy (hS _ _ _ hw) hf
  | derivative ht hd _ hf => exact .derivative ht hd hf
  | derivativeAt ht hd hs hp hu ho hn hnv hq _ hc _ hx hf =>
    exact .derivativeAt ht hd hs hp hu ho hn hnv hq hx hc hf

/-! ## What is read is derived -/

/-- What a phase of reading derives. Climbing extends an expression that ends where it starts. -/
def Phase.Derived : Phase → Bool → List Token → Expr → List Token → Prop
  | .expr _, b, ts, e, r => Derives Fits .expr b ts e r
  | .climb _ lhs, b, ts, e, r => ∀ s, Derives Fits .expr b s lhs ts → Derives Fits .expr b s e r
  | .operand, b, ts, e, r => ∃ w, Derives Fits (.operand w) b ts e r ∧ Fits w b r
  | .bracketed κ, b, ts, e, r => Derives Fits (.bracketed κ) b ts e r

/-- **Every reading is a derivation**, with scripts that fit. -/
theorem Reads.derived {ph : Phase} (h : Reads ph b ts e r) : ph.Derived b ts e r := by
  have hclosed {b : Bool} {r : List Token} : Fits false b r := fun hw => by cases hw
  induction h with
  | minus ht _ _ hx he => exact he _ (.minus ht hx)
  | plus ht _ _ hx he => exact he _ (.plus ht hx)
  | unsigned _ _ hx he =>
    obtain ⟨w, hx, -⟩ := hx
    exact he _ (.operand hx)
  | stop => exact fun _ hl => hl
  | operator ht _ _ _ hx he => exact fun s hl => he s (.operator hl ht hx)
  | factor _ hj _ _ hx he =>
    intro s hl
    simp only [juxtaposes, Bool.and_eq_true, Bool.not_eq_true', Bool.and_eq_false_iff] at hj
    refine he s (.product hl ?_ hx)
    rintro ⟨hb, hd⟩
    simp [hb, hd] at hj
  | bracketed ho _ hc hx => exact .bracketed ho hx hc
  | number ht hx => exact ⟨false, .number ht hx, hclosed⟩
  | name ht => exact ⟨false, .name ht, hclosed⟩
  | constant ht hx => exact ⟨false, .constant ht hx, hclosed⟩
  | brackets _ hx => exact ⟨false, .brackets hx, hclosed⟩
  | fraction ht hd _ _ hx hy => exact ⟨false, .fraction ht hd hx hy, hclosed⟩
  | sqrt ht _ hx => exact ⟨false, .sqrt ht hx, hclosed⟩
  | call ht hn _ hx => exact ⟨false, .call ht hn hx, hclosed⟩
  | integral ht _ _ _ hd hv hx hy hf => exact ⟨false, .integral ht hx hy hf hd hv, hclosed⟩
  | integralScripts ht hu _ hc _ _ hd hv hx hy hf =>
    obtain ⟨w, hx, hw⟩ := hx
    obtain ⟨w', hy, hw'⟩ := hy
    exact ⟨false, .integralScripts ht hu hx hw hc hy hw' hf hd hv, hclosed⟩
  | iteration ht hm ho hv hc _ _ hr hx hy hf =>
    exact ⟨true, .iteration ht hm ho hv hc hx hy hf, fun _ => hr.stops⟩
  | iterationScripts ht hm hu ho hv hq _ hc hp _ hr hx hy hf =>
    obtain ⟨w, hy, hw⟩ := hy
    exact ⟨true, .iterationScripts ht hm hu ho hv hq hx hc hp hy hw hf, fun _ => hr.stops⟩
  | derivative ht hd hr hf => exact ⟨true, .derivative ht hd hf, fun _ => hr.stops⟩
  | derivativeAt ht hd hs hp hu ho hn hnv hq _ hc hr hx hf =>
    exact ⟨true, .derivativeAt ht hd hs hp hu ho hn hnv hq hx hc hf, fun _ => hr.stops⟩

/-! ## What is derived is read -/

/-- After some operand, an expression goes on from the tokens `ts` up to `r`. -/
def Goes (b : Bool) (ts r : List Token) : Prop :=
  ∃ lhs e, Reads (.climb 0 lhs) b ts e r

theorem Goes.after (h : Goes b ts r) (lhs : Expr) : ∃ e, Reads (.climb 0 lhs) b ts e r := by
  obtain ⟨lhs', e, h⟩ := h
  exact h.climb_after lhs

theorem Stops.goes (h : Stops 0 b ts) : Goes b ts ts :=
  ⟨.number 0, _, .stop h⟩

/-- From an operator or a factor on, an expression goes on. -/
theorem Goes.of_factor {m : List Token} (hd : ¬(b = true ∧ startsDifferential ts = true))
    (h : Reads (.expr 0) b ts e m) : Goes b ts m := by
  cases h with
  | minus ht hx he =>
    obtain ⟨e', he'⟩ := he.climb_after (.binary .sub (.number 0) _)
    exact ⟨.number 0, e', .operator ht (Nat.zero_le _) hx he'⟩
  | plus ht hx he =>
    obtain ⟨e', he'⟩ := he.climb_after (.binary .add (.number 0) _)
    exact ⟨.number 0, e', .operator ht (Nat.zero_le _) hx he'⟩
  | unsigned hx he =>
    have hj : juxtaposes b ts = true := by
      obtain ⟨t, s, rfl, ht⟩ := hx.startsOperand
      rw [← Bool.and_eq_true, Bool.not_eq_true] at hd
      rw [juxtaposes, hd]
      simp [ht]
    have hle : 0 ≤ Op.mul.precedence + 1 := Nat.zero_le _
    obtain ⟨x, k, hx', he'⟩ := (Reads.unsigned hx he).expr_staged hle
    obtain ⟨e', he'⟩ := he'.climb_after (.binary .mul (.number 0) x)
    exact ⟨.number 0, e', .factor (Nat.zero_le _) hj hx' he'⟩

theorem Goes.of_operator {t : Token} {op : Op} {m : List Token} (ht : t.IsOp op)
    (h : Reads (.expr 0) b ts e m) : Goes b (t :: ts) m := by
  obtain ⟨x, k, hx, he⟩ := h.expr_staged (Nat.zero_le op.rightPrecedence)
  obtain ⟨e', he'⟩ := he.climb_after (.binary op (.number 0) x)
  exact ⟨.number 0, e', .operator ht (Nat.zero_le _) hx he'⟩

/-- What a nonterminal is read as. An expression is read as far as one can go. -/
def Nonterminal.Read : Nonterminal → Bool → List Token → List Token → Prop
  | .expr, b, ts, r => ∀ k, Goes b r k → ∃ e, Reads (.expr 0) b ts e k
  | .operand w, b, ts, r =>
    (∀ k, Goes b r k → ∃ e, Reads (.expr 0) b ts e k) ∧ (Fits w b r → ∃ e, Reads .operand b ts e r)
  | .bracketed κ, b, ts, r => ∃ e, Reads (.bracketed κ) b ts e r

theorem Reads.read (w : Bool) (h : Reads .operand b ts e r) : (Nonterminal.operand w).Read b ts r := by
  refine ⟨fun k hk => ?_, fun _ => ⟨e, h⟩⟩
  obtain ⟨e', he'⟩ := hk.after e
  exact ⟨e', .unsigned h he'⟩

/-- An operand with an open end is read as far as its last part, `body`, can go. -/
theorem read_of_body {body : List Token} (hbody : Nonterminal.expr.Read b body r)
    (h : ∀ f k, Reads (.expr 0) b body f k → ∃ e, Reads .operand b ts e k) :
    (Nonterminal.operand true).Read b ts r := by
  constructor
  · intro k hk
    obtain ⟨f, hf⟩ := hbody k hk
    obtain ⟨e, he⟩ := h f k hf
    exact ⟨e, .unsigned he (.stop hf.stops)⟩
  · intro hfits
    obtain ⟨f, hf⟩ := hbody r (hfits rfl).goes
    exact h f r hf

/-- **Every derivation with scripts that fit is a reading**, perhaps as another tree. -/
theorem Derives.read (h : Derives Fits s b ts e r) : s.Read b ts r := by
  have hclosing (κ : Bracket) {b : Bool} {c : Token} {r : List Token} (hc : c.kind = κ.closing) :
      Goes b (c :: r) (c :: r) := (stops_closing hc 0 b r).goes
  have hdifferential {r : List Token} (hd : startsDifferential r = true) : Goes true r r :=
    (stops_differential hd 0).goes
  induction h with
  | operand _ hx => exact hx.1
  | minus ht _ hx =>
    intro k hk
    obtain ⟨e', he'⟩ := hx k hk
    obtain ⟨x, m, hx', he'⟩ := he'.expr_staged (Nat.zero_le Op.mul.precedence)
    obtain ⟨e, he⟩ := he'.climb_after (.binary .sub (.number 0) x)
    exact ⟨e, .minus ht hx' he⟩
  | plus ht _ hx =>
    intro k hk
    obtain ⟨e', he'⟩ := hx k hk
    obtain ⟨x, m, hx', he'⟩ := he'.expr_staged (Nat.zero_le Op.mul.precedence)
    exact ⟨e', .plus ht hx' he'⟩
  | operator _ ht _ hx hy =>
    intro k hk
    obtain ⟨e', he'⟩ := hy k hk
    exact hx k (.of_operator ht he')
  | product _ hd _ hx hy =>
    intro k hk
    obtain ⟨e', he'⟩ := hy k hk
    exact hx k (.of_factor hd he')
  | bracketed ho _ hc hx =>
    obtain ⟨x, hx⟩ := hx _ (hclosing _ hc)
    exact ⟨x, .bracketed ho hx hc⟩
  | number ht hx => exact (Reads.number ht hx).read false
  | name ht => exact (Reads.name ht).read false
  | constant ht hx => exact (Reads.constant ht hx).read false
  | brackets _ hx =>
    obtain ⟨x, hx⟩ := hx
    exact (Reads.brackets hx).read false
  | fraction ht hd _ _ hx hy =>
    obtain ⟨x, hx⟩ := hx
    obtain ⟨y, hy⟩ := hy
    exact (Reads.fraction ht hd hx hy).read false
  | sqrt ht _ hx =>
    obtain ⟨x, hx⟩ := hx
    exact (Reads.sqrt ht hx).read false
  | call ht hn _ hx =>
    obtain ⟨x, hx⟩ := hx
    exact (Reads.call ht hn hx).read false
  | integral ht _ _ _ hd hv hx hy hf =>
    obtain ⟨x, hx⟩ := hx
    obtain ⟨y, hy⟩ := hy
    obtain ⟨f, hf⟩ := hf _ (hdifferential hd)
    exact (Reads.integral ht hx hy hf hd hv).read false
  | integralScripts ht hu _ hw hc _ hw' _ hd hv hx hy hf =>
    obtain ⟨x, hx⟩ := hx.2 hw
    obtain ⟨y, hy⟩ := hy.2 hw'
    obtain ⟨f, hf⟩ := hf _ (hdifferential hd)
    exact (Reads.integralScripts ht hu hx hc hy hf hd hv).read false
  | iteration ht hm ho hv hc _ _ _ hx hy hf =>
    obtain ⟨x, hx⟩ := hx
    obtain ⟨y, hy⟩ := hy
    exact read_of_body hf fun f k hf => ⟨_, .iteration ht hm ho hv hc hx hy hf⟩
  | iterationScripts ht hm hu ho hv hq _ hc hp _ hw _ hx hy hf =>
    obtain ⟨x, hx⟩ := hx _ (hclosing .brace hc)
    obtain ⟨y, hy⟩ := hy.2 hw
    exact read_of_body hf fun f k hf => ⟨_, .iterationScripts ht hm hu ho hv hq hx hc hp hy hf⟩
  | derivative ht hd _ hf => exact read_of_body hf fun f k hf => ⟨_, .derivative ht hd hf⟩
  | derivativeAt ht hd hs hp hu ho hn hnv hq _ hc _ hx hf =>
    obtain ⟨x, hx⟩ := hx _ (hclosing .brace hc)
    exact read_of_body hf fun f k hf => ⟨_, .derivativeAt ht hd hs hp hu ho hn hnv hq hx hc hf⟩

end

/-! ## Lines -/

/-- **The parser takes its grammar and skips no token.** In the tokens of a line every numeral is a
number and every operator is known. What the parser gives is derived from all of them; and it gives
something exactly where there is a derivation with scripts that fit, so in particular where no script
is a sum, a product or a derivative. -/
theorem parse_grammar {line : String} {ts : List Token} (h : tokenize line = .ok ts) :
    (∀ t ∈ ts, (t.kind = .number → ∃ x, readFloat? t.text = some x) ∧
      (t.kind = .operator → ∃ op, t.IsOp op)) ∧
    (∀ e, parse line ts = .ok e → Derives Anywhere .expr false ts e []) ∧
    ((∃ e, parse line ts = .ok e) ↔ ∃ e, Derives Fits .expr false ts e []) ∧
    ((∃ e, Derives Closed .expr false ts e []) → ∃ e, parse line ts = .ok e) := by
  have htaken : (∃ e, Derives Fits .expr false ts e []) → ∃ e, parse line ts = .ok e := by
    rintro ⟨e, he⟩
    obtain ⟨e', he'⟩ := he.read [] (show Stops 0 false [] from trivial).goes
    exact ⟨e', parse_eq_ok_iff.2 he'⟩
  have hderived {e : Expr} (he : parse line ts = .ok e) : Derives Fits .expr false ts e [] :=
    (parse_eq_ok_iff.1 he).derived
  refine ⟨fun t ht => ⟨fun hk => ?_, fun hk => ?_⟩, fun e he => ?_, ⟨?_, htaken⟩, ?_⟩
  · have hs := tokenize_spelled h t ht
    rw [Token.IsSpelled, hk] at hs
    obtain ⟨x, hx, -⟩ := readFloat?_numeral hs
    exact ⟨x, by simpa using hx⟩
  · have hs := tokenize_spelled h t ht
    rw [Token.IsSpelled, hk] at hs
    obtain ⟨op, hop⟩ := hs
    exact ⟨op, hk, by simpa using hop⟩
  · exact (hderived he).mono fun _ _ _ _ => trivial
  · rintro ⟨e, he⟩
    exact ⟨e, hderived he⟩
  · rintro ⟨e, he⟩
    refine htaken ⟨e, he.mono ?_⟩
    intro w b ts hw hopen
    rw [Closed.eq_def] at hw
    simp [hw] at hopen

/-- The line `2x` is derived as a product, and so the parser takes it. -/
theorem parse_grammar_product :
    let ts : List Token := [⟨.number, "2", 0⟩, ⟨.identifier, "x", 1⟩]
    tokenize "2x" = .ok ts ∧ Derives Closed .expr false ts (.binary .mul (.number 2) (.ident "x")) [] ∧
      (∃ e, parse "2x" ts = .ok e) ∧
      Derives Anywhere .expr false ts (.binary .mul (.number 2) (.ident "x")) [] := by
  intro ts
  have ht : tokenize "2x" = .ok ts := by cbv
  have hd : Derives Closed .expr false ts (.binary .mul (.number 2) (.ident "x")) [] :=
    .product (.operand (.number rfl rfl)) (by decide) (.operand (.name rfl))
  have hp : parse "2x" ts = .ok (.binary .mul (.number 2) (.ident "x")) := rfl
  exact ⟨ht, hd, (parse_grammar ht).2.2.2 ⟨_, hd⟩, (parse_grammar ht).2.1 _ hp⟩

end LatexCalc
