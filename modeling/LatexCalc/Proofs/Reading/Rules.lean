import LatexCalc.Expr.Parser

/-!
# Rules of reading

`Reads ph b ts e r`: in the phase `ph` of reading, the tokens `ts` are read as `e` up to the rest `r`.
The flag `b` tells whether that happens inside an integrand. There is one rule for each way in which
a step of the parser succeeds, over lists of tokens alone: neither the bound on their number nor the
place in the line matters. `Reading/Run` shows that the parser succeeds exactly by these rules.

* An operand starts with a token that may start a factor, and so never with an operator
  (`Reads.startsOperand`).
* What is read ends with a token that may end an operand (`Reads.taken`).
-/

namespace LatexCalc

/-! ## Tokens that the rules ask for -/

/-- The kinds of bracket around expressions. -/
inductive Bracket
  | paren
  | brace
  deriving DecidableEq, Repr

namespace Bracket

/-- The token that opens a bracket. -/
def opening : Bracket → TokenKind
  | paren => .parenOpen
  | brace => .braceOpen

/-- The token that closes a bracket. -/
def closing : Bracket → TokenKind
  | paren => .parenClose
  | brace => .braceClose

theorem startsOperand_opening (κ : Bracket) : κ.opening.startsOperand = true := by
  cases κ <;> rfl

theorem endsOperand_closing (κ : Bracket) : κ.closing.endsOperand = true := by
  cases κ <;> rfl

theorem closing_ne_operator (κ : Bracket) : κ.closing ≠ .operator := by
  cases κ <;> decide

theorem startsOperand_closing (κ : Bracket) : κ.closing.startsOperand = false := by
  cases κ <;> rfl

end Bracket

namespace Token

/-- A spelling of an operator. -/
def IsOp (t : Token) (op : Op) : Prop :=
  t.kind = .operator ∧ Op.ofText? t.text = some op

/-- A command with a name. -/
def IsCommand (t : Token) (name : String) : Prop :=
  t.kind = .function ∧ t.command = name

end Token

/-- The constants that commands stand for. -/
def constant? : String → Option Float
  | "pi" => some Parse.circleConstant
  | "e" => some Parse.naturalBase
  | _ => none

/-- The commands with a variable that runs over a range. -/
def iteration? : String → Option (String → Expr → Expr → Expr → Expr)
  | "sum" => some .sum
  | "prod" => some .product
  | _ => none

/-- The commands that are no names of functions. -/
def headedCommands : List String :=
  ["frac", "sqrt", "int", "sum", "prod", "pi", "e"]

/-- Whether what follows an operand is a factor without an operator in front of it. -/
def juxtaposes (b : Bool) (ts : List Token) : Bool :=
  (ts.head?.map Token.kind).any TokenKind.startsOperand && !(b && startsDifferential ts)

theorem head_of_juxtaposes {b : Bool} {ts : List Token} (h : juxtaposes b ts = true) :
    ∃ t s, ts = t :: s ∧ t.kind.startsOperand = true := by
  simp only [juxtaposes, Bool.and_eq_true] at h
  cases ts with
  | nil => simp at h
  | cons t s => exact ⟨t, s, rfl, by simpa using h.1⟩

theorem ne_operator_of_startsOperand {k : TokenKind} (h : k.startsOperand = true) :
    k ≠ .operator := by
  rintro rfl
  cases h

/-- An expression whose operators bind at least as tightly as `least` ends before these tokens. -/
def Stops (least : Nat) (b : Bool) : List Token → Prop
  | [] => True
  | t :: ts =>
    if t.kind = .operator then ∃ op, Op.ofText? t.text = some op ∧ op.precedence < least
    else ¬(least ≤ Op.mul.precedence ∧ juxtaposes b (t :: ts) = true)

theorem stops_operator {p : Nat} {b : Bool} {t : Token} {ts : List Token}
    (ht : t.kind = .operator) :
    Stops p b (t :: ts) ↔ ∃ op, Op.ofText? t.text = some op ∧ op.precedence < p := by
  simp [Stops, ht]

theorem stops_of_ne_operator {p : Nat} {b : Bool} {t : Token} {ts : List Token}
    (ht : t.kind ≠ .operator) :
    Stops p b (t :: ts) ↔ ¬(p ≤ Op.mul.precedence ∧ juxtaposes b (t :: ts) = true) := by
  simp [Stops, ht]

theorem Stops.mono {p q : Nat} {b : Bool} {ts : List Token} (h : Stops p b ts) (hpq : p ≤ q) :
    Stops q b ts := by
  cases ts with
  | nil => trivial
  | cons t ts =>
    by_cases ht : t.kind = .operator
    · rw [stops_operator ht] at h ⊢
      obtain ⟨op, hop, hlt⟩ := h
      exact ⟨op, hop, Nat.lt_of_lt_of_le hlt hpq⟩
    · rw [stops_of_ne_operator ht] at h ⊢
      exact fun hq => h ⟨Nat.le_trans hpq hq.1, hq.2⟩

/-- A closing bracket ends an expression. -/
theorem stops_closing {κ : Bracket} {t : Token} (ht : t.kind = κ.closing) (p : Nat) (b : Bool)
    (ts : List Token) : Stops p b (t :: ts) := by
  rw [stops_of_ne_operator (ht ▸ κ.closing_ne_operator)]
  simp [juxtaposes, ht, κ.startsOperand_closing]

theorem kind_of_startsDifferential {t : Token} {ts : List Token}
    (h : startsDifferential (t :: ts) = true) : t.kind = .identifier := by
  simp only [startsDifferential, Bool.and_eq_true, decide_eq_true_eq] at h
  exact h.1.1

/-- A differential ends an integrand. -/
theorem stops_differential {ts : List Token} (h : startsDifferential ts = true) (p : Nat) :
    Stops p true ts := by
  cases ts with
  | nil => trivial
  | cons t ts =>
    rw [stops_of_ne_operator (by rw [kind_of_startsDifferential h]; decide)]
    simp [juxtaposes, h]

/-! ## The rules -/

/-- What is being read: an expression, the rest of one after an operand, an operand, or an
expression in brackets. -/
inductive Phase
  | expr (least : Nat)
  | climb (least : Nat) (lhs : Expr)
  | operand
  | bracketed (κ : Bracket)

/-- The tokens of the fourth argument up to those of the last one are read as an expression. -/
inductive Reads : Phase → Bool → List Token → Expr → List Token → Prop
  | minus {least b t ts x m e r} (ht : t.IsOp .sub) (hx : Reads (.expr Op.mul.precedence) b ts x m)
      (he : Reads (.climb least (.binary .sub (.number 0) x)) b m e r) :
      Reads (.expr least) b (t :: ts) e r
  | plus {least b t ts x m e r} (ht : t.IsOp .add) (hx : Reads (.expr Op.mul.precedence) b ts x m)
      (he : Reads (.climb least x) b m e r) : Reads (.expr least) b (t :: ts) e r
  | unsigned {least b ts x m e r} (hx : Reads .operand b ts x m)
      (he : Reads (.climb least x) b m e r) : Reads (.expr least) b ts e r
  | stop {least b lhs ts} (h : Stops least b ts) : Reads (.climb least lhs) b ts lhs ts
  | operator {least b lhs t op ts x m e r} (ht : t.IsOp op) (hl : least ≤ op.precedence)
      (hx : Reads (.expr op.rightPrecedence) b ts x m)
      (he : Reads (.climb least (.binary op lhs x)) b m e r) :
      Reads (.climb least lhs) b (t :: ts) e r
  | factor {least b lhs ts x m e r} (hl : least ≤ Op.mul.precedence) (hj : juxtaposes b ts = true)
      (hx : Reads (.expr (Op.mul.precedence + 1)) b ts x m)
      (he : Reads (.climb least (.binary .mul lhs x)) b m e r) :
      Reads (.climb least lhs) b ts e r
  | bracketed {κ b o ts x c r} (ho : o.kind = κ.opening) (hx : Reads (.expr 0) b ts x (c :: r))
      (hc : c.kind = κ.closing) : Reads (.bracketed κ) b (o :: ts) x r
  | number {b t r x} (ht : t.kind = .number) (hx : readFloat? t.text = some x) :
      Reads .operand b (t :: r) (.number x) r
  | name {b t r} (ht : t.kind = .identifier) : Reads .operand b (t :: r) (.ident t.text) r
  | constant {b t r x} (ht : t.kind = .function) (hx : constant? t.command = some x) :
      Reads .operand b (t :: r) (.number x) r
  | brackets {κ b ts x r} (hx : Reads (.bracketed κ) b ts x r) : Reads .operand b ts x r
  | fraction {b t ts x m y r} (ht : t.IsCommand "frac") (hd : derivativeVariable? ts = none)
      (hx : Reads (.bracketed .brace) b ts x m) (hy : Reads (.bracketed .brace) b m y r) :
      Reads .operand b (t :: ts) (.fraction x y) r
  | sqrt {b t ts x r} (ht : t.IsCommand "sqrt") (hx : Reads (.bracketed .brace) b ts x r) :
      Reads .operand b (t :: ts) (.sqrt x) r
  | call {κ b t ts x r} (ht : t.kind = .function) (hn : t.command ∉ headedCommands)
      (hx : Reads (.bracketed κ) b ts x r) : Reads .operand b (t :: ts) (.call t.command x) r
  | integral {b t ts x m y k f d r v} (ht : t.IsCommand "int")
      (hx : Reads (.bracketed .brace) b ts x m) (hy : Reads (.bracketed .brace) b m y k)
      (hf : Reads (.expr 0) true k f (d :: r)) (hd : startsDifferential (d :: r) = true)
      (hv : d.differential? = some v) : Reads .operand b (t :: ts) (.integral v x y f) r
  | integralScripts {b t u ts x c m y k f d r v} (ht : t.IsCommand "int")
      (hu : u.kind = .underscore) (hx : Reads .operand b ts x (c :: m)) (hc : c.IsOp .pow)
      (hy : Reads .operand b m y k) (hf : Reads (.expr 0) true k f (d :: r))
      (hd : startsDifferential (d :: r) = true) (hv : d.differential? = some v) :
      Reads .operand b (t :: u :: ts) (.integral v x y f) r
  | iteration {b t make o v c ts x m y k f r} (ht : t.kind = .function)
      (hm : iteration? t.command = some make) (ho : o.kind = .braceOpen) (hv : v.kind = .identifier)
      (hc : c.kind = .braceClose) (hx : Reads (.bracketed .brace) b ts x m)
      (hy : Reads (.bracketed .brace) b m y k) (hf : Reads (.expr 0) b k f r) :
      Reads .operand b (t :: o :: v :: c :: ts) (make v.text x y f) r
  | iterationScripts {b t make u o v q ts x c p m y k f r} (ht : t.kind = .function)
      (hm : iteration? t.command = some make) (hu : u.kind = .underscore) (ho : o.kind = .braceOpen)
      (hv : v.kind = .identifier) (hq : q.kind = .equal) (hx : Reads (.expr 0) b ts x (c :: p :: m))
      (hc : c.kind = .braceClose) (hp : p.IsOp .pow) (hy : Reads .operand b m y k)
      (hf : Reads (.expr 0) b k f r) :
      Reads .operand b (t :: u :: o :: v :: q :: ts) (make v.text x y f) r
  | derivative {b t ts v f r} (ht : t.IsCommand "frac") (hd : derivativeVariable? ts = some v)
      (hf : Reads (.expr 0) b (ts.drop 6) f r) : Reads .operand b (t :: ts) (.derivative v f) r
  | derivativeAt {b t ts v p u o n q k x c m f r} (ht : t.IsCommand "frac")
      (hd : derivativeVariable? ts = some v) (hs : ts.drop 6 = p :: u :: o :: n :: q :: k)
      (hp : p.kind = .pipe) (hu : u.kind = .underscore) (ho : o.kind = .braceOpen)
      (hn : n.kind = .identifier) (hnv : n.text = v) (hq : q.kind = .equal)
      (hx : Reads (.expr 0) b k x (c :: m)) (hc : c.kind = .braceClose)
      (hf : Reads (.expr 0) b m f r) : Reads .operand b (t :: ts) (.derivativeAt v x f) r

namespace Reads

variable {b : Bool} {ts r : List Token} {e : Expr}

theorem head_bracketed {κ : Bracket} (h : Reads (.bracketed κ) b ts e r) :
    ∃ o s, ts = o :: s ∧ o.kind = κ.opening := by
  cases h with
  | bracketed ho _ _ => exact ⟨_, _, rfl, ho⟩

/-- An operand starts with a token that may start a factor. -/
theorem startsOperand (h : Reads .operand b ts e r) :
    ∃ t s, ts = t :: s ∧ t.kind.startsOperand = true := by
  cases h with
  | brackets hx =>
    obtain ⟨o, s, rfl, ho⟩ := hx.head_bracketed
    exact ⟨o, s, rfl, by rw [ho, Bracket.startsOperand_opening]⟩
  | number ht => exact ⟨_, _, rfl, by rw [ht]; rfl⟩
  | name ht => exact ⟨_, _, rfl, by rw [ht]; rfl⟩
  | constant ht | call ht | iteration ht | iterationScripts ht =>
    exact ⟨_, _, rfl, by rw [ht]; rfl⟩
  | fraction ht | sqrt ht | integral ht | integralScripts ht | derivative ht | derivativeAt ht =>
    exact ⟨_, _, rfl, by rw [ht.1]; rfl⟩

/-- An expression starts with an operator or like an operand. -/
theorem head_expr {least : Nat} (h : Reads (.expr least) b ts e r) :
    ∃ t s, ts = t :: s ∧ (t.kind = .operator ∨ t.kind.startsOperand = true) := by
  cases h with
  | minus ht | plus ht => exact ⟨_, _, rfl, .inl ht.1⟩
  | unsigned hx =>
    obtain ⟨t, s, rfl, ht⟩ := hx.startsOperand
    exact ⟨t, s, rfl, .inr ht⟩

/-- What starts with an expression does not start with the point of a derivative. -/
theorem head_ne_pipe {least : Nat} {t : Token} (h : Reads (.expr least) b (t :: ts) e r) :
    t.kind ≠ .pipe := by
  obtain ⟨_, _, hts, ht⟩ := h.head_expr
  obtain ⟨rfl, -⟩ := List.cons.inj hts
  rintro hk
  simp [hk, TokenKind.startsOperand] at ht

end Reads

/-! ## What a reading takes -/

/-- The tokens before `r` end with one that may end an operand. -/
def EndsOperand (ts r : List Token) : Prop :=
  ∃ u t, ts = u ++ t :: r ∧ t.kind.endsOperand = true

namespace EndsOperand

variable {ts m r : List Token}

theorem suffix (h : EndsOperand ts r) : r <:+ ts := by
  obtain ⟨u, t, rfl, -⟩ := h
  exact ⟨u ++ [t], by simp⟩

theorem of_suffix (h : EndsOperand m r) (hs : m <:+ ts) : EndsOperand ts r := by
  obtain ⟨u, t, rfl, ht⟩ := h
  obtain ⟨v, rfl⟩ := hs
  exact ⟨v ++ u, t, by simp, ht⟩

theorem cons (h : EndsOperand ts r) (t : Token) : EndsOperand (t :: ts) r :=
  h.of_suffix (List.suffix_cons t ts)

theorem trans (h : EndsOperand ts m) (h' : m = r ∨ EndsOperand m r) : EndsOperand ts r := by
  rcases h' with rfl | h'
  · exact h
  · exact h'.of_suffix h.suffix

/-- The token after what was read ends an operand, too. -/
theorem last {t : Token} (h : EndsOperand ts (t :: r)) (ht : t.kind.endsOperand = true) :
    EndsOperand ts r := by
  obtain ⟨u, hu⟩ := h.suffix
  exact ⟨u, t, hu.symm, ht⟩

theorem single {t : Token} (ht : t.kind.endsOperand = true) : EndsOperand (t :: r) r :=
  ⟨[], t, rfl, ht⟩

end EndsOperand

/-- What a phase of reading takes ends an operand. Climbing may take nothing. -/
def Phase.Taken : Phase → List Token → List Token → Prop
  | climb _ _, ts, r => ts = r ∨ EndsOperand ts r
  | expr _, ts, r | operand, ts, r | bracketed _, ts, r => EndsOperand ts r

theorem Reads.taken {ph : Phase} {b : Bool} {ts r : List Token} {e : Expr} (h : Reads ph b ts e r) :
    ph.Taken ts r := by
  induction h with
  | minus _ _ _ hx he | plus _ _ _ hx he => exact (hx.trans he).cons _
  | unsigned _ _ hx he => exact hx.trans he
  | stop => exact .inl rfl
  | operator _ _ _ _ hx he => exact .inr ((hx.trans he).cons _)
  | factor _ _ _ _ hx he => exact .inr (hx.trans he)
  | bracketed _ _ hc hx => exact (hx.last (by rw [hc, Bracket.endsOperand_closing])).cons _
  | number ht | name ht | constant ht => exact .single (by rw [ht]; rfl)
  | brackets _ hx => exact hx
  | fraction _ _ _ _ hx hy => exact (hx.trans (.inr hy)).cons _
  | sqrt _ _ hx | call _ _ _ hx => exact hx.cons _
  | integral _ _ _ _ hd _ hx hy hf =>
    have hfd := hf.last (by rw [kind_of_startsDifferential hd]; rfl)
    exact (hx.trans (.inr (hy.trans (.inr hfd)))).cons _
  | integralScripts _ _ _ _ _ _ hd _ hx hy hf =>
    have hfd := hf.last (by rw [kind_of_startsDifferential hd]; rfl)
    have hyc := (hy.trans (.inr hfd)).of_suffix ((List.suffix_cons _ _).trans hx.suffix)
    exact (hyc.cons _).cons _
  | iteration _ _ _ _ _ _ _ _ hx hy hf =>
    exact (hx.trans (.inr (hy.trans (.inr hf)))).of_suffix (List.suffix_append [_, _, _, _] _)
  | iterationScripts _ _ _ _ _ _ _ _ _ _ _ hx hy hf =>
    have hyc := (hy.trans (.inr hf)).of_suffix ((List.suffix_append [_, _] _).trans hx.suffix)
    exact hyc.of_suffix (List.suffix_append [_, _, _, _, _] _)
  | derivative _ _ _ hf => exact (hf.of_suffix (List.drop_suffix 6 _)).cons _
  | derivativeAt _ _ hs _ _ _ _ _ _ _ _ _ hx hf =>
    have hfx := hf.of_suffix ((List.suffix_cons _ _).trans hx.suffix)
    refine EndsOperand.cons (EndsOperand.of_suffix ?_ (List.drop_suffix 6 _)) _
    rw [hs]
    exact hfx.of_suffix (List.suffix_append [_, _, _, _, _] _)

theorem Reads.suffix {ph : Phase} {b : Bool} {ts r : List Token} {e : Expr} (h : Reads ph b ts e r) :
    r <:+ ts := by
  have htaken := h.taken
  cases ph with
  | climb =>
    rcases htaken with rfl | htaken
    · exact List.suffix_refl _
    · exact htaken.suffix
  | expr => exact EndsOperand.suffix htaken
  | operand => exact EndsOperand.suffix htaken
  | bracketed => exact EndsOperand.suffix htaken

end LatexCalc
