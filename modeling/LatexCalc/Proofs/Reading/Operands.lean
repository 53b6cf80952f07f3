import LatexCalc.Proofs.Reading.Run

/-!
# Readings from the first token on

Tokens are read in one way only (`Reads.unique_expr`, `Reads.unique_operand`), and which rule reads an
operand is settled by its first tokens: by the command, for a fraction by whether the header of a
derivative follows and then a point, and for the bounds of an integral, a sum or a product by the brace
or the underscore after it. So a reading can be taken apart along its tokens: there is one lemma for each
rule with parts.
-/

namespace LatexCalc

namespace Parse

variable {n : Nat} {α : Type}

theorem Gives.unique {x : Parse n α} {c d d' : Cursor} {a a' : α} (h : x.Gives c a d)
    (h' : x.Gives c a' d') : a = a' ∧ d = d' := by
  obtain ⟨_, _, hx⟩ := h
  obtain ⟨_, _, hx'⟩ := h'
  cases hx.symm.trans hx'
  exact ⟨rfl, rfl⟩

theorem Realizes.unique {x : Parse n Expr} {ph : Phase} (hx : x.Realizes ph) {b : Bool}
    {ts r r' : List Token} {e e' : Expr} (hn : ts.length < n) (h : Reads ph b ts e r)
    (h' : Reads ph b ts e' r') : e = e' ∧ r = r' := by
  let c : Cursor := ⟨ts, 0, none, if b then 1 else 0, 0⟩
  have hb : c.inside = b := by cases b <;> rfl
  obtain ⟨d, hd, rfl, -⟩ := hx.complete (.refl c) hn rfl (hb ▸ h)
  obtain ⟨d', hd', rfl, -⟩ := hx.complete (.refl c) hn rfl (hb ▸ h')
  obtain ⟨rfl, rfl⟩ := hd.unique hd'
  exact ⟨rfl, rfl⟩

end Parse

namespace Reads

variable {b : Bool} {p : Nat} {κ : Bracket} {t : Token} {ts r r' : List Token} {e e' l : Expr}

/-- **Expressions are read in one way.** -/
theorem unique_expr (h : Reads (.expr p) b ts e r) (h' : Reads (.expr p) b ts e' r') :
    e = e' ∧ r = r' :=
  ((Parse.realizes (ts.length + 1)).1 p).unique (Nat.lt_succ_self _) h h'

/-- **Operands are read in one way.** -/
theorem unique_operand (h : Reads .operand b ts e r) (h' : Reads .operand b ts e' r') :
    e = e' ∧ r = r' :=
  (Parse.realizes (ts.length + 1)).2.2.unique (Nat.lt_succ_self _) h h'

/-! ## Expressions -/

/-- Where an expression has to end, climbing takes nothing. -/
theorem eq_of_stops (hs : Stops p b ts) (h : Reads (.climb p l) b ts e r) : e = l ∧ r = ts := by
  cases h with
  | stop => exact ⟨rfl, rfl⟩
  | operator ht hl =>
    obtain ⟨op, hop, hlt⟩ := (stops_operator ht.1).1 hs
    cases hop.symm.trans ht.2
    omega
  | factor hl hj =>
    obtain ⟨t, s, rfl, ht⟩ := head_of_juxtaposes hj
    exact absurd ⟨hl, hj⟩ ((stops_of_ne_operator (ne_operator_of_startsOperand ht)).1 hs)

theorem of_minus (ht : t.IsOp .sub) (h : Reads (.expr p) b (t :: ts) e r) :
    ∃ x m, Reads (.expr Op.mul.precedence) b ts x m ∧
      Reads (.climb p (.binary .sub (.number 0) x)) b m e r := by
  cases h with
  | minus _ hx he => exact ⟨_, _, hx, he⟩
  | plus ht' => cases ht.2.symm.trans ht'.2
  | unsigned hx =>
    obtain ⟨_, _, hts, hk⟩ := hx.startsOperand
    cases hts
    exact absurd ht.1 (ne_operator_of_startsOperand hk)

theorem of_plus (ht : t.IsOp .add) (h : Reads (.expr p) b (t :: ts) e r) :
    ∃ x m, Reads (.expr Op.mul.precedence) b ts x m ∧ Reads (.climb p x) b m e r := by
  cases h with
  | minus ht' => cases ht.2.symm.trans ht'.2
  | plus _ hx he => exact ⟨_, _, hx, he⟩
  | unsigned hx =>
    obtain ⟨_, _, hts, hk⟩ := hx.startsOperand
    cases hts
    exact absurd ht.1 (ne_operator_of_startsOperand hk)

theorem of_unsigned (ht : t.kind.startsOperand = true) (h : Reads (.expr p) b (t :: ts) e r) :
    ∃ x m, Reads .operand b (t :: ts) x m ∧ Reads (.climb p x) b m e r := by
  cases h with
  | minus ht' | plus ht' => exact absurd ht'.1 (ne_operator_of_startsOperand ht)
  | unsigned hx he => exact ⟨_, _, hx, he⟩

/-- After an operator that binds tightly enough, climbing goes on with its right operand. -/
theorem of_operator {op : Op} (ht : t.IsOp op) (hl : p ≤ op.precedence)
    (h : Reads (.climb p l) b (t :: ts) e r) :
    ∃ x m, Reads (.expr op.rightPrecedence) b ts x m ∧ Reads (.climb p (.binary op l x)) b m e r := by
  cases h with
  | stop hs =>
    obtain ⟨op', hop, hlt⟩ := (stops_operator ht.1).1 hs
    cases hop.symm.trans ht.2
    omega
  | operator ht' _ hx he =>
    cases ht.2.symm.trans ht'.2
    exact ⟨_, _, hx, he⟩
  | factor _ hj =>
    obtain ⟨_, _, hts, hk⟩ := head_of_juxtaposes hj
    cases hts
    exact absurd ht.1 (ne_operator_of_startsOperand hk)

/-- In front of a factor, climbing goes on with it. -/
theorem of_factor (hl : p ≤ Op.mul.precedence) (hj : juxtaposes b ts = true)
    (h : Reads (.climb p l) b ts e r) :
    ∃ x m, Reads (.expr (Op.mul.precedence + 1)) b ts x m ∧
      Reads (.climb p (.binary .mul l x)) b m e r := by
  obtain ⟨t, s, rfl, ht⟩ := head_of_juxtaposes hj
  cases h with
  | stop hs => exact absurd ⟨hl, hj⟩ ((stops_of_ne_operator (ne_operator_of_startsOperand ht)).1 hs)
  | operator ht' => exact absurd ht'.1 (ne_operator_of_startsOperand ht)
  | factor _ _ hx he => exact ⟨_, _, hx, he⟩

/-! ## Operands -/

theorem of_bracketed (h : Reads (.bracketed κ) b (t :: ts) e r) :
    ∃ c, c.kind = κ.closing ∧ Reads (.expr 0) b ts e (c :: r) := by
  cases h with
  | bracketed _ hx hc => exact ⟨_, hc, hx⟩

theorem not_bracketed (ht : t.kind = .function) : ¬Reads (.bracketed κ) b (t :: ts) e r := by
  intro h
  obtain ⟨o, s, hts, ho⟩ := h.head_bracketed
  cases hts
  rw [ht] at ho
  cases κ <;> cases ho

theorem of_brackets {o : Token} (ho : o.kind = κ.opening) (h : Reads .operand b (o :: ts) e r) :
    Reads (.bracketed κ) b (o :: ts) e r := by
  cases h with
  | @brackets κ' _ _ _ _ hx =>
    obtain ⟨_, _, hts, ho'⟩ := hx.head_bracketed
    cases hts
    have hκ : κ' = κ := by
      rw [ho] at ho'
      cases κ <;> cases κ' <;> first | rfl | cases ho'
    exact hκ ▸ hx
  | _ => cases κ <;> simp_all [Token.IsCommand, Bracket.opening]

/-- A fraction has two groups. -/
theorem of_fraction (ht : t.IsCommand "frac") (hd : derivativeVariable? ts = none)
    (h : Reads .operand b (t :: ts) e r) : ∃ x m y, e = .fraction x y ∧
      Reads (.bracketed .brace) b ts x m ∧ Reads (.bracketed .brace) b m y r := by
  obtain ⟨hk, hn⟩ := ht
  cases h with
  | fraction _ _ hx hy => exact ⟨_, _, _, rfl, hx, hy⟩
  | brackets hx => exact absurd hx (not_bracketed hk)
  | _ => simp_all [Token.IsCommand, constant?, iteration?, headedCommands]

/-- A derivative has a function. -/
theorem of_derivative {v : String} {k : Token} {us : List Token} (ht : t.IsCommand "frac")
    (hd : derivativeVariable? ts = some v) (hs : ts.drop 6 = k :: us) (hp : k.kind ≠ .pipe)
    (h : Reads .operand b (t :: ts) e r) :
    ∃ f, e = .derivative v f ∧ Reads (.expr 0) b (ts.drop 6) f r := by
  obtain ⟨hk, hn⟩ := ht
  cases h with
  | derivative _ hd' hf =>
    cases hd.symm.trans hd'
    exact ⟨_, rfl, hf⟩
  | derivativeAt _ _ hs' hp' =>
    cases hs.symm.trans hs'
    exact absurd hp' hp
  | brackets hx => exact absurd hx (not_bracketed hk)
  | _ => simp_all [Token.IsCommand, constant?, iteration?, headedCommands]

/-- A derivative at a point has the point, up to a brace, and a function. -/
theorem of_derivativeAt {v : String} {k u o n q : Token} {us : List Token} (ht : t.IsCommand "frac")
    (hd : derivativeVariable? ts = some v) (hs : ts.drop 6 = k :: u :: o :: n :: q :: us)
    (hp : k.kind = .pipe) (h : Reads .operand b (t :: ts) e r) :
    ∃ x c m f, e = .derivativeAt v x f ∧ Reads (.expr 0) b us x (c :: m) ∧ c.kind = .braceClose ∧
      Reads (.expr 0) b m f r := by
  obtain ⟨hk, hn⟩ := ht
  cases h with
  | derivative _ _ hf => exact absurd hp (head_ne_pipe (hs ▸ hf))
  | derivativeAt _ hd' hs' _ _ _ _ _ _ hx hc hf =>
    cases hd.symm.trans hd'
    cases hs.symm.trans hs'
    exact ⟨_, _, _, _, rfl, hx, hc, hf⟩
  | brackets hx => exact absurd hx (not_bracketed hk)
  | _ => simp_all [Token.IsCommand, constant?, iteration?, headedCommands]

theorem of_sqrt (ht : t.IsCommand "sqrt") (h : Reads .operand b (t :: ts) e r) :
    ∃ x, e = .sqrt x ∧ Reads (.bracketed .brace) b ts x r := by
  obtain ⟨hk, hn⟩ := ht
  cases h with
  | sqrt _ hx => exact ⟨_, rfl, hx⟩
  | brackets hx => exact absurd hx (not_bracketed hk)
  | _ => simp_all [Token.IsCommand, constant?, iteration?, headedCommands]

theorem of_call (hk : t.kind = .function) (hn : t.command ∉ headedCommands)
    (h : Reads .operand b (t :: ts) e r) :
    ∃ κ x, e = .call t.command x ∧ Reads (.bracketed κ) b ts x r := by
  simp only [headedCommands, List.mem_cons, List.not_mem_nil, or_false, not_or] at hn
  cases h with
  | call _ _ hx => exact ⟨_, _, rfl, hx⟩
  | brackets hx => exact absurd hx (not_bracketed hk)
  | constant _ hx => simp [constant?, hn] at hx
  | iteration _ hm | iterationScripts _ hm => simp [iteration?, hn] at hm
  | _ => simp_all [Token.IsCommand]

/-- An integral with bounds in braces has an integrand up to a differential. -/
theorem of_integral {o : Token} (ht : t.IsCommand "int") (ho : o.kind = .braceOpen)
    (h : Reads .operand b (t :: o :: ts) e r) :
    ∃ v x y f m k d, e = .integral v x y f ∧ Reads (.bracketed .brace) b (o :: ts) x m ∧
      Reads (.bracketed .brace) b m y k ∧ Reads (.expr 0) true k f (d :: r) ∧
      startsDifferential (d :: r) = true ∧ d.differential? = some v := by
  obtain ⟨hk, hn⟩ := ht
  cases h with
  | integral _ hx hy hf hd hv => exact ⟨_, _, _, _, _, _, _, rfl, hx, hy, hf, hd, hv⟩
  | integralScripts _ hu => cases ho.symm.trans hu
  | brackets hx => exact absurd hx (not_bracketed hk)
  | _ => simp_all [Token.IsCommand, constant?, iteration?, headedCommands]

/-- An integral with bounds as scripts has an integrand up to a differential. -/
theorem of_integralScripts {u : Token} (ht : t.IsCommand "int") (hu : u.kind = .underscore)
    (h : Reads .operand b (t :: u :: ts) e r) :
    ∃ v x y f c m k d, e = .integral v x y f ∧ Reads .operand b ts x (c :: m) ∧ c.IsOp .pow ∧
      Reads .operand b m y k ∧ Reads (.expr 0) true k f (d :: r) ∧
      startsDifferential (d :: r) = true ∧ d.differential? = some v := by
  obtain ⟨hk, hn⟩ := ht
  cases h with
  | integralScripts _ _ hx hc hy hf hd hv =>
    exact ⟨_, _, _, _, _, _, _, _, rfl, hx, hc, hy, hf, hd, hv⟩
  | integral _ hx =>
    obtain ⟨_, _, hus, ho⟩ := hx.head_bracketed
    cases hus
    cases hu.symm.trans ho
  | brackets hx => exact absurd hx (not_bracketed hk)
  | _ => simp_all [Token.IsCommand, constant?, iteration?, headedCommands]

section

variable {make : String → Expr → Expr → Expr → Expr} {u o v c q : Token}

theorem command_of_iteration? (hm : iteration? t.command = some make) :
    t.command = "sum" ∨ t.command = "prod" := by
  unfold iteration? at hm
  split at hm <;> simp_all

/-- A sum or product with bounds in braces has a body. -/
theorem of_iteration (hk : t.kind = .function) (hm : iteration? t.command = some make)
    (ho : o.kind = .braceOpen) (h : Reads .operand b (t :: o :: v :: c :: ts) e r) :
    ∃ x y f m k, e = make v.text x y f ∧ Reads (.bracketed .brace) b ts x m ∧
      Reads (.bracketed .brace) b m y k ∧ Reads (.expr 0) b k f r := by
  have hname := command_of_iteration? hm
  cases h with
  | iteration _ hm' _ _ _ hx hy hf =>
    cases hm.symm.trans hm'
    exact ⟨_, _, _, _, _, rfl, hx, hy, hf⟩
  | iterationScripts _ _ hu => cases ho.symm.trans hu
  | brackets hx => exact absurd hx (not_bracketed hk)
  | _ => rcases hname with hn | hn <;> simp_all [Token.IsCommand, constant?, headedCommands]

/-- A sum or product with bounds as scripts has a body. -/
theorem of_iterationScripts (hk : t.kind = .function) (hm : iteration? t.command = some make)
    (hu : u.kind = .underscore) (h : Reads .operand b (t :: u :: o :: v :: q :: ts) e r) :
    ∃ x y f c d m k, e = make v.text x y f ∧ Reads (.expr 0) b ts x (c :: d :: m) ∧
      c.kind = .braceClose ∧ Reads .operand b m y k ∧ Reads (.expr 0) b k f r := by
  have hname := command_of_iteration? hm
  cases h with
  | iterationScripts _ hm' _ _ _ _ hx hc _ hy hf =>
    cases hm.symm.trans hm'
    exact ⟨_, _, _, _, _, _, _, rfl, hx, hc, hy, hf⟩
  | iteration _ _ ho => cases hu.symm.trans ho
  | brackets hx => exact absurd hx (not_bracketed hk)
  | _ => rcases hname with hn | hn <;> simp_all [Token.IsCommand, constant?, headedCommands]

end

end Reads

end LatexCalc
