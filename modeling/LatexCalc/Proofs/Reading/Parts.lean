import LatexCalc.Proofs.Reading.Enclosed
import Mathlib.Data.List.Basic

/-!
# Parts of a reading

A reading (`Reading`) is put together from others by the rules (`Rule`). These, those that they are
put together from and so on are its parts (`Reading.Part`). Other tokens that are read like a part, up
to the same rest, can stand in its place, and the tree of the whole is the same
(`Reading.Part.context`). The tokens in front of the part must not notice it (`Ahead`): they look ahead
for the header of a derivative, for a differential in an integrand, and for what an expression ends
before.
-/

namespace LatexCalc

/-! ## Looking ahead -/

/-- What the tokens `u` see ahead of them in `r` they also see in `r'`. -/
structure Ahead (b : Bool) (u r r' : List Token) : Prop where
  header : ∀ w, w <:+ u → derivativeVariable? (w ++ r) = none → derivativeVariable? (w ++ r') = none
  differential : (b = true ∨ ∃ t ∈ u, t.IsCommand "int") → ∀ w, w <:+ u → w ≠ [] →
    startsDifferential (w ++ r) = startsDifferential (w ++ r')
  stops : ∀ p, Stops p b r → Stops p b r'

namespace Ahead

variable {b : Bool} {t : Token} {u v r r' : List Token}

theorem back (h : Ahead b (u ++ v) r r') : Ahead b v r r' where
  header w hw := h.header w (hw.trans (List.suffix_append u v))
  differential hb w hw := by
    refine h.differential (hb.imp_right ?_) w (hw.trans (List.suffix_append u v))
    rintro ⟨t, ht, hint⟩
    exact ⟨t, List.mem_append_right u ht, hint⟩
  stops := h.stops

theorem tail (h : Ahead b (t :: u) r r') : Ahead b u r r' :=
  back (u := [t]) h

theorem juxtaposes (h : Ahead b v r r') (hv : v ≠ []) :
    juxtaposes b (v ++ r) = juxtaposes b (v ++ r') := by
  obtain ⟨t, v, rfl⟩ := List.exists_cons_of_ne_nil hv
  cases b with
  | false => simp [LatexCalc.juxtaposes]
  | true =>
    have hd := h.differential (.inl rfl) _ List.suffix_rfl hv
    simp only [LatexCalc.juxtaposes, hd]
    rfl

theorem stops_append (h : Ahead b v r r') {p : Nat} (hs : Stops p b (v ++ r)) :
    Stops p b (v ++ r') := by
  cases v with
  | nil => exact h.stops p hs
  | cons t v =>
    by_cases ht : t.kind = .operator
    · exact (stops_operator ht).2 ((stops_operator ht).1 hs)
    · have hj := h.juxtaposes (List.cons_ne_nil t v)
      refine (stops_of_ne_operator ht).2 fun hs' => (stops_of_ne_operator ht).1 hs ⟨hs'.1, ?_⟩
      exact hj.trans hs'.2

theorem front (h : Ahead b (u ++ v) r r') : Ahead b u (v ++ r) (v ++ r') where
  header w hw := by
    have hwv : w ++ v <:+ u ++ v := List.suffix_append_self_iff.2 hw
    simpa only [List.append_assoc] using h.header (w ++ v) hwv
  differential hb w hw hne := by
    have hwv : w ++ v <:+ u ++ v := List.suffix_append_self_iff.2 hw
    have hint : b = true ∨ ∃ t ∈ u ++ v, t.IsCommand "int" := by
      refine hb.imp_right ?_
      rintro ⟨t, ht, hint⟩
      exact ⟨t, List.mem_append_left v ht, hint⟩
    simpa only [List.append_assoc] using
      h.differential hint (w ++ v) hwv (List.append_ne_nil_of_left_ne_nil hne v)
  stops p := h.back.stops_append

/-- Behind the command of an integral the same holds in integrands. -/
theorem enter (h : Ahead b u r r') (hu : ∃ t ∈ u, t.IsCommand "int")
    (hs : ∀ p, Stops p true r → Stops p true r') : Ahead true u r r' where
  header := h.header
  differential _ := h.differential (.inr hu)
  stops := hs

/-- A differential still closes the integrand. -/
theorem integrand {d : Token} (h : Ahead b (u ++ (v ++ [d])) r r') (hu : ∃ t ∈ u, t.IsCommand "int")
    (hd : startsDifferential (d :: r) = true) :
    startsDifferential (d :: r') = true ∧ Ahead true v (d :: r) (d :: r') := by
  have hint : ∃ t ∈ u ++ v, t.IsCommand "int" :=
    hu.imp fun t ht => ⟨List.mem_append_left v ht.1, ht.2⟩
  have hlast : Ahead b (u ++ v) (d :: r) (d :: r') := by
    rw [← List.append_assoc] at h
    exact h.front
  have hd' : startsDifferential (d :: r') = true := by
    rw [← hd, eq_comm]
    refine h.differential (.inr ?_) [d] ?_ (List.cons_ne_nil d [])
    · exact hu.imp fun t ht => ⟨List.mem_append_left _ ht.1, ht.2⟩
    · rw [← List.append_assoc]
      exact List.suffix_append _ _
  exact ⟨hd', (hlast.enter hint fun p _ => stops_differential hd' p).back⟩

end Ahead

/-- The header of a derivative stands in the first six tokens. -/
theorem exists_header {ts : List Token} {v : String} (h : derivativeVariable? ts = some v) :
    ∃ w, w.length = 6 ∧ ts = w ++ ts.drop 6 ∧ ∀ s, derivativeVariable? (w ++ s) = some v := by
  have hlen : (ts.take 6).length = 6 := List.length_take_of_le (length_of_derivativeVariable h)
  refine ⟨ts.take 6, hlen, (List.take_append_drop 6 ts).symm, fun s => ?_⟩
  have hle : 6 ≤ (ts.take 6).length := Nat.le_of_eq hlen.symm
  rw [derivativeVariable?_append hle, ← derivativeVariable?_append hle (ts.drop 6),
    List.take_append_drop, h]

/-- Neither operators nor commands stand in the header of a derivative. -/
theorem kind_of_derivativeVariable {ts : List Token} {v : String} (h : derivativeVariable? ts = some v) :
    ∀ t ∈ ts.take 6, t.kind ≠ .operator ∧ t.kind ≠ .function := by
  unfold derivativeVariable? at h
  split at h
  · split at h
    · next hk => simp [hk]
    · cases h
  · cases h

theorem derivativeVariable?_eq_none {t : Token} {us ws : List Token}
    (ht : t.kind = .operator ∨ t.kind = .function) (hus : us.length < 6) :
    derivativeVariable? (us ++ t :: ws) = none := by
  obtain ⟨k, hk⟩ : ∃ k, 6 - us.length = k + 1 := ⟨5 - us.length, by omega⟩
  have hmem : t ∈ (us ++ t :: ws).take 6 := by
    rw [List.take_append, hk, List.take_succ_cons]
    exact List.mem_append_right _ List.mem_cons_self
  refine Option.eq_none_iff_forall_ne_some.2 fun v hv => ?_
  obtain ⟨hop, hcommand⟩ := kind_of_derivativeVariable hv t hmem
  exact ht.elim hop hcommand

/-- In front of an operator or a command, tokens that were no header before do not become one. -/
theorem derivativeVariable?_append_cons {t : Token} {us vs ws : List Token}
    (ht : t.kind = .operator ∨ t.kind = .function) (hnone : derivativeVariable? (us ++ vs) = none) :
    derivativeVariable? (us ++ t :: ws) = none := by
  by_cases hlen : 6 ≤ us.length
  · rw [derivativeVariable?_append hlen] at hnone ⊢
    exact hnone
  · exact derivativeVariable?_eq_none ht (Nat.lt_of_not_le hlen)

/-! ## What is in front -/

/-- What is taken is not nothing. -/
theorem EndsOperand.ne_nil {u r : List Token} (h : EndsOperand (u ++ r) r) : u ≠ [] := by
  rintro rfl
  obtain ⟨u, t, hr, -⟩ := h
  have hlen := congrArg List.length hr
  simp only [List.nil_append, List.length_append, List.length_cons] at hlen
  omega

/-- **What is read does not depend on the tokens after it** beyond what is seen of them. -/
theorem Reads.replace {ph : Phase} {b : Bool} {ts r : List Token} {e : Expr} (h : Reads ph b ts e r) :
    ∃ u, ts = u ++ r ∧ ∀ r', Ahead b u r r' → Reads ph b (u ++ r') e r' := by
  -- each part of a rule ends in front of the next one, the last one in front of what is replaced
  induction h with
  | @minus _ _ t _ _ _ _ _ ht _ _ hx he =>
    obtain ⟨u, rfl, hu⟩ := hx
    obtain ⟨v, rfl, hv⟩ := he
    refine ⟨t :: (u ++ v), by simp, fun r' h => ?_⟩
    have hx := hu (v ++ r') h.tail.front
    simpa using Reads.minus ht hx (hv r' h.tail.back)
  | @plus _ _ t _ _ _ _ _ ht _ _ hx he =>
    obtain ⟨u, rfl, hu⟩ := hx
    obtain ⟨v, rfl, hv⟩ := he
    refine ⟨t :: (u ++ v), by simp, fun r' h => ?_⟩
    have hx := hu (v ++ r') h.tail.front
    simpa using Reads.plus ht hx (hv r' h.tail.back)
  | unsigned _ _ hx he =>
    obtain ⟨u, rfl, hu⟩ := hx
    obtain ⟨v, rfl, hv⟩ := he
    refine ⟨u ++ v, by simp, fun r' h => ?_⟩
    have hx := hu (v ++ r') h.front
    simpa using Reads.unsigned hx (hv r' h.back)
  | stop hs => exact ⟨[], rfl, fun r' h => .stop (h.stops _ hs)⟩
  | @operator _ _ _ t _ _ _ _ _ _ ht hl _ _ hx he =>
    obtain ⟨u, rfl, hu⟩ := hx
    obtain ⟨v, rfl, hv⟩ := he
    refine ⟨t :: (u ++ v), by simp, fun r' h => ?_⟩
    have hx := hu (v ++ r') h.tail.front
    simpa using Reads.operator ht hl hx (hv r' h.tail.back)
  | factor hl hj hxr _ hx he =>
    obtain ⟨u, rfl, hu⟩ := hx
    obtain ⟨v, rfl, hv⟩ := he
    refine ⟨u ++ v, by simp, fun r' h => ?_⟩
    have hx := hu (v ++ r') h.front
    have hj' := h.front.juxtaposes (EndsOperand.ne_nil hxr.taken)
    simpa using Reads.factor hl (hj'.symm.trans hj) hx (hv r' h.back)
  | @bracketed _ _ o _ _ c _ ho _ hc hx =>
    obtain ⟨u, rfl, hu⟩ := hx
    refine ⟨o :: (u ++ [c]), by simp, fun r' h => ?_⟩
    have hx := hu (c :: r') h.tail.front
    simpa using Reads.bracketed ho hx hc
  | @number _ t _ _ ht hx => exact ⟨[t], rfl, fun _ _ => .number ht hx⟩
  | @name _ t _ ht => exact ⟨[t], rfl, fun _ _ => .name ht⟩
  | @constant _ t _ _ ht hx => exact ⟨[t], rfl, fun _ _ => .constant ht hx⟩
  | brackets _ hx =>
    obtain ⟨u, rfl, hu⟩ := hx
    exact ⟨u, rfl, fun r' h => .brackets (hu r' h)⟩
  | @fraction _ t _ _ _ _ _ ht hd _ _ hx hy =>
    obtain ⟨u, rfl, hu⟩ := hx
    obtain ⟨v, rfl, hv⟩ := hy
    refine ⟨t :: (u ++ v), by simp, fun r' h => ?_⟩
    have hd' := h.header (u ++ v) (List.suffix_cons t _) (by simpa using hd)
    rw [List.append_assoc] at hd'
    have hx := hu (v ++ r') h.tail.front
    simpa using Reads.fraction ht hd' hx (hv r' h.tail.back)
  | @sqrt _ t _ _ _ ht _ hx =>
    obtain ⟨u, rfl, hu⟩ := hx
    exact ⟨t :: u, rfl, fun r' h => .sqrt ht (hu r' h.tail)⟩
  | @call _ _ t _ _ _ ht hn _ hx =>
    obtain ⟨u, rfl, hu⟩ := hx
    exact ⟨t :: u, rfl, fun r' h => .call ht hn (hu r' h.tail)⟩
  | @integral _ t _ _ _ _ _ _ d r _ ht _ _ _ hd hv hx hy hf =>
    obtain ⟨u, rfl, hu⟩ := hx
    obtain ⟨v, rfl, hv'⟩ := hy
    obtain ⟨w, rfl, hw⟩ := hf
    refine ⟨t :: (u ++ (v ++ (w ++ [d]))), by simp, fun r' h => ?_⟩
    obtain ⟨hd', hf⟩ := Ahead.integrand (u := t :: (u ++ v)) (by simpa using h) ⟨t, by simp, ht⟩ hd
    have hx' := hu (v ++ (w ++ d :: r')) (by simpa using h.tail.front)
    have hy' := hv' (w ++ d :: r') (by simpa using h.tail.back.front)
    simpa using Reads.integral ht hx' hy' (hw _ hf) hd' hv
  | @integralScripts _ t u _ _ c _ _ _ _ d r _ ht hu _ hc _ _ hd hv hx hy hf =>
    obtain ⟨x, rfl, hx⟩ := hx
    obtain ⟨y, rfl, hy⟩ := hy
    obtain ⟨z, rfl, hz⟩ := hf
    refine ⟨t :: u :: (x ++ (c :: (y ++ (z ++ [d])))), by simp, fun r' h => ?_⟩
    obtain ⟨hd', hf⟩ :=
      Ahead.integrand (u := t :: u :: (x ++ (c :: y))) (by simpa using h) ⟨t, by simp, ht⟩ hd
    have hx' := hx (c :: (y ++ (z ++ d :: r'))) (by simpa using h.tail.tail.front)
    have hy' := hy (z ++ d :: r') (by simpa using h.tail.tail.back.tail.front)
    simpa using Reads.integralScripts ht hu hx' hc hy' (hz _ hf) hd' hv
  | @iteration _ t _ o v c _ _ _ _ _ _ _ ht hm ho hv hc _ _ _ hx hy hf =>
    obtain ⟨x, rfl, hx⟩ := hx
    obtain ⟨y, rfl, hy⟩ := hy
    obtain ⟨z, rfl, hz⟩ := hf
    refine ⟨t :: o :: v :: c :: (x ++ (y ++ z)), by simp, fun r' h => ?_⟩
    replace h := h.tail.tail.tail.tail
    have hx' := hx (y ++ (z ++ r')) (by simpa using h.front)
    have hy' := hy (z ++ r') h.back.front
    simpa using Reads.iteration ht hm ho hv hc hx' hy' (hz r' h.back.back)
  | @iterationScripts _ t _ u o v q _ _ c p _ _ _ _ _ ht hm hu ho hv hq _ hc hp _ _ hx hy hf =>
    obtain ⟨x, rfl, hx⟩ := hx
    obtain ⟨y, rfl, hy⟩ := hy
    obtain ⟨z, rfl, hz⟩ := hf
    refine ⟨t :: u :: o :: v :: q :: (x ++ (c :: p :: (y ++ z))), by simp, fun r' h => ?_⟩
    replace h := h.tail.tail.tail.tail.tail
    have hx' := hx (c :: p :: (y ++ (z ++ r'))) (by simpa using h.front)
    have hy' := hy (z ++ r') h.back.tail.tail.front
    simpa using Reads.iterationScripts ht hm hu ho hv hq hx' hc hp hy' (hz r' h.back.tail.tail.back)
  | @derivative _ t _ _ _ _ ht hd _ hf =>
    obtain ⟨w, hw, hts, hv⟩ := exists_header hd
    obtain ⟨u, hu, hf⟩ := hf
    rw [hts, hu]
    refine ⟨t :: (w ++ u), by simp, fun r' h => ?_⟩
    have hf' := hf r' h.tail.back
    have hdrop : (w ++ (u ++ r')).drop 6 = u ++ r' := List.drop_left' hw
    rw [← hdrop] at hf'
    simpa using Reads.derivative ht (hv _) hf'
  | @derivativeAt _ t _ _ p u o n q _ _ c _ _ _ ht hd hs hp hu ho hn hnv hq _ hc _ hx hf =>
    obtain ⟨w, hw, hts, hv⟩ := exists_header hd
    obtain ⟨x, rfl, hx⟩ := hx
    obtain ⟨y, rfl, hy⟩ := hf
    rw [hts, hs]
    refine ⟨t :: (w ++ (p :: u :: o :: n :: q :: (x ++ (c :: y)))), by simp, fun r' h => ?_⟩
    replace h := h.tail.back.tail.tail.tail.tail.tail
    have hx' := hx (c :: (y ++ r')) (by simpa using h.front)
    simpa using Reads.derivativeAt ht (hv _) (List.drop_left' hw) hp hu ho hn hnv hq hx' hc
      (hy r' h.back.tail)

/-- **Before a closing bracket** nothing is read but what is read alone. -/
theorem Reads.alone {κ : Bracket} {ph : Phase} {b : Bool} {c : Token} {u s : List Token} {e : Expr}
    (hc : c.kind = κ.closing) (h : Reads ph b (u ++ c :: s) e (c :: s)) : Reads ph b u e [] := by
  obtain ⟨w, hw, hread⟩ := h.replace
  obtain rfl := List.append_cancel_right hw
  have hahead : Ahead b u (c :: s) [] := by
    refine ⟨fun w _ hnone => ?_, fun _ w _ _ => ?_, fun _ _ => trivial⟩
    · refine Option.eq_none_iff_forall_ne_some.2 fun v hv => ?_
      rw [List.append_nil] at hv
      rw [derivativeVariable?_append (length_of_derivativeVariable hv), hv] at hnone
      cases hnone
    · rw [startsDifferential_append_closing hc, List.append_nil]
  simpa using hread [] hahead

/-! ## The rules as data -/

/-- What is read: the tokens up to the rest, in a phase, inside an integrand or not, and the tree. -/
structure Reading where
  phase : Phase
  inside : Bool
  tokens : List Token
  tree : Expr
  rest : List Token

/-- The parser reads so. -/
def Reading.Holds (X : Reading) : Prop :=
  Reads X.phase X.inside X.tokens X.tree X.rest

/-- The rules of `Reads`: a reading, and the readings that it is put together from. -/
inductive Rule : Reading → List Reading → Prop
  | minus {least b t ts x m e r} (ht : t.IsOp .sub) : Rule ⟨.expr least, b, t :: ts, e, r⟩
      [⟨.expr Op.mul.precedence, b, ts, x, m⟩,
        ⟨.climb least (.binary .sub (.number 0) x), b, m, e, r⟩]
  | plus {least b t ts x m e r} (ht : t.IsOp .add) : Rule ⟨.expr least, b, t :: ts, e, r⟩
      [⟨.expr Op.mul.precedence, b, ts, x, m⟩, ⟨.climb least x, b, m, e, r⟩]
  | unsigned {least b ts x m e r} : Rule ⟨.expr least, b, ts, e, r⟩
      [⟨.operand, b, ts, x, m⟩, ⟨.climb least x, b, m, e, r⟩]
  | stop {least b lhs ts} (h : Stops least b ts) : Rule ⟨.climb least lhs, b, ts, lhs, ts⟩ []
  | operator {least b lhs t op ts x m e r} (ht : t.IsOp op) (hl : least ≤ op.precedence) :
      Rule ⟨.climb least lhs, b, t :: ts, e, r⟩
        [⟨.expr op.rightPrecedence, b, ts, x, m⟩, ⟨.climb least (.binary op lhs x), b, m, e, r⟩]
  | factor {least b lhs ts x m e r} (hl : least ≤ Op.mul.precedence) (hj : juxtaposes b ts = true) :
      Rule ⟨.climb least lhs, b, ts, e, r⟩ [⟨.expr (Op.mul.precedence + 1), b, ts, x, m⟩,
        ⟨.climb least (.binary .mul lhs x), b, m, e, r⟩]
  | bracketed {κ b o ts x c r} (ho : o.kind = κ.opening) (hc : c.kind = κ.closing) :
      Rule ⟨.bracketed κ, b, o :: ts, x, r⟩ [⟨.expr 0, b, ts, x, c :: r⟩]
  | number {b t r x} (ht : t.kind = .number) (hx : readFloat? t.text = some x) :
      Rule ⟨.operand, b, t :: r, .number x, r⟩ []
  | name {b t r} (ht : t.kind = .identifier) : Rule ⟨.operand, b, t :: r, .ident t.text, r⟩ []
  | constant {b t r x} (ht : t.kind = .function) (hx : constant? t.command = some x) :
      Rule ⟨.operand, b, t :: r, .number x, r⟩ []
  | brackets {κ b ts x r} : Rule ⟨.operand, b, ts, x, r⟩ [⟨.bracketed κ, b, ts, x, r⟩]
  | fraction {b t ts x m y r} (ht : t.IsCommand "frac") (hd : derivativeVariable? ts = none) :
      Rule ⟨.operand, b, t :: ts, .fraction x y, r⟩
        [⟨.bracketed .brace, b, ts, x, m⟩, ⟨.bracketed .brace, b, m, y, r⟩]
  | sqrt {b t ts x r} (ht : t.IsCommand "sqrt") :
      Rule ⟨.operand, b, t :: ts, .sqrt x, r⟩ [⟨.bracketed .brace, b, ts, x, r⟩]
  | call {κ b t ts x r} (ht : t.kind = .function) (hn : t.command ∉ headedCommands) :
      Rule ⟨.operand, b, t :: ts, .call t.command x, r⟩ [⟨.bracketed κ, b, ts, x, r⟩]
  | integral {b t ts x m y k f d r v} (ht : t.IsCommand "int")
      (hd : startsDifferential (d :: r) = true) (hv : d.differential? = some v) :
      Rule ⟨.operand, b, t :: ts, .integral v x y f, r⟩ [⟨.bracketed .brace, b, ts, x, m⟩,
        ⟨.bracketed .brace, b, m, y, k⟩, ⟨.expr 0, true, k, f, d :: r⟩]
  | integralScripts {b t u ts x c m y k f d r v} (ht : t.IsCommand "int") (hu : u.kind = .underscore)
      (hc : c.IsOp .pow) (hd : startsDifferential (d :: r) = true) (hv : d.differential? = some v) :
      Rule ⟨.operand, b, t :: u :: ts, .integral v x y f, r⟩
        [⟨.operand, b, ts, x, c :: m⟩, ⟨.operand, b, m, y, k⟩, ⟨.expr 0, true, k, f, d :: r⟩]
  | iteration {b t make o v c ts x m y k f r} (ht : t.kind = .function)
      (hm : iteration? t.command = some make) (ho : o.kind = .braceOpen) (hv : v.kind = .identifier)
      (hc : c.kind = .braceClose) : Rule ⟨.operand, b, t :: o :: v :: c :: ts, make v.text x y f, r⟩
        [⟨.bracketed .brace, b, ts, x, m⟩, ⟨.bracketed .brace, b, m, y, k⟩, ⟨.expr 0, b, k, f, r⟩]
  | iterationScripts {b t make u o v q ts x c p m y k f r} (ht : t.kind = .function)
      (hm : iteration? t.command = some make) (hu : u.kind = .underscore) (ho : o.kind = .braceOpen)
      (hv : v.kind = .identifier) (hq : q.kind = .equal) (hc : c.kind = .braceClose)
      (hp : p.IsOp .pow) : Rule ⟨.operand, b, t :: u :: o :: v :: q :: ts, make v.text x y f, r⟩
        [⟨.expr 0, b, ts, x, c :: p :: m⟩, ⟨.operand, b, m, y, k⟩, ⟨.expr 0, b, k, f, r⟩]
  | derivative {b t ts v f r} (ht : t.IsCommand "frac") (hd : derivativeVariable? ts = some v) :
      Rule ⟨.operand, b, t :: ts, .derivative v f, r⟩ [⟨.expr 0, b, ts.drop 6, f, r⟩]
  | derivativeAt {b t ts v p u o n q k x c m f r} (ht : t.IsCommand "frac")
      (hd : derivativeVariable? ts = some v) (hs : ts.drop 6 = p :: u :: o :: n :: q :: k)
      (hp : p.kind = .pipe) (hu : u.kind = .underscore) (ho : o.kind = .braceOpen)
      (hn : n.kind = .identifier) (hnv : n.text = v) (hq : q.kind = .equal) (hc : c.kind = .braceClose) :
      Rule ⟨.operand, b, t :: ts, .derivativeAt v x f, r⟩
        [⟨.expr 0, b, k, x, c :: m⟩, ⟨.expr 0, b, m, f, r⟩]

/-- **Induction over readings**, rule by rule. -/
theorem Reading.Holds.induct {Q : Reading → Prop}
    (step : ∀ Z ps, Rule Z ps → ps.Forall Holds → ps.Forall Q → Q Z) {Z : Reading} (h : Z.Holds) :
    Q Z := by
  obtain ⟨ph, b, ts, e, r⟩ := Z
  change Reads ph b ts e r at h
  induction h with
  | minus ht hx he ihx ihe => exact step _ _ (.minus ht) ⟨hx, he⟩ ⟨ihx, ihe⟩
  | plus ht hx he ihx ihe => exact step _ _ (.plus ht) ⟨hx, he⟩ ⟨ihx, ihe⟩
  | unsigned hx he ihx ihe => exact step _ _ .unsigned ⟨hx, he⟩ ⟨ihx, ihe⟩
  | stop h => exact step _ _ (.stop h) trivial trivial
  | operator ht hl hx he ihx ihe => exact step _ _ (.operator ht hl) ⟨hx, he⟩ ⟨ihx, ihe⟩
  | factor hl hj hx he ihx ihe => exact step _ _ (.factor hl hj) ⟨hx, he⟩ ⟨ihx, ihe⟩
  | bracketed ho hx hc ihx => exact step _ _ (.bracketed ho hc) hx ihx
  | number ht hx => exact step _ _ (.number ht hx) trivial trivial
  | name ht => exact step _ _ (.name ht) trivial trivial
  | constant ht hx => exact step _ _ (.constant ht hx) trivial trivial
  | brackets hx ihx => exact step _ _ .brackets hx ihx
  | fraction ht hd hx hy ihx ihy => exact step _ _ (.fraction ht hd) ⟨hx, hy⟩ ⟨ihx, ihy⟩
  | sqrt ht hx ihx => exact step _ _ (.sqrt ht) hx ihx
  | call ht hn hx ihx => exact step _ _ (.call ht hn) hx ihx
  | integral ht hx hy hf hd hv ihx ihy ihf =>
    exact step _ _ (.integral ht hd hv) ⟨hx, hy, hf⟩ ⟨ihx, ihy, ihf⟩
  | integralScripts ht hu hx hc hy hf hd hv ihx ihy ihf =>
    exact step _ _ (.integralScripts ht hu hc hd hv) ⟨hx, hy, hf⟩ ⟨ihx, ihy, ihf⟩
  | iteration ht hm ho hv hc hx hy hf ihx ihy ihf =>
    exact step _ _ (.iteration ht hm ho hv hc) ⟨hx, hy, hf⟩ ⟨ihx, ihy, ihf⟩
  | iterationScripts ht hm hu ho hv hq hx hc hp hy hf ihx ihy ihf =>
    exact step _ _ (.iterationScripts ht hm hu ho hv hq hc hp) ⟨hx, hy, hf⟩ ⟨ihx, ihy, ihf⟩
  | derivative ht hd hf ihf => exact step _ _ (.derivative ht hd) hf ihf
  | derivativeAt ht hd hs hp hu ho hn hnv hq hx hc hf ihx ihf =>
    exact step _ _ (.derivativeAt ht hd hs hp hu ho hn hnv hq hc) ⟨hx, hf⟩ ⟨ihx, ihf⟩

/-- **A reading holds** if those that a rule puts it together from do. -/
theorem Reading.holds_iff {Z : Reading} : Z.Holds ↔ ∃ ps, Rule Z ps ∧ ps.Forall Holds := by
  constructor
  · exact Holds.induct (Q := fun Z => ∃ ps, Rule Z ps ∧ ps.Forall Holds)
      fun _ ps hr hps _ => ⟨ps, hr, hps⟩
  · rintro ⟨ps, h, hps⟩
    cases h with
    | minus ht => exact .minus ht hps.1 hps.2
    | plus ht => exact .plus ht hps.1 hps.2
    | unsigned => exact .unsigned hps.1 hps.2
    | stop h => exact .stop h
    | operator ht hl => exact .operator ht hl hps.1 hps.2
    | factor hl hj => exact .factor hl hj hps.1 hps.2
    | bracketed ho hc => exact .bracketed ho hps hc
    | number ht hx => exact .number ht hx
    | name ht => exact .name ht
    | constant ht hx => exact .constant ht hx
    | brackets => exact .brackets hps
    | fraction ht hd => exact .fraction ht hd hps.1 hps.2
    | sqrt ht => exact .sqrt ht hps
    | call ht hn => exact .call ht hn hps
    | integral ht hd hv => exact .integral ht hps.1 hps.2.1 hps.2.2 hd hv
    | integralScripts ht hu hc hd hv =>
      exact .integralScripts ht hu hps.1 hc hps.2.1 hps.2.2 hd hv
    | iteration ht hm ho hv hc => exact .iteration ht hm ho hv hc hps.1 hps.2.1 hps.2.2
    | iterationScripts ht hm hu ho hv hq hc hp =>
      exact .iterationScripts ht hm hu ho hv hq hps.1 hc hp hps.2.1 hps.2.2
    | derivative ht hd => exact .derivative ht hd hps
    | derivativeAt ht hd hs hp hu ho hn hnv hq hc =>
      exact .derivativeAt ht hd hs hp hu ho hn hnv hq hps.1 hc hps.2

/-! ## Replacing a part -/

namespace Reading

/-- The tokens `s` can be read instead of those of `X`. -/
structure Allows (X : Reading) (s : List Token) : Prop where
  reads : Reads X.phase X.inside s X.tree X.rest
  starts : (∀ p l, X.phase ≠ .climb p l) → juxtaposes X.inside X.tokens = true →
    juxtaposes X.inside s = true

/-- `Z` is `X` with the tokens `u` in front: what can be read instead of `X` can be read there. -/
structure Context (u : List Token) (X Z : Reading) : Prop where
  tokens : Z.tokens = u ++ X.tokens
  inside : X.inside = Z.inside ∨ X.inside = true ∧ ∃ t ∈ u, t.IsCommand "int"
  fill : ∀ s, Ahead Z.inside u X.tokens s → Ahead X.inside u X.tokens s → X.Allows s →
    Z.Allows (u ++ s)

namespace Context

variable {X Y Z : Reading} {t : Token} {u v : List Token}

theorem refl (X : Reading) : Context [] X X :=
  ⟨rfl, .inl rfl, fun _ _ _ h => h⟩

theorem trans (h : Context v X Y) (h' : Context u Y Z) : Context (u ++ v) X Z where
  tokens := by rw [h'.tokens, h.tokens, List.append_assoc]
  inside := by
    rcases h.inside with hX | ⟨hX, t, ht, hint⟩
    · rcases h'.inside with hY | ⟨hY, t, ht, hint⟩
      · exact .inl (hX.trans hY)
      · exact .inr ⟨hX.trans hY, t, List.mem_append_left v ht, hint⟩
    · exact .inr ⟨hX, t, List.mem_append_right u ht, hint⟩
  fill s hZ hX hs := by
    -- an integrand between `X` and `Z` starts in front of `Y` or behind
    have hY : Ahead Y.inside (u ++ v) X.tokens s := by
      rcases h'.inside with hYZ | ⟨hY, -⟩
      · rwa [hYZ]
      · rcases h.inside with hXY | ⟨hX', -⟩
        · rwa [← hXY]
        · rwa [hY, ← hX']
    have hv := h.fill s hY.back hX.back hs
    rw [List.append_assoc]
    refine h'.fill (v ++ s) ?_ ?_ hv
    · rw [h.tokens]
      exact hZ.front
    · rw [h.tokens]
      exact hY.front

/-- A token in front hides how the part starts. -/
theorem cons (htokens : Z.tokens = t :: (u ++ X.tokens))
    (hinside : X.inside = Z.inside ∨ X.inside = true ∧ ∃ t' ∈ t :: u, t'.IsCommand "int")
    (hfill : ∀ s, Ahead Z.inside (t :: u) X.tokens s → X.Allows s →
      Reads Z.phase Z.inside (t :: (u ++ s)) Z.tree Z.rest) : Context (t :: u) X Z where
  tokens := htokens
  inside := hinside
  fill s hz _ hs := by
    refine ⟨hfill s hz hs, fun _ hj => ?_⟩
    rw [← hz.juxtaposes (List.cons_ne_nil t u), List.cons_append, ← htokens, hj]

end Context

end Reading

/-- **Each part of a rule** can be replaced. -/
theorem Rule.contexts {Z : Reading} {ps : List Reading} (h : Rule Z ps)
    (hps : ps.Forall Reading.Holds) : ps.Forall fun X => ∃ u, Reading.Context u X Z := by
  -- the parts in front of the new tokens are read up to these (`Reads.replace`), those behind as before
  cases h <;> simp only [List.Forall, Reading.Holds] at hps ⊢
  case minus t ts x m e r ht =>
    obtain ⟨hx, he⟩ := hps
    obtain ⟨u, rfl, hu⟩ := hx.replace
    constructor
    · exact ⟨[t], .cons rfl (.inl rfl) fun s _ hs => .minus ht hs.reads he⟩
    · exact ⟨t :: u, .cons rfl (.inl rfl) fun s h hs => .minus ht (hu s h.tail) hs.reads⟩
  case plus t ts x m e r ht =>
    obtain ⟨hx, he⟩ := hps
    obtain ⟨u, rfl, hu⟩ := hx.replace
    constructor
    · exact ⟨[t], .cons rfl (.inl rfl) fun s _ hs => .plus ht hs.reads he⟩
    · exact ⟨t :: u, .cons rfl (.inl rfl) fun s h hs => .plus ht (hu s h.tail) hs.reads⟩
  case unsigned ts x m e r =>
    obtain ⟨hx, he⟩ := hps
    obtain ⟨u, rfl, hu⟩ := hx.replace
    obtain ⟨t, u, rfl⟩ := List.exists_cons_of_ne_nil (EndsOperand.ne_nil hx.taken)
    constructor
    · refine ⟨[], rfl, .inl rfl, fun s _ _ hs => ⟨.unsigned hs.reads he, fun _ => hs.starts ?_⟩⟩
      rintro _ _ ⟨⟩
    · exact ⟨t :: u, .cons rfl (.inl rfl) fun s h hs => .unsigned (hu s h) hs.reads⟩
  case operator t op ts x m e r ht hl =>
    obtain ⟨hx, he⟩ := hps
    obtain ⟨u, rfl, hu⟩ := hx.replace
    constructor
    · exact ⟨[t], .cons rfl (.inl rfl) fun s _ hs => .operator ht hl hs.reads he⟩
    · exact ⟨t :: u, .cons rfl (.inl rfl) fun s h hs => .operator ht hl (hu s h.tail) hs.reads⟩
  case factor b lhs ts x m e r hl hj =>
    obtain ⟨hx, he⟩ := hps
    obtain ⟨u, rfl, hu⟩ := hx.replace
    obtain ⟨t, u, rfl⟩ := List.exists_cons_of_ne_nil (EndsOperand.ne_nil hx.taken)
    constructor
    · refine ⟨[], rfl, .inl rfl, fun s _ _ hs => ⟨.factor hl (hs.starts ?_ hj) hs.reads he, ?_⟩⟩
      · rintro _ _ ⟨⟩
      · exact fun hc => absurd rfl (hc _ _)
    · refine ⟨t :: u, .cons rfl (.inl rfl) fun s h hs => ?_⟩
      have hj' := (h.juxtaposes (List.cons_ne_nil t u)).symm.trans hj
      exact .factor hl hj' (hu s h) hs.reads
  case bracketed b o ts x c r ho hc =>
    exact ⟨[o], .cons rfl (.inl rfl) fun s _ hs => .bracketed ho hs.reads hc⟩
  case brackets =>
    refine ⟨[], rfl, .inl rfl, fun s _ _ hs => ⟨.brackets hs.reads, fun _ => hs.starts ?_⟩⟩
    rintro _ _ ⟨⟩
  case fraction t ts x m y r ht hd =>
    obtain ⟨hx, hy⟩ := hps
    obtain ⟨u, rfl, hu⟩ := hx.replace
    constructor
    · refine ⟨[t], .cons rfl (.inl rfl) fun s h hs => ?_⟩
      exact .fraction ht (h.header [] List.nil_suffix hd) hs.reads hy
    · refine ⟨t :: u, .cons rfl (.inl rfl) fun s h hs => ?_⟩
      exact .fraction ht (h.header u (List.suffix_cons t u) hd) (hu s h.tail) hs.reads
  case sqrt t ts x r ht =>
    exact ⟨[t], .cons rfl (.inl rfl) fun s _ hs => .sqrt ht hs.reads⟩
  case call t ts x r ht hn =>
    exact ⟨[t], .cons rfl (.inl rfl) fun s _ hs => .call ht hn hs.reads⟩
  case integral t ts x m y k f d r v ht hd hv =>
    obtain ⟨hx, hy, hf⟩ := hps
    obtain ⟨u, rfl, hu⟩ := hx.replace
    obtain ⟨w, rfl, hw⟩ := hy.replace
    refine ⟨?_, ?_, ?_⟩
    · exact ⟨[t], .cons rfl (.inl rfl) fun s _ hs => .integral ht hs.reads hy hf hd hv⟩
    · exact ⟨t :: u, .cons rfl (.inl rfl) fun s h hs => .integral ht (hu s h.tail) hs.reads hf hd hv⟩
    · refine ⟨t :: (u ++ w), .cons (by simp) (.inr ⟨rfl, t, by simp, ht⟩) fun s h hs => ?_⟩
      have hx' := hu (w ++ s) h.tail.front
      simpa using Reads.integral ht hx' (hw s h.tail.back) hs.reads hd hv
  case integralScripts t u ts x c m y k f d r v ht hu hc hd hv =>
    obtain ⟨hx, hy, hf⟩ := hps
    obtain ⟨p, rfl, hp⟩ := hx.replace
    obtain ⟨q, rfl, hq⟩ := hy.replace
    refine ⟨?_, ?_, ?_⟩
    · exact ⟨[t, u], .cons rfl (.inl rfl) fun s _ hs =>
        .integralScripts ht hu hs.reads hc hy hf hd hv⟩
    · refine ⟨t :: u :: (p ++ [c]), .cons (by simp) (.inl rfl) fun s h hs => ?_⟩
      have hx' := hp (c :: s) h.tail.tail.front
      simpa using Reads.integralScripts ht hu hx' hc hs.reads hf hd hv
    · refine ⟨t :: u :: (p ++ c :: q), .cons (by simp) (.inr ⟨rfl, t, by simp, ht⟩) fun s h hs => ?_⟩
      have hx' := hp (c :: (q ++ s)) h.tail.tail.front
      have hy' := hq s h.tail.tail.back.tail
      simpa using Reads.integralScripts ht hu hx' hc hy' hs.reads hd hv
  case iteration t make o v c ts x m y k f r ht hm ho hv hc =>
    obtain ⟨hx, hy, hf⟩ := hps
    obtain ⟨p, rfl, hp⟩ := hx.replace
    obtain ⟨q, rfl, hq⟩ := hy.replace
    refine ⟨?_, ?_, ?_⟩
    · exact ⟨[t, o, v, c], .cons rfl (.inl rfl) fun s _ hs =>
        .iteration ht hm ho hv hc hs.reads hy hf⟩
    · exact ⟨t :: o :: v :: c :: p, .cons rfl (.inl rfl) fun s h hs =>
        .iteration ht hm ho hv hc (hp s h.tail.tail.tail.tail) hs.reads hf⟩
    · refine ⟨t :: o :: v :: c :: (p ++ q), .cons (by simp) (.inl rfl) fun s h hs => ?_⟩
      replace h := h.tail.tail.tail.tail
      simpa using Reads.iteration ht hm ho hv hc (hp (q ++ s) h.front) (hq s h.back) hs.reads
  case iterationScripts t make u o v q ts x c p m y k f r ht hm hu ho hv hq hc hp =>
    obtain ⟨hx, hy, hf⟩ := hps
    obtain ⟨i, rfl, hi⟩ := hx.replace
    obtain ⟨j, rfl, hj⟩ := hy.replace
    refine ⟨?_, ?_, ?_⟩
    · exact ⟨[t, u, o, v, q], .cons rfl (.inl rfl) fun s _ hs =>
        .iterationScripts ht hm hu ho hv hq hs.reads hc hp hy hf⟩
    · refine ⟨t :: u :: o :: v :: q :: (i ++ [c, p]), .cons (by simp) (.inl rfl) fun s h hs => ?_⟩
      have hx' := hi (c :: p :: s) h.tail.tail.tail.tail.tail.front
      simpa using Reads.iterationScripts ht hm hu ho hv hq hx' hc hp hs.reads hf
    · refine ⟨t :: u :: o :: v :: q :: (i ++ c :: p :: j), .cons (by simp) (.inl rfl) fun s h hs => ?_⟩
      replace h := h.tail.tail.tail.tail.tail
      have hx' := hi (c :: p :: (j ++ s)) h.front
      have hy' := hj s h.back.tail.tail
      simpa using Reads.iterationScripts ht hm hu ho hv hq hx' hc hp hy' hs.reads
  case derivative t ts v f r ht hd =>
    obtain ⟨w, hw, hts, hv⟩ := exists_header hd
    refine ⟨t :: w, .cons (congrArg (t :: ·) hts) (.inl rfl) fun s _ hs => ?_⟩
    have hf := hs.reads
    have hdrop : (w ++ s).drop 6 = s := List.drop_left' hw
    rw [← hdrop] at hf
    exact .derivative ht (hv s) hf
  case derivativeAt t ts v p u o n q k x c m f r ht hd hs hp hu ho hn hnv hq hc =>
    obtain ⟨hx, hf⟩ := hps
    obtain ⟨w, hw, hts, hv⟩ := exists_header hd
    obtain ⟨y, rfl, hy⟩ := hx.replace
    rw [hs] at hts
    constructor
    · refine ⟨t :: (w ++ [p, u, o, n, q]), .cons (by simp [hts]) (.inl rfl) fun s h hs' => ?_⟩
      simpa using Reads.derivativeAt ht (hv _) (List.drop_left' hw) hp hu ho hn hnv hq hs'.reads hc hf
    · refine ⟨t :: (w ++ p :: u :: o :: n :: q :: (y ++ [c])), .cons (by simp [hts]) (.inl rfl)
        fun s h hs' => ?_⟩
      have hx' := hy (c :: s) h.tail.back.tail.tail.tail.tail.tail.front
      simpa using Reads.derivativeAt ht (hv _) (List.drop_left' hw) hp hu ho hn hnv hq hx' hc hs'.reads

/-! ## Parts -/

namespace Reading

variable {X Z : Reading}

/-- A reading is a part of itself, and what a rule puts a part of it together from are parts. -/
inductive Part (X : Reading) : Reading → Prop
  | whole (h : X.Holds) : X.Part X
  | within {Y Z ps} (hr : Rule Z ps) (hps : ps.Forall Holds) (hY : Y ∈ ps) (h : X.Part Y) : X.Part Z

theorem Part.holds (h : X.Part Z) : Z.Holds := by
  cases h with
  | whole h => exact h
  | within hr hps _ _ => exact holds_iff.2 ⟨_, hr, hps⟩

theorem Part.holds_part (h : X.Part Z) : X.Holds := by
  induction h with
  | whole h => exact h
  | within _ _ _ _ ih => exact ih

/-- **A part can be replaced** by other tokens that are read in the same way. -/
theorem Part.context (h : X.Part Z) : ∃ u, Context u X Z := by
  induction h with
  | whole => exact ⟨[], .refl X⟩
  | within hr hps hY _ ih =>
    obtain ⟨v, hv⟩ := ih
    obtain ⟨u, hu⟩ := List.forall_iff_forall_mem.1 (hr.contexts hps) _ hY
    exact ⟨u ++ v, hv.trans hu⟩

end Reading

end LatexCalc
