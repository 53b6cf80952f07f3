import LatexCalc.Proofs.Reading.Lookahead
import LatexCalc.Proofs.Reading.Operands
import LatexCalc.Proofs.Reading.Parts

/-!
# Products without an operator

Two operands side by side are a product. Where reading forms one (`ProductAt`), a sign of multiplication
may be put between them: climbing goes on in the same way (`Reads.climb_mul_iff`), and what is in front
sees no difference (`ahead_mul`) but for one case. The name of a differential such as `dx` in front of
a factor is a factor itself; in front of the sign it ends an integrand. Without integrals, or if no such
name is in front, the tree remains the same (`parse_explicit_product`).
-/

namespace LatexCalc

variable {b : Bool} {s : Token} {ts us ws r : List Token} {e : Expr}

/-! ## In front of a sign of multiplication -/

/-- **A sign of multiplication in front of a factor** says what is understood without it. -/
theorem Reads.climb_mul_iff {p : Nat} {lhs : Expr} (hp : p ≤ Op.mul.precedence)
    (hj : juxtaposes b ws = true) (hs : s.IsOp .mul) :
    Reads (.climb p lhs) b (s :: ws) e r ↔ Reads (.climb p lhs) b ws e r := by
  constructor
  · intro h
    obtain ⟨x, m, hx, he⟩ := h.of_operator hs hp
    exact .factor hp hj hx he
  · intro h
    obtain ⟨x, m, hx, he⟩ := h.of_factor hp hj
    exact .operator hs hp hx he

/-- A token that is no differential by itself never starts one. -/
theorem startsDifferential_of_single {t : Token} (ht : startsDifferential [t] = false)
    (ts : List Token) : startsDifferential (t :: ts) = false := by
  rw [startsDifferential_cons] at ht ⊢
  cases hk : decide (t.kind = .identifier) && t.differential?.isSome with
  | false => rfl
  | true =>
    rw [hk] at ht
    cases ht

theorem startsDifferential_append_cons {t : Token} (ht : startsDifferential [t] = false)
    (us vs ws : List Token) :
    startsDifferential (us ++ t :: vs) = startsDifferential (us ++ t :: ws) := by
  have hnone := startsDifferential_of_single ht
  cases us with
  | nil => rw [List.nil_append, List.nil_append, hnone, hnone]
  | cons u us =>
    refine startsDifferential_append (List.cons_ne_nil u us) (.inl ?_)
    simp [juxtaposes, hnone]

/-- Inside fewer integrands all the more is a factor. -/
theorem juxtaposes_of_imp {b' : Bool} (h : juxtaposes b' ts = true) (hb : b = true → b' = true) :
    juxtaposes b ts = true := by
  cases b' with
  | true => exact juxtaposes_of_inside h b
  | false =>
    rw [Bool.eq_false_iff.2 fun hb' => Bool.false_ne_true (hb hb')]
    exact h

/-- **The tokens in front of a factor** see the same where a sign of multiplication follows, unless the
last one may be a differential. -/
theorem ahead_mul {b' : Bool} (hs : s.IsOp .mul) (hj : juxtaposes b' ws = true)
    (hb : b = true → b' = true) (hd : (b = false ∧ ∀ t ∈ us, ¬t.IsCommand "int") ∨
      ∀ t ∈ us.getLast?, startsDifferential [t] = false) : Ahead b us ws (s :: ws) where
  header _ _ hnone := derivativeVariable?_append_cons (.inl hs.1) hnone
  differential hint w hw hne := by
    rcases hd with ⟨hb', hnone⟩ | hlast
    · rcases hint with hb | ⟨t, ht, hint⟩
      · cases hb.symm.trans hb'
      · exact absurd hint (hnone t ht)
    · obtain ⟨w, t, rfl⟩ := w.eq_nil_or_concat'.resolve_left hne
      obtain ⟨u, rfl⟩ := hw
      rw [List.append_assoc, List.append_assoc]
      exact startsDifferential_append_cons (hlast t (by simp)) w ws (s :: ws)
  stops p hstop := by
    obtain ⟨t, ts, rfl, hk⟩ := head_of_juxtaposes hj
    have hjb := juxtaposes_of_imp hj hb
    have hp := (stops_of_ne_operator (ne_operator_of_startsOperand hk)).1 hstop
    exact (stops_operator hs.1).2 ⟨.mul, hs.2, Nat.lt_of_not_le fun hle => hp ⟨hle, hjb⟩⟩

/-- A differential is a name of a `d` and more. -/
theorem exists_of_startsDifferential {t : Token} (h : startsDifferential [t] = true) :
    t.kind = .identifier ∧ ∃ c cs, t.text.toList = 'd' :: c :: cs := by
  simp only [startsDifferential, Bool.and_true, Bool.and_eq_true, decide_eq_true_eq] at h
  refine ⟨h.1, ?_⟩
  obtain ⟨v, hv⟩ := Option.isSome_iff_exists.1 h.2
  unfold Token.differential? at hv
  split at hv
  · next c cs htext => exact ⟨c, cs, htext⟩
  · cases hv

/-! ## Places of products -/

/-- Reading goes on with a factor. -/
def Reading.IsFactor (X : Reading) : Prop :=
  ∃ p lhs, X.phase = .climb p lhs ∧ p ≤ Op.mul.precedence ∧ juxtaposes X.inside X.tokens = true

/-- In the tokens `ts` a product without an operator is formed in front of place `i`. -/
def ProductAt (ts : List Token) (i : Nat) : Prop :=
  ∃ (X : Reading) (e : Expr),
    X.Part ⟨.expr 0, false, ts, e, []⟩ ∧ X.IsFactor ∧ X.tokens = ts.drop i

/-- What goes on with a factor goes on with a sign of multiplication in the same way. -/
theorem Reading.IsFactor.allows {X : Reading} (hX : X.IsFactor) (h : X.Holds) (hs : s.IsOp .mul) :
    X.Allows (s :: X.tokens) := by
  obtain ⟨ph, b, ws, e, r⟩ := X
  obtain ⟨p, lhs, rfl, hp, hj⟩ := hX
  exact ⟨(Reads.climb_mul_iff hp hj hs).2 h, fun hclimb => absurd rfl (hclimb p lhs)⟩

theorem Reading.IsFactor.juxtaposes {X : Reading} (hX : X.IsFactor) :
    juxtaposes X.inside X.tokens = true := by
  obtain ⟨_, _, -, -, hj⟩ := hX
  exact hj

theorem ProductAt.lt_length {i : Nat} (h : ProductAt ts i) : i < ts.length := by
  obtain ⟨X, -, -, hX, htokens⟩ := h
  obtain ⟨_, _, hcons, -⟩ := head_of_juxtaposes hX.juxtaposes
  by_contra hle
  rw [htokens, List.drop_eq_nil_of_le (Nat.le_of_not_lt hle)] at hcons
  cases hcons

/-- The last token in front of a place is the one before it. -/
theorem getElem?_of_getLast?_take {i : Nat} {t : Token} (hi : i < ts.length)
    (ht : t ∈ (ts.take i).getLast?) : t ∈ ts[i - 1]? := by
  rw [List.getLast?_take] at ht
  split at ht
  · cases ht
  · rwa [List.getElem?_eq_getElem (Nat.lt_of_le_of_lt (Nat.sub_le i 1) hi), Option.some_or,
      ← List.getElem?_eq_getElem] at ht

/-- **A product without an operator means one with a sign.** Let some tokens be parsed as `e`, and let a
product be formed in front of place `i`. If no integral is among the tokens, or if the token in front of
that place is no name of a `d` and more, then with a sign of multiplication at that place the tokens are
parsed as `e`, too. -/
theorem parse_explicit_product {line line' : String} {i : Nat} (he : parse line ts = .ok e)
    (hi : ProductAt ts i)
    (hd : (∀ t ∈ ts, ¬t.IsCommand "int") ∨
      ∀ t ∈ ts[i - 1]?, ¬(t.kind = .identifier ∧ ∃ c cs, t.text.toList = 'd' :: c :: cs))
    (hs : s.IsOp .mul) : parse line' (ts.take i ++ s :: ts.drop i) = .ok e := by
  have hlt := hi.lt_length
  obtain ⟨X, e', hX, hfactor, htokens⟩ := hi
  cases he.symm.trans (parse_eq_ok_iff.2 hX.holds)
  obtain ⟨u, hu⟩ := hX.context
  have hts : ts = u ++ X.tokens := hu.tokens
  have htake : ts.take i = u := by
    rw [← List.append_left_inj X.tokens, ← hts, htokens, List.take_append_drop]
  have hlast : (X.inside = false ∧ ∀ t ∈ u, ¬t.IsCommand "int") ∨
      ∀ t ∈ u.getLast?, startsDifferential [t] = false := by
    rcases hd with hnone | hname
    · have hu' : ∀ t ∈ u, ¬t.IsCommand "int" := fun t ht =>
        hnone t (hts ▸ List.mem_append_left X.tokens ht)
      refine .inl ⟨hu.inside.resolve_right ?_, hu'⟩
      rintro ⟨-, t, ht, hint⟩
      exact hu' t ht hint
    · refine .inr fun t ht => Bool.eq_false_iff.2 fun hdiff => ?_
      rw [← htake] at ht
      exact hname t (getElem?_of_getLast?_take hlt ht) (exists_of_startsDifferential hdiff)
  have hahead (b : Bool) (hb : b = true → X.inside = true) : Ahead b u X.tokens (s :: X.tokens) := by
    refine ahead_mul hs hfactor.juxtaposes hb (hlast.imp_left fun h => ⟨?_, h.2⟩)
    cases b with
    | false => rfl
    | true => exact absurd (hb rfl) (by simp [h.1])
  have hread := hu.fill _ (hahead false (fun h => nomatch h)) (hahead X.inside id)
    (hfactor.allows hX.holds_part hs)
  rw [parse_eq_ok_iff, ← htokens, htake]
  exact hread.reads

/-- The tokens of `2x`. -/
theorem parse_explicit_product_name :
    let ts : List Token := [⟨.number, "2", 0⟩, ⟨.identifier, "x", 1⟩]
    let e : Expr := .binary .mul (.number 2) (.ident "x")
    parse "2x" ts = .ok e ∧ ProductAt ts 1 ∧ (∀ t ∈ ts, ¬t.IsCommand "int") ∧
      parse "2\\cdot x"
        [⟨.number, "2", 0⟩, ⟨.operator, "\\cdot", 1⟩, ⟨.identifier, "x", 1⟩] = .ok e := by
  intro ts e
  have he : parse "2x" ts = .ok e := rfl
  have htwo : Reads .operand false ts (.number 2) (ts.drop 1) := .number rfl rfl
  have hname : Reads (.expr (Op.mul.precedence + 1)) false (ts.drop 1) (.ident "x") [] :=
    .unsigned (.name rfl) (.stop trivial)
  have hx : Reads (.climb 0 (.number 2)) false (ts.drop 1) e [] :=
    .factor (by decide) rfl hname (.stop trivial)
  have hat : ProductAt ts 1 :=
    ⟨⟨.climb 0 (.number 2), false, ts.drop 1, e, []⟩, e,
      .within .unsigned ⟨htwo, hx⟩ (List.mem_pair.2 (.inr rfl)) (.whole hx),
      ⟨0, _, rfl, by decide, rfl⟩, rfl⟩
  have hint : ∀ t ∈ ts, ¬t.IsCommand "int" := by
    intro t ht hint
    rcases List.mem_pair.1 ht with rfl | rfl <;> cases hint.1
  exact ⟨he, hat, hint, parse_explicit_product he hat (.inl hint) ⟨rfl, rfl⟩⟩

/- In `\int{0}{1}2 dx x dx` the first `dx` is a factor, but with a sign behind it the differential. -/
example :
    let line := "\\int\x7b0\x7d\x7b1\x7d2 dx x dx"
    let front : List Token := [⟨.function, "\\int", 0⟩, ⟨.braceOpen, "\x7b", 4⟩, ⟨.number, "0", 5⟩,
      ⟨.braceClose, "\x7d", 6⟩, ⟨.braceOpen, "\x7b", 7⟩, ⟨.number, "1", 8⟩, ⟨.braceClose, "\x7d", 9⟩,
      ⟨.number, "2", 10⟩, ⟨.identifier, "dx", 12⟩]
    let back : List Token := [⟨.identifier, "x", 15⟩, ⟨.identifier, "dx", 17⟩]
    parse line (front ++ back) = .ok (.integral "x" (.number 0) (.number 1)
        (.binary .mul (.binary .mul (.number 2) (.ident "dx")) (.ident "x"))) ∧
      parse line (front ++ ⟨.operator, "*", 14⟩ :: back) = .ok (.binary .mul (.binary .mul
        (.integral "x" (.number 0) (.number 1) (.number 2)) (.ident "x")) (.ident "dx")) :=
  ⟨rfl, rfl⟩

end LatexCalc
