import LatexCalc.Proofs.Reading.Enclosed
import LatexCalc.Proofs.Reading.Grammar
import LatexCalc.Proofs.Reading.Lookahead
import LatexCalc.Proofs.Reading.Operands
import LatexCalc.Proofs.Reading.Precedence

/-!
# Brackets in integrands

Inside an integrand, in brackets as well, no factor starts with a differential. That is all that sets
the reading of an integrand apart: what is an expression outside of integrands is read inside in the
same way, or else some expression ends early before a differential (`Reads.inside`), where no bracket
can be closed. So tokens in brackets are the same expression in an integrand as by themselves, or they
are none (`parse_integral_brackets`).
-/

namespace LatexCalc

variable {κ : Bracket} {c : Token} {ph ph' : Phase} {ts us m m' r r' s z : List Token}
  {e e' f f' x x' : Expr}

/-! ## Ends -/

theorem Stops.inside {p : Nat} (h : Stops p false ts) : Stops p true ts := by
  cases ts with
  | nil => trivial
  | cons t ts =>
    by_cases ht : t.kind = .operator
    · exact (stops_operator ht).2 ((stops_operator ht).1 h)
    · exact (stops_of_ne_operator ht).2 fun hj =>
        (stops_of_ne_operator ht).1 h ⟨hj.1, juxtaposes_of_inside hj.2 false⟩

/-- Climbing that was led to a differential ends there. -/
theorem startsDifferential_of_climb {p : Nat} {l : Expr} (hd : startsDifferential ts = true)
    (h : Reads (.climb p l) true ts e r) : startsDifferential r = true := by
  rw [(h.eq_of_stops (stops_differential hd p)).2, hd]

theorem not_startsDifferential {t : Token} (ht : t.kind ≠ .identifier) :
    ¬startsDifferential (t :: ts) = true :=
  fun hd => ht (kind_of_startsDifferential hd)

theorem Bracket.opening_injective : Function.Injective Bracket.opening := by
  rintro (_ | _) (_ | _) h <;> first | rfl | cases h

theorem Bracket.closing_ne_identifier (κ : Bracket) : κ.closing ≠ .identifier := by
  cases κ <;> decide

/-- No expression starts where one outside of integrands ends. -/
theorem Reads.not_stops {b : Bool} (h : Reads (.expr 0) b ts e r) : ¬Stops 0 false ts := by
  obtain ⟨t, s, rfl, ht⟩ := h.head_expr
  intro hs
  by_cases hk : t.kind = .operator
  · obtain ⟨op, -, hlt⟩ := (stops_operator hk).1 hs
    exact absurd hlt (Nat.not_lt_zero _)
  · have hstarts := ht.resolve_left hk
    exact (stops_of_ne_operator hk).1 hs ⟨Nat.zero_le _, by simp [juxtaposes, hstarts]⟩

/-! ## Outside and inside of integrands -/

/-- What is known of the end `r` of a phase outside of integrands if it ends early in an integrand. -/
def Phase.MayEndEarly : Phase → List Token → Prop
  | .operand, r => Stops 0 false r
  | .bracketed _, _ => False
  | .expr _, _ | .climb _ _, _ => True

/-- How tokens `ts` that outside of integrands are read as `e` up to `r` are read in an integrand, with
the tokens `z` behind them: in the same way, or to an earlier end before a differential. -/
inductive Inside (z : List Token) (ph : Phase) (ts : List Token) (e : Expr) (r : List Token) :
    Expr → List Token → Prop
  | same (h : Reads ph true ts e r) : Inside z ph ts e r e (r ++ z)
  | early {e' : Expr} {r' : List Token} (hd : startsDifferential r' = true) (hr : ph.MayEndEarly r) :
    Inside z ph ts e r e' r'

namespace Inside

theorem bracketed (h : Inside z (.bracketed κ) ts e r e' r') :
    Reads (.bracketed κ) true ts e r ∧ e' = e ∧ r' = r ++ z := by
  cases h with
  | same h => exact ⟨h, rfl, rfl⟩
  | early _ hr => exact hr.elim

/-- What stands before a token that is no name is not read early. -/
theorem of_ne {t : Token} (ht : t.kind ≠ .identifier) (h : Inside z ph ts e r e' (t :: r')) :
    Reads ph true ts e r ∧ e' = e ∧ t :: r' = r ++ z := by
  generalize hs : t :: r' = s at h
  cases h with
  | same h => exact ⟨h, rfl, rfl⟩
  | early hd => exact absurd (hs ▸ hd) (not_startsDifferential ht)

/-- Climbing after a part that is the same or ends early. -/
theorem climb {p : Nat} (hx : Inside z ph' ts x m x' m') (l : Expr → Expr)
    (he' : Reads (.climb p (l x')) true m' e' r')
    (he : ∀ {e' r'}, Reads (.climb p (l x)) true (m ++ z) e' r' →
      Inside z (.climb p (l x)) m e r e' r') (hr : ph.MayEndEarly r)
    (h : Reads ph' true ts x m → Reads (.climb p (l x)) true m e r → Reads ph true us e r) :
    Inside z ph us e r e' r' := by
  cases hx with
  | early hd => exact .early (startsDifferential_of_climb hd he') hr
  | same hx =>
    cases he he' with
    | early hd => exact .early hd hr
    | same he => exact .same (h hx he)

/-- An operand that ends with an expression ends early where that does. -/
theorem operand (hf : Inside z (.expr 0) m f r f' r') (hr : Reads (.expr 0) false m f r)
    (l : Expr → Expr) (h : Reads (.expr 0) true m f r → Reads .operand true ts (l f) r) :
    Inside z .operand ts (l f) r (l f') r' := by
  cases hf with
  | same hf => exact .same (h hf)
  | early hd => exact .early hd hr.stops

/-- An operand in front of an expression does not end early. -/
theorem script {b : Bool} (hy : Inside z .operand ts e r e' r') (hf : Reads (.expr 0) b r f m) :
    Reads .operand true ts e r ∧ e' = e ∧ r' = r ++ z := by
  cases hy with
  | same h => exact ⟨h, rfl, rfl⟩
  | early _ hr => exact absurd hr hf.not_stops

end Inside

/-- **Outside and inside of integrands** the same tokens are read in the same way, but where a factor
starts with a differential: inside it is none, and all expressions that it ends end there. -/
theorem Reads.inside (hc : c.kind = κ.closing) (h : Reads ph false ts e r)
    (h' : Reads ph true (ts ++ c :: s) e' r') : Inside (c :: s) ph ts e r e' r' := by
  have hbrace : TokenKind.braceClose ≠ .identifier := by decide
  generalize hb : false = b at h
  induction h generalizing e' r' with
  | minus ht hx he ihx ihe =>
    obtain ⟨x', m', hx', he'⟩ := h'.of_minus ht
    exact (ihx hx' hb).climb _ he' (ihe · hb) trivial (.minus ht)
  | plus ht hx he ihx ihe =>
    obtain ⟨x', m', hx', he'⟩ := h'.of_plus ht
    exact (ihx hx' hb).climb id he' (ihe · hb) trivial (.plus ht)
  | unsigned hx he ihx ihe =>
    obtain ⟨t, s', rfl, ht⟩ := hx.startsOperand
    obtain ⟨x', m', hx', he'⟩ := h'.of_unsigned ht
    exact (ihx hx' hb).climb id he' (ihe · hb) trivial .unsigned
  | stop hs =>
    subst hb
    obtain ⟨rfl, rfl⟩ := h'.eq_of_stops (hs.inside.append_closing hc s)
    exact .same (.stop hs.inside)
  | operator ht hl hx he ihx ihe =>
    obtain ⟨x', m', hx', he'⟩ := h'.of_operator ht hl
    exact (ihx hx' hb).climb _ he' (ihe · hb) trivial (.operator ht hl)
  | @factor p _ _ ts _ _ _ _ hl hj hx he ihx ihe =>
    subst hb
    by_cases hd : startsDifferential ts = true
    · -- Inside, the expression ends in front of the factor.
      rw [← startsDifferential_append_closing hc ts s] at hd
      exact .early (startsDifferential_of_climb hd h') trivial
    · have hj' : juxtaposes true ts = true := by simpa [juxtaposes, hd] using hj
      obtain ⟨x', m', hx', he'⟩ :=
        h'.of_factor hl ((juxtaposes_append_closing hc true ts s).trans hj')
      exact (ihx hx' rfl).climb _ he' (ihe · rfl) trivial (.factor hl hj')
  | bracketed ho hx hk ihx =>
    obtain ⟨k, hk', hx'⟩ := h'.of_bracketed
    obtain ⟨hx, rfl, hm⟩ := (ihx hx' hb).of_ne (hk' ▸ Bracket.closing_ne_identifier _)
    cases hm
    exact .same (.bracketed ho hx hk)
  | number ht hx =>
    obtain ⟨rfl, rfl⟩ := h'.unique_operand (.number ht hx)
    exact .same (.number ht hx)
  | name ht =>
    obtain ⟨rfl, rfl⟩ := h'.unique_operand (.name ht)
    exact .same (.name ht)
  | constant ht hx =>
    obtain ⟨rfl, rfl⟩ := h'.unique_operand (.constant ht hx)
    exact .same (.constant ht hx)
  | brackets hx ihx =>
    obtain ⟨o, us, rfl, ho⟩ := hx.head_bracketed
    obtain ⟨hx, rfl, rfl⟩ := (ihx (h'.of_brackets ho) hb).bracketed
    exact .same (.brackets hx)
  | @fraction _ _ ts _ _ _ _ ht hd hx hy ihx ihy =>
    have hxl := hx.length_bracketed
    have hyl := hy.length_bracketed
    have hd' := (derivativeVariable?_append (by omega) (c :: s)).trans hd
    obtain ⟨x', m', y', rfl, hx', hy'⟩ := h'.of_fraction ht hd'
    obtain ⟨hx, rfl, rfl⟩ := (ihx hx' hb).bracketed
    obtain ⟨hy, rfl, rfl⟩ := (ihy hy' hb).bracketed
    exact .same (.fraction ht hd hx hy)
  | sqrt ht hx ihx =>
    obtain ⟨x', rfl, hx'⟩ := h'.of_sqrt ht
    obtain ⟨hx, rfl, rfl⟩ := (ihx hx' hb).bracketed
    exact .same (.sqrt ht hx)
  | call ht hn hx ihx =>
    obtain ⟨κ', x', rfl, hx'⟩ := h'.of_call ht hn
    obtain ⟨o, us, rfl, ho⟩ := hx.head_bracketed
    obtain ⟨o', us', hus, ho'⟩ := hx'.head_bracketed
    cases hus
    obtain rfl := Bracket.opening_injective (ho.symm.trans ho')
    obtain ⟨hx, rfl, rfl⟩ := (ihx hx' hb).bracketed
    exact .same (.call ht hn hx)
  | integral ht hx hy hf hd hv ihx ihy =>
    obtain ⟨o, us, rfl, ho⟩ := hx.head_bracketed
    obtain ⟨v', x', y', f', m', k', d', rfl, hx', hy', hf', -, hv'⟩ := h'.of_integral ht ho
    obtain ⟨hx, rfl, rfl⟩ := (ihx hx' hb).bracketed
    obtain ⟨hy, rfl, rfl⟩ := (ihy hy' hb).bracketed
    obtain ⟨rfl, hdr⟩ := hf'.unique_expr (hf.enclosed hc s)
    cases hdr
    cases hv.symm.trans hv'
    exact .same (.integral ht hx hy hf hd hv)
  | integralScripts ht hu hx hp hy hf hd hv ihx ihy =>
    obtain ⟨v', x', y', f', p', m', k', d', rfl, hx', hp', hy', hf', -, hv'⟩ := h'.of_integralScripts ht hu
    obtain ⟨hx, rfl, hm⟩ := (ihx hx' hb).of_ne (by rw [hp'.1]; decide)
    cases hm
    obtain ⟨hy, rfl, rfl⟩ := (ihy hy' hb).script hf
    obtain ⟨rfl, hdr⟩ := hf'.unique_expr (hf.enclosed hc s)
    cases hdr
    cases hv.symm.trans hv'
    exact .same (.integralScripts ht hu hx hp hy hf hd hv)
  | iteration ht hm ho hv hk hx hy hf ihx ihy ihf =>
    subst hb
    obtain ⟨x', y', f', m', k', rfl, hx', hy', hf'⟩ := h'.of_iteration ht hm ho
    obtain ⟨hx, rfl, rfl⟩ := (ihx hx' rfl).bracketed
    obtain ⟨hy, rfl, rfl⟩ := (ihy hy' rfl).bracketed
    exact (ihf hf' rfl).operand hf _ (.iteration ht hm ho hv hk hx hy)
  | iterationScripts ht hm hu ho hv hq hx hk hp hy hf ihx ihy ihf =>
    subst hb
    obtain ⟨x', y', f', p', d', m', k', rfl, hx', hp', hy', hf'⟩ := h'.of_iterationScripts ht hm hu
    obtain ⟨hx, rfl, hm'⟩ := (ihx hx' rfl).of_ne (hp' ▸ hbrace)
    cases hm'
    obtain ⟨hy, rfl, rfl⟩ := (ihy hy' rfl).script hf
    exact (ihf hf' rfl).operand hf _ (.iterationScripts ht hm hu ho hv hq hx hk hp hy)
  | derivative ht hd hf ihf =>
    subst hb
    have hlen := length_of_derivativeVariable hd
    have hd' := (derivativeVariable?_append hlen (c :: s)).trans hd
    obtain ⟨k, us, hs, -⟩ := hf.head_expr
    have hs' := (List.drop_append_of_le_length hlen).trans (congrArg (· ++ c :: s) hs)
    obtain ⟨f', rfl, hf'⟩ := h'.of_derivative ht hd' hs' (head_ne_pipe (hs ▸ hf))
    rw [List.drop_append_of_le_length hlen] at hf'
    exact (ihf hf' rfl).operand hf _ (.derivative ht hd)
  | derivativeAt ht hd hs hp hu ho hn hnv hq hx hk hf ihx ihf =>
    subst hb
    have hlen := length_of_derivativeVariable hd
    have hd' := (derivativeVariable?_append hlen (c :: s)).trans hd
    have hs' := (List.drop_append_of_le_length hlen).trans (congrArg (· ++ c :: s) hs)
    obtain ⟨x', k', m', f', rfl, hx', hk', hf'⟩ := h'.of_derivativeAt ht hd' hs' hp
    obtain ⟨hx, rfl, hm⟩ := (ihx hx' rfl).of_ne (hk' ▸ hbrace)
    cases hm
    exact (ihf hf' rfl).operand hf _ (.derivativeAt ht hd hs hp hu ho hn hnv hq hx hk)

/-! ## Brackets -/

/-- Tokens that are an expression outside of integrands are the same one inside, if they are one there
in front of a closing bracket. -/
theorem Reads.inside_of_whole {c' : Token} (hc : c.kind = κ.closing) (hc' : c'.kind = κ.closing)
    (h : Reads (.expr 0) false ts e []) (h' : Reads (.expr 0) true (ts ++ c :: s) e' (c' :: r')) :
    Reads (.expr 0) true ts e [] :=
  ((h.inside hc h').of_ne (hc' ▸ κ.closing_ne_identifier)).1

theorem Reads.unique_bracketed {b : Bool} (h : Reads (.bracketed κ) b ts e r)
    (h' : Reads (.bracketed κ) b ts e' r') : e = e' ∧ r = r' :=
  unique_operand (.brackets h) (.brackets h')

section

variable {line : String} {t o d : Token} {as bs : List Token} {a b : Expr} {v : String}

/-- **Brackets isolate their content, except from the differentials of an integrand.** Let some tokens
be parsed as `e`. In brackets as the integrand of an integral they are the integrand `e` exactly if they
can be derived inside an integrand, which is to say without a product that has no operator and a second
factor that starts with a differential; and they are no other integrand in any case. -/
theorem parse_integral_brackets (he : parse line ts = .ok e) (ht : t.IsCommand "int")
    (ha : Grouped line .brace as a) (hb : Grouped line .brace bs b) (ho : o.kind = κ.opening)
    (hc : c.kind = κ.closing) (hd : d.kind = .identifier) (hv : d.differential? = some v) :
    let tokens := t :: (as ++ (bs ++ o :: (ts ++ [c, d])))
    (parse line tokens = .ok (.integral v a b e) ↔ ∃ e', Derives Fits .expr true ts e' []) ∧
      ∀ e', parse line tokens = .ok e' → e' = .integral v a b e := by
  intro tokens
  have hts := parse_eq_ok_iff.1 he
  have hdiff : startsDifferential [d] = true := by simp [startsDifferential, hd, hv]
  have hinside : Reads (.expr 0) true ts e [] → parse line tokens = .ok (.integral v a b e) := by
    intro h
    have hbrackets := Reads.brackets (h.bracketed_of_whole ho hc [d])
    have hintegrand := Reads.unsigned hbrackets (.stop (stops_differential hdiff 0))
    have hoperand := Reads.integral ht (ha.reads _) (hb.reads _) hintegrand hdiff hv
    exact parse_eq_ok_iff.2 (.unsigned hoperand (.stop trivial))
  have hread {e'} (h : parse line tokens = .ok e') : Reads (.expr 0) true ts e [] := by
    obtain ⟨_, _, hx, -⟩ := (parse_eq_ok_iff.1 h).of_unsigned (by rw [ht.1]; rfl)
    obtain ⟨o', us, hus, ho'⟩ := (ha.reads (bs ++ o :: (ts ++ [c, d]))).head_bracketed
    rw [hus] at hx
    obtain ⟨_, _, _, _, _, _, _, -, hx, hy, hf, -⟩ := hx.of_integral ht ho'
    rw [← hus] at hx
    obtain ⟨-, rfl⟩ := hx.unique_bracketed (ha.reads _)
    obtain ⟨-, rfl⟩ := hy.unique_bracketed (hb.reads _)
    obtain ⟨_, _, hx, -⟩ := hf.of_unsigned (by rw [ho, κ.startsOperand_opening])
    obtain ⟨c', hc', hx⟩ := (hx.of_brackets ho).of_bracketed
    exact hts.inside_of_whole hc hc' hx
  refine ⟨⟨fun h => ⟨e, (hread h).derived⟩, fun h => ?_⟩, fun e' h => ?_⟩
  · obtain ⟨e', h⟩ := h
    obtain ⟨x, hx⟩ := h.read [] (show Stops 0 true [] from trivial).goes
    exact hinside (hts.inside_of_whole hc hc (hx.enclosed hc [d]))
  · cases h.symm.trans (hinside (hread h))
    rfl

/-- The line `\int{0}{1}(2x)dx`. -/
theorem parse_integral_brackets_product :
    let ts : List Token := [⟨.number, "2", 0⟩, ⟨.identifier, "x", 1⟩]
    let zero : List Token := [⟨.braceOpen, "\x7b", 4⟩, ⟨.number, "0", 5⟩, ⟨.braceClose, "\x7d", 6⟩]
    let one : List Token := [⟨.braceOpen, "\x7b", 7⟩, ⟨.number, "1", 8⟩, ⟨.braceClose, "\x7d", 9⟩]
    let e : Expr := .binary .mul (.number 2) (.ident "x")
    parse "2x" ts = .ok e ∧ Grouped "2x" .brace zero (.number 0) ∧ Grouped "2x" .brace one (.number 1) ∧
      Derives Fits .expr true ts e [] ∧
      parse "2x" (⟨.function, "\\int", 0⟩ :: (zero ++ (one ++ ⟨.parenOpen, "(", 10⟩ ::
        (ts ++ [⟨.parenClose, ")", 13⟩, ⟨.identifier, "dx", 14⟩])))) =
          .ok (.integral "x" (.number 0) (.number 1) e) := by
  intro ts zero one e
  have hts : parse "2x" ts = .ok e := rfl
  have hzero : Grouped "2x" .brace zero (.number 0) := ⟨_, [_], _, rfl, rfl, rfl, rfl⟩
  have hone : Grouped "2x" .brace one (.number 1) := ⟨_, [_], _, rfl, rfl, rfl, rfl⟩
  have hd : Derives Fits .expr true ts e [] :=
    .product (.operand (.number rfl rfl)) (by decide) (.operand (.name rfl))
  exact ⟨hts, hzero, hone, hd, (parse_integral_brackets hts (t := ⟨.function, "\\int", 0⟩) ⟨rfl, rfl⟩
    hzero hone (κ := .paren) rfl rfl rfl rfl).1.2 ⟨e, hd⟩⟩

/-- The tokens `2 dx` are a product by themselves, but not in brackets in an integrand. -/
theorem parse_integral_brackets_differential :
    let line := "\\int\x7b0\x7d\x7b1\x7d(2 dx)dx"
    let ts : List Token := [⟨.number, "2", 11⟩, ⟨.identifier, "dx", 13⟩]
    let header : List Token := [⟨.function, "\\int", 0⟩, ⟨.braceOpen, "\x7b", 4⟩, ⟨.number, "0", 5⟩,
      ⟨.braceClose, "\x7d", 6⟩, ⟨.braceOpen, "\x7b", 7⟩, ⟨.number, "1", 8⟩, ⟨.braceClose, "\x7d", 9⟩]
    tokenize line = .ok (header ++ ⟨.parenOpen, "(", 10⟩ ::
        (ts ++ [⟨.parenClose, ")", 15⟩, ⟨.identifier, "dx", 16⟩])) ∧
      parse line ts = .ok (.binary .mul (.number 2) (.ident "dx")) ∧
      parse line (header ++ ⟨.parenOpen, "(", 10⟩ ::
        (ts ++ [⟨.parenClose, ")", 15⟩, ⟨.identifier, "dx", 16⟩])) =
          .error (.unexpectedToken (.token .parenClose) ⟨.identifier, "dx", 13⟩) :=
  ⟨by cbv, rfl, rfl⟩

end

end LatexCalc
