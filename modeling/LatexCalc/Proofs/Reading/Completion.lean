import LatexCalc.Proofs.Decimal.Unsigned
import LatexCalc.Proofs.Reading.Coherence

/-!
# Completing what was read

Whatever coherent demands tokens leave, there are tokens that meet them (`refusal_completion`), unless one
of the demands is caught. So where reading fails, the tokens before can be completed, or among them is an
operand of a script that has no end of its own (`completed_or_caught`).
-/

namespace LatexCalc

open Demand

/-! ## Tokens that meet a demand -/

namespace Token

/-- A token of each kind. -/
def sample (kind : TokenKind) : Token :=
  match kind with
  | .number => ⟨.number, "0", 0⟩
  | .identifier => ⟨.identifier, "x", 0⟩
  | .function => ⟨.function, "\\pi", 0⟩
  | .operator => ⟨.operator, "^", 0⟩
  | .braceOpen => ⟨.braceOpen, "\x7b", 0⟩
  | .braceClose => ⟨.braceClose, "\x7d", 0⟩
  | .parenOpen => ⟨.parenOpen, "(", 0⟩
  | .parenClose => ⟨.parenClose, ")", 0⟩
  | .equal => ⟨.equal, "=", 0⟩
  | .pipe => ⟨.pipe, "|", 0⟩
  | .underscore => ⟨.underscore, "_", 0⟩

/-- A name. -/
def name (v : String) : Token :=
  ⟨.identifier, v, 0⟩

theorem kind_sample (kind : TokenKind) : (sample kind).kind = kind := by
  cases kind <;> rfl

end Token

namespace Demand

/-- A number in braces. -/
def braced : List Token :=
  [.sample .braceOpen, .sample .number, .sample .braceClose]

/-- Tokens that meet a demand. What an integrand may end in front of is met by a differential. -/
def filler : Demand → List Token
  | expr _ _ | operand _ | derivand _ _ => [.sample .number]
  | rest _ _ => []
  | body _ | differential => [.name "dx"]
  | token kind => [.sample kind]
  | power => [.sample .operator]
  | named v => [.name v]
  | bounds _ => braced ++ braced
  | range _ => [.sample .braceOpen, .sample .identifier, .sample .braceClose] ++ braced ++ braced
  | argument _ => braced

end Demand

/-- Tokens that meet demands one after the other. -/
def filling (π : List Demand) : List Token :=
  π.flatMap Demand.filler

/-- Tokens that meet demands which other tokens left. An expression that may end goes on with a sign, so
that these tokens begin with no closing brace behind it. -/
def completion (π : List Demand) : List Token :=
  match π with
  | rest _ _ :: _ => [.sample .operator, .sample .number] ++ filling π
  | _ => filling π

section

variable {σ : Demand} {π : List Demand} {ts : List Token} {b : Bool}

/-- Where a differential may stand, `dx` is one. -/
theorem juxtaposes_name (ts : List Token) :
    juxtaposes true (.name "dx" :: ts) = juxtaposes true ts := by
  have hd : (Token.name "dx").differential?.isSome = true := by decide
  rw [juxtaposes, startsDifferential_cons, hd]
  simp [Token.name, TokenKind.startsOperand]

theorem startsDifferential_name (h : juxtaposes true ts = false) :
    startsDifferential (.name "dx" :: ts) = true := by
  have hd : (Token.name "dx").differential?.isSome = true := by decide
  rw [startsDifferential_cons, hd, h]
  rfl

theorem ofOperand_zero (b : Bool) (ts : List Token) : ofOperand b (.sample .number) ts = some [] := by
  have hx : (readFloat? (Token.sample .number).text).isSome = true := by decide +kernel
  simp only [ofOperand, Token.kind_sample, hx, if_true]

theorem refusal_more {t : Token} {χ : List Demand} (ho : ¬σ.Over (t :: ts))
    (h : σ.more t ts = some χ) : refusal? (σ :: π) (t :: ts) = refusal? (χ ++ π) ts :=
  refusal_taken (feed_of_more ho h)

theorem refusal_token (kind : TokenKind) :
    refusal? (token kind :: π) (.sample kind :: ts) = refusal? π ts := by
  have hmore : (token kind).more (.sample kind) ts = some [] := by simp [more, Token.kind_sample]
  exact refusal_more id hmore

theorem refusal_rest {p : Nat} (hs : Stops p b ts) : refusal? (rest p b :: π) ts = refusal? π ts :=
  have hover : (rest p b).Over ts := hs
  refusal_over hover

/-- A number is an expression. -/
theorem refusal_zero {p : Nat} (hs : Stops p b ts) :
    refusal? (expr p b :: π) (.sample .number :: ts) = refusal? π ts := by
  have hmore : (expr p b).more (.sample .number) ts = some [rest p b] := by
    simp [more, ofExpr, ofOperand_zero, Token.kind_sample]
  exact (refusal_more id hmore).trans (refusal_over hs)

theorem refusal_bracket (κ : Bracket) :
    refusal? (expr 0 b :: token κ.closing :: π) (.sample .number :: .sample κ.closing :: ts) =
      refusal? π ts := by
  rw [refusal_zero (stops_closing (Token.kind_sample _) 0 b ts), refusal_token]

theorem refusal_group : refusal? (group b ++ π) (braced ++ ts) = refusal? π ts :=
  (refusal_token _).trans (refusal_bracket .brace)

/-- A name that is a differential where one may stand is a body, too. -/
theorem refusal_name (hs : Stops 0 b ts) :
    refusal? (body b :: π) (.name "dx" :: ts) = refusal? π ts := by
  have hmore : (body b).more (.name "dx") ts = some [rest 0 b] := by
    simp [more, ofExpr, ofOperand, Token.name]
  exact (refusal_more id hmore).trans (refusal_over hs)

theorem refusal_bounds : refusal? (bounds b :: π) (braced ++ braced ++ ts) = refusal? π ts := by
  have hmore (us : List Token) : (bounds b).more (.sample .braceOpen) us =
      some ([.expr 0 b, .token .braceClose] ++ group b) := by
    simp [more, Token.kind_sample]
  rw [List.append_assoc]
  exact ((refusal_more id (hmore _)).trans (refusal_bracket .brace)).trans refusal_group

theorem refusal_range : refusal? (range b :: π)
    ([.sample .braceOpen, .sample .identifier, .sample .braceClose] ++ braced ++ braced ++ ts) =
      refusal? π ts := by
  have hmore (us : List Token) : (range b).more (.sample .braceOpen) us =
      some ([.token .identifier, .token .braceClose] ++ group b ++ group b) := by
    simp [more, Token.kind_sample]
  rw [List.append_assoc, List.append_assoc]
  refine (refusal_more id (hmore _)).trans ?_
  simp only [List.append_assoc]
  exact (((refusal_token _).trans (refusal_token _)).trans refusal_group).trans refusal_group

theorem refusal_argument : refusal? (argument b :: π) (braced ++ ts) = refusal? π ts := by
  have hmore (us : List Token) : (argument b).more (.sample .braceOpen) us =
      some [.expr 0 b, .token .braceClose] := by
    simp [more, Token.kind_sample]
  exact (refusal_more id (hmore _)).trans (refusal_bracket .brace)

/-! ## Tokens that meet all demands -/

/-- In front of what meets shy demands, a differential may stand. -/
theorem juxtaposes_filling (hc : Coherent π) (hπ : ∀ τ ∈ π.head?, τ.shy = true) :
    juxtaposes true (filling π) = false := by
  induction π with
  | nil => rfl
  | cons σ π ih =>
    have hshy := hπ σ rfl
    have hfilling : filling (σ :: π) = σ.filler ++ filling π := List.flatMap_cons
    rw [hfilling]
    cases σ with
    | rest p b =>
      refine ih hc.tail fun τ hτ => ?_
      rcases hc.precedes hτ with h | h
      · exact shy_of_ends h
      · exact shy_of_traps h.2
    | body b => exact (juxtaposes_name _).trans (ih hc.tail fun τ hτ => shy_of_boundary (hc.precedes hτ))
    | differential => exact (juxtaposes_name _).trans (ih hc.tail fun τ hτ => hc.precedes hτ)
    | power => rfl
    | token kind => cases kind <;> first | rfl | cases hshy
    | _ => cases hshy

/-- In front of what meets demands, an expression ends that may end there and is not caught. -/
theorem stops_filling (hc : Coherent π) (hf : Free π) (hπ : ∀ τ ∈ π.head?, τ.ends b = true)
    (p : Nat) : Stops p b (filling π) := by
  induction π with
  | nil => trivial
  | cons σ π ih =>
    have hends := hπ σ rfl
    have hfilling : filling (σ :: π) = σ.filler ++ filling π := List.flatMap_cons
    rw [hfilling]
    cases σ with
    | rest q b' =>
      obtain rfl : b' = b := by simpa [ends] using hends
      exact ih hc.tail hf.tail fun τ hτ => (hc.precedes hτ).resolve_right (hf.rel_head? hτ)
    | body b' =>
      obtain rfl : b = true := hends
      exact stops_differential (startsDifferential_name
        (juxtaposes_filling hc.tail fun τ hτ => shy_of_boundary (hc.precedes hτ))) p
    | differential =>
      obtain rfl : b = true := hends
      exact stops_differential (startsDifferential_name
        (juxtaposes_filling hc.tail fun τ hτ => hc.precedes hτ)) p
    | token kind =>
      have hk : ∃ κ : Bracket, kind = κ.closing := by
        rcases of_decide_eq_true hends with rfl | rfl
        · exact ⟨.brace, rfl⟩
        · exact ⟨.paren, rfl⟩
      obtain ⟨κ, rfl⟩ := hk
      exact stops_closing (Token.kind_sample _) p b _
    | _ => cases hends

/-- **Demands that are not caught can be met.** -/
theorem refusal_filling (hc : Coherent π) (hf : Free π) : refusal? π (filling π) = none := by
  induction π with
  | nil => rfl
  | cons σ π ih =>
    have hrest := ih hc.tail hf.tail
    have hfilling : filling (σ :: π) = σ.filler ++ filling π := List.flatMap_cons
    have hstops {b : Bool} (p : Nat) (hb : ∀ τ ∈ π.head?, τ.ends b = true) :=
      stops_filling hc.tail hf.tail hb p
    rw [hfilling, ← hrest]
    cases σ with
    | expr p b =>
      exact refusal_zero (hstops p fun τ hτ => (hc.precedes hτ).resolve_right (hf.rel_head? hτ))
    | rest p b =>
      exact refusal_over (hstops p fun τ hτ => (hc.precedes hτ).resolve_right (hf.rel_head? hτ))
    | operand b =>
      have hmore : (operand b).more (.sample .number) (filling π) = some [] :=
        ofOperand_zero b (filling π)
      exact refusal_more id hmore
    | body b =>
      exact refusal_name (hstops 0 fun τ hτ => (hc.precedes hτ).resolve_right (hf.rel_head? hτ))
    | derivand v b =>
      have hmore : (derivand v b).more (.sample .number) (filling π) = some [rest 0 b] := by
        simp [more, ofExpr, ofOperand_zero, Token.kind_sample]
      refine (refusal_more id hmore).trans (refusal_over ?_)
      exact hstops 0 fun τ hτ => (hc.precedes hτ).resolve_right (hf.rel_head? hτ)
    | token kind => exact refusal_token kind
    | power =>
      have hmore : power.more (.sample .operator) (filling π) = some [] := by
        simp [more, Token.sample, Op.ofText?]
      exact refusal_more id hmore
    | named v =>
      have hmore : (named v).more (.name v) (filling π) = some [] := by simp [more, Token.name]
      exact refusal_more id hmore
    | differential =>
      have hs := startsDifferential_name (juxtaposes_filling hc.tail fun τ hτ => hc.precedes hτ)
      have hmore : differential.more (.name "dx") (filling π) = some [] := by simp [more, hs]
      exact refusal_more id hmore
    | bounds b => exact refusal_bounds
    | range b => exact refusal_range
    | argument b => exact refusal_argument

/-- So can they behind a sign, where an expression goes on with one. -/
theorem refusal_completion (hc : Coherent π) (hf : Free π) : refusal? π (completion π) = none := by
  unfold completion
  split
  · next p b π =>
    have hp : p ≤ Op.pow.precedence := hc.proper _ List.mem_cons_self
    have hop : Op.ofText? (Token.sample .operator).text = some .pow := rfl
    have hover : ¬(rest p b).Over (.sample .operator :: .sample .number :: filling π) := by
      intro hs
      have hstop : Stops p b (.sample .operator :: .sample .number :: filling π) := hs
      obtain ⟨op, hop', hlt⟩ := (stops_operator (Token.kind_sample .operator)).1 hstop
      cases hop.symm.trans hop'
      exact absurd hlt (Nat.not_lt.2 hp)
    have hmore : (rest p b).more (.sample .operator) (.sample .number :: filling π) =
        some [expr Op.pow.rightPrecedence b, rest p b] := by
      simp [more, ofRest, Token.kind_sample, hop]
    have hstops (q : Nat) : Stops q b (filling π) :=
      stops_filling hc.tail hf.tail
        (fun τ hτ => (hc.precedes hτ).resolve_right (hf.rel_head? hτ)) q
    refine (refusal_more hover hmore).trans ((refusal_zero (hstops _)).trans ?_)
    exact (refusal_rest (hstops p)).trans (refusal_filling hc.tail hf.tail)
  · exact refusal_filling hc hf

/-! ## What completions begin with -/

variable {π₀ ρ : List Demand} {us vs : List Token}

/-- Behind a name, a differential may stand in front of a completion. -/
theorem juxtaposes_completion (hc : Coherent ρ) (hρ : ∀ τ ∈ ρ.head?, τ.shy = true) :
    juxtaposes true (completion ρ) = false := by
  unfold completion
  split
  · rfl
  · exact juxtaposes_filling hc hρ

theorem juxtaposes_of_getLast (hc : Coherent π) (hs : ∀ t ∈ us ++ vs, t.IsSpelled)
    (h : after π us vs = some ρ) :
    ∀ t ∈ us.getLast?, t.kind = .identifier → juxtaposes true (completion ρ) = false := by
  intro t ht hk
  obtain ⟨u, rfl⟩ := List.getLast?_eq_some_iff.1 ht
  obtain ⟨χ, hχ, hρ⟩ := after_append.1 h
  obtain ⟨_, hfeed, ⟨⟩⟩ := after_cons.1 hρ
  rw [List.append_assoc] at hs
  have hcχ := hc.after hs hχ
  have hsv : ∀ t ∈ vs, t.IsSpelled := fun v hv => hs v (by simp [hv])
  exact juxtaposes_completion (hcχ.feed hsv hfeed) (shy_of_name hcχ hk hfeed)

/-! ### Headers of derivatives -/

section

variable {t : Token}

theorem after_token {kind : TokenKind} (ht : t.kind = kind) :
    after (token kind :: π) (t :: us) vs = after π us vs := by
  have hfeed : feed t (us ++ vs) (token kind :: π) = some π := by
    simp [feed, Over, more, ht]
  rw [after, hfeed]

theorem after_name {p : Nat} (ht : t.kind = .identifier) :
    after (expr p b :: π) (t :: us) vs = after (rest p b :: π) us vs := by
  have hfeed : feed t (us ++ vs) (expr p b :: π) = some (rest p b :: π) := by
    simp [feed, Over, more, ofExpr, ofOperand, ht]
  rw [after, hfeed]

theorem after_closing {p : Nat} (ht : t.kind = .braceClose) :
    after (rest p b :: token .braceClose :: π) (t :: us) vs = after π us vs := by
  have hover : (rest p b).Over (t :: (us ++ vs)) := stops_closing (κ := .brace) ht p b _
  rw [after, feed_over hover]
  exact after_token ht

end

/-- The kinds of the tokens in the header of a derivative. -/
theorem kinds_of_derivativeVariable {v : String} (h : derivativeVariable? ts = some v) :
    (ts.take 6).map Token.kind = [.braceOpen, .identifier, .braceClose, .braceOpen, .identifier,
      .braceClose] := by
  unfold derivativeVariable? at h
  split at h
  · split at h
    · next hk =>
      obtain ⟨h₁, h₂, -, h₃, h₄, h₅, h₆⟩ := hk
      simp [h₁, h₂, h₃, h₄, h₅, h₆]
    · cases h
  · cases h

/-- With what is left of a group, a completion does not go on as a header does. -/
theorem exists_of_group {n : Nat} {kinds : List TokenKind}
    (h : after (group b ++ π) us vs = some ρ)
    (hkinds : ((us ++ completion ρ).take (n + 3)).map Token.kind =
      .braceOpen :: .identifier :: .braceClose :: kinds) :
    ∃ o d c us', us = o :: d :: c :: us' ∧ after π us' vs = some ρ ∧
      ((us' ++ completion ρ).take n).map Token.kind = kinds := by
  rcases us with _ | ⟨o, us⟩
  · cases h
    simp [completion, filling, filler, group, Token.kind_sample] at hkinds
  obtain ⟨ho, hkinds⟩ := List.cons.inj hkinds
  rw [group, List.cons_append, after_token ho] at h
  rcases us with _ | ⟨d, us⟩
  · cases h
    simp [completion, filling, filler, Token.kind_sample] at hkinds
  obtain ⟨hd, hkinds⟩ := List.cons.inj hkinds
  rw [List.cons_append, after_name hd] at h
  rcases us with _ | ⟨c, us⟩
  · cases h
    simp [completion, Token.kind_sample] at hkinds
  obtain ⟨hc, hkinds⟩ := List.cons.inj hkinds
  rw [List.cons_append, after_closing hc] at h
  exact ⟨o, d, c, us, rfl, h, hkinds⟩

/-- A completion does not complete the header of a derivative. -/
theorem derivativeVariable_completion (h : after (ofFraction b (us ++ vs) ++ π) us vs = some ρ)
    (hv : derivativeVariable? (us ++ vs) = none) :
    derivativeVariable? (us ++ completion ρ) = none := by
  simp only [ofFraction, hv, List.append_assoc] at h
  by_contra hne
  obtain ⟨v, hv'⟩ := Option.ne_none_iff_exists'.1 hne
  obtain ⟨o, d, c, us, rfl, h, hkinds⟩ := exists_of_group h (kinds_of_derivativeVariable hv')
  obtain ⟨o', x, c', us, rfl, -, -⟩ := exists_of_group h hkinds
  exact hne hv

/-! ## Completions -/

/-- **Where no demand is caught, what was read can be completed.** -/
theorem refusal_append_completion (hc : Coherent π) (hs : ∀ t ∈ us ++ vs, t.IsSpelled)
    (hnum : ∀ t ∈ vs.head?, t.kind = .number → (readFloat? t.text).isSome = true)
    (h : after π us vs = some ρ) (hρ : refusal? ρ vs = some vs) (hf : Free ρ) :
    refusal? π (us ++ completion ρ) = none := by
  have hafter : after π us (completion ρ) = some ρ :=
    after_of_stalled h hρ hnum (juxtaposes_of_getLast hc hs h)
      fun b χ w hw hv => derivativeVariable_completion hw hv
  rw [refusal_append hafter, refusal_completion (hc.after hs h) hf]

end

/-! ## Operands of scripts without an end of their own -/

/-- The tokens end with one of the two signs of scripts. -/
def EndsInScript (ts : List Token) : Prop :=
  ∃ us t, ts = us ++ [t] ∧ (t.kind = .underscore ∨ t.IsOp .pow)

/-- The tokens begin an operand that has no end of its own: they are the command of a sum or product, or
that of a fraction with the header of a derivative. -/
def IsOpenHead (ts : List Token) : Prop :=
  (∃ t, ts = [t] ∧ (t.IsCommand "sum" ∨ t.IsCommand "prod")) ∨
    ∃ t us, ts = t :: us ∧ t.IsCommand "frac" ∧ us.length = 6 ∧ (derivativeVariable? us).isSome = true

section

variable {b : Bool} {σ τ : Demand} {π ρ υ : List Demand} {t : Token} {ts us vs ws : List Token}

theorem mem_last {u w : List Token} {s : Token} (h : us ++ [s] = u ++ t :: w) : s ∈ t :: w := by
  have hlast := congrArg List.getLast? h
  rw [List.getLast?_append_of_ne_nil _ (List.cons_ne_nil t w)] at hlast
  exact List.mem_of_getLast? (by rw [← hlast]; simp)

/-- **Behind the sign of a script nothing depends on what follows.** -/
theorem after_script (h : EndsInScript us) (vs ws : List Token) : after π us vs = after π us ws := by
  obtain ⟨u, s, rfl, hs⟩ := h
  have hname : s.kind ≠ .identifier := by
    rcases hs with hk | hk
    · simp [hk]
    · simp [hk.1]
  have hnone {w : List Token} (hw : s ∈ w) (hlen : w.length < 6) (ks : List Token) :
      derivativeVariable? (w ++ ks) = none := by
    by_contra hne
    obtain ⟨v, hv⟩ := Option.ne_none_iff_exists'.1 hne
    have hmem : s.kind ∈ ((w ++ ks).take 6).map Token.kind := by
      refine List.mem_map_of_mem ?_
      rw [List.take_append, List.take_of_length_le (by omega)]
      exact List.mem_append_left _ hw
    rw [kinds_of_derivativeVariable hv] at hmem
    rcases hs with hk | hk
    · simp [hk] at hmem
    · simp [hk.1] at hmem
  refine after_congr fun u' t w heq => ⟨?_, fun ht => ?_⟩
  · exact startsDifferential_append (List.cons_ne_nil t w) (.inr ⟨s, mem_last heq, hname⟩)
  · have hw : s ∈ w := by
      refine (List.mem_cons.1 (mem_last heq)).resolve_left ?_
      rintro rfl
      rcases hs with hk | hk
      · exact absurd hk (by simp [ht.1])
      · exact absurd hk.1 (by simp [ht.1])
    by_cases hlen : 6 ≤ w.length
    · rw [derivativeVariable?_append hlen, derivativeVariable?_append hlen]
    · rw [hnone hw (by omega), hnone hw (by omega)]

/-- An operand without a sign is asked for only where tokens end in a script, or from the start. -/
theorem endsInScript_of_operand (hc : Coherent π) (hs : ∀ t ∈ us ++ vs, t.IsSpelled)
    (h : after π us vs = some (operand b :: ρ)) (hπ : π ≠ operand b :: ρ) : EndsInScript us := by
  rcases List.eq_nil_or_concat us with rfl | ⟨u, t, rfl⟩
  · exact absurd (Option.some.inj h) hπ
  · rw [List.concat_eq_append] at h hs ⊢
    obtain ⟨χ, hχ, hρ⟩ := after_append.1 h
    obtain ⟨_, hfeed, ⟨⟩⟩ := after_cons.1 hρ
    rw [List.append_assoc] at hs
    exact ⟨u, t, rfl, script_of_operand (hc.after hs hχ) hfeed⟩

/-- Where a demand is caught, there is a first token that caught one. -/
theorem exists_of_not_free (hc : Coherent π) (hf : Free π) (hs : ∀ t ∈ us ++ vs, t.IsSpelled)
    (h : after π us vs = some ρ) (hρ : ¬Free ρ) :
    ∃ a t w b τ υ χ, us = a ++ t :: w ∧ after π a (t :: w ++ vs) = some (operand b :: τ :: υ) ∧
      Free (operand b :: τ :: υ) ∧ τ.traps b = true ∧ OpensBody t (w ++ vs) ∧
      feed t (w ++ vs) (operand b :: τ :: υ) = some χ ∧ after χ w vs = some ρ := by
  induction us generalizing π with
  | nil =>
    cases h
    exact absurd hf hρ
  | cons t us ih =>
    obtain ⟨χ, hχ, hrun⟩ := after_cons.1 h
    have hs' : ∀ t ∈ us ++ vs, t.IsSpelled := (List.forall_mem_cons.1 hs).2
    rcases hf.feed hc hs' hχ with hfχ | ⟨b, τ, υ, rfl, htraps, hopens⟩
    · obtain ⟨a, t', w, b, τ, υ, χ', rfl, ha, hrest⟩ := ih (hc.feed hs' hχ) hfχ hs' hrun
      rw [List.append_assoc] at hχ
      exact ⟨t :: a, t', w, b, τ, υ, χ', rfl, after_cons.2 ⟨χ, hχ, ha⟩, hrest⟩
    · exact ⟨[], t, us, b, τ, υ, χ, rfl, rfl, hf, htraps, hopens, hχ, hrun⟩

/-- Where reading fails, the operand of a script that has no end of its own is there with all its head. -/
theorem exists_openHead (hopens : OpensBody t (us ++ vs))
    (h : feed t (us ++ vs) (operand b :: π) = some υ) (hafter : after υ us vs = some ρ)
    (hρ : refusal? ρ vs = some vs) : ∃ q w, t :: us = q ++ w ∧ IsOpenHead q := by
  rcases hopens with ht | ht | ⟨ht, hv⟩
  · exact ⟨[t], us, rfl, .inl ⟨t, rfl, .inl ht⟩⟩
  · exact ⟨[t], us, rfl, .inl ⟨t, rfl, .inr ht⟩⟩
  · obtain ⟨v, hv⟩ := Option.isSome_iff_exists.1 hv
    have hfeed : feed t (us ++ vs) (operand b :: π) = some (ofFraction b (us ++ vs) ++ π) := by
      simp [feed, Over, more, ofOperand, ht.1, ofCommand, ht.2]
    cases h.symm.trans hfeed
    have hlen : (us.take 6).length = 6 :=
      List.length_take_of_le (length_of_stalled hv hafter hρ)
    refine ⟨t :: us.take 6, us.drop 6, by simp, .inr ⟨t, us.take 6, rfl, ht, hlen, ?_⟩⟩
    rw [← derivativeVariable?_append (Nat.le_of_eq hlen.symm) (us.drop 6 ++ vs),
      ← List.append_assoc, List.take_append_drop, hv]
    rfl

/-- **Behind a script, an operand that has no end of its own leads nowhere.** -/
theorem refusal_of_openHead {q : List Token} (h : after π us (q ++ ws) = some (operand b :: τ :: υ))
    (hτ : τ.traps b = true) (hq : IsOpenHead q) : refusal? π (us ++ (q ++ ws)) ≠ none := by
  -- What the operand is taken of is caught in front of `τ`.
  have hcaught {t : Token} {ts : List Token} {χ : List Demand} {σ : Demand}
      (hmore : (operand b).more t ts = some χ) (hσ : σ ∈ χ.getLast?) (hcatch : σ.catches τ) :
      refusal? (operand b :: τ :: υ) (t :: ts) ≠ none := by
    rw [refusal_more id hmore]
    intro hnone
    exact (List.isChain_append.1 (free_of_refusal hnone)).2.2 σ hσ τ rfl hcatch
  rw [refusal_append h]
  rcases hq with ⟨t, rfl, ht⟩ | ⟨t, us, rfl, ht, hlen, hv⟩
  · have hmore : (operand b).more t ws = some [.range b, .body b] := by
      rcases ht with ht | ht <;> simp [more, ofOperand, ht.1, ofCommand, ht.2]
    exact hcaught hmore rfl hτ
  · obtain ⟨v, hv⟩ := Option.isSome_iff_exists.1 hv
    rw [← derivativeVariable?_append (Nat.le_of_eq hlen.symm) ws] at hv
    have hmore : (operand b).more t (us ++ ws) = some (header ++ [.derivand v b]) := by
      simp [more, ofOperand, ht.1, ofCommand, ht.2, ofFraction, hv]
    exact hcaught hmore List.getLast?_concat hτ

/-! ## Tokens before a failure -/

theorem isSome_readFloat? (hs : t.IsSpelled) (ht : t.kind = .number) :
    (readFloat? t.text).isSome = true := by
  rw [Token.IsSpelled, ht] at hs
  obtain ⟨x, hx, -⟩ := readFloat?_numeral hs
  rw [← String.ofList_toList (s := t.text), hx]
  rfl

theorem isSpelled_sample (kind : TokenKind) : (Token.sample kind).IsSpelled := by
  cases kind with
  | number => exact .inl (by decide)
  | identifier => exact (by decide : IsWord "x".toList)
  | function => exact ⟨['p', 'i'], by decide, rfl⟩
  | operator => exact ⟨.pow, rfl⟩
  | _ => exact ⟨_, rfl, rfl⟩

theorem isSpelled_samples (kinds : List TokenKind) : ∀ t ∈ kinds.map Token.sample, t.IsSpelled :=
  List.forall_mem_map.2 fun kind _ => isSpelled_sample kind

theorem isSpelled_filling (hπ : ∀ σ ∈ π, σ.Proper) : ∀ t ∈ filling π, t.IsSpelled := by
  have hdx : (Token.name "dx").IsSpelled := (by decide : IsWord "dx".toList)
  intro t ht
  obtain ⟨σ, hσ, ht⟩ := List.mem_flatMap.1 ht
  have hproper := hπ σ hσ
  cases σ with
  | named v =>
    obtain rfl := List.mem_singleton.1 ht
    exact hproper
  | rest => cases ht
  | body | differential =>
    obtain rfl := List.mem_singleton.1 ht
    exact hdx
  | expr | operand | derivand => exact isSpelled_samples [.number] t ht
  | token kind => exact isSpelled_samples [kind] t ht
  | power => exact isSpelled_samples [.operator] t ht
  | argument => exact isSpelled_samples [.braceOpen, .number, .braceClose] t ht
  | bounds =>
    exact isSpelled_samples
      [.braceOpen, .number, .braceClose, .braceOpen, .number, .braceClose] t ht
  | range =>
    exact isSpelled_samples [.braceOpen, .identifier, .braceClose, .braceOpen, .number, .braceClose,
      .braceOpen, .number, .braceClose] t ht

theorem isSpelled_completion (hπ : ∀ σ ∈ π, σ.Proper) : ∀ t ∈ completion π, t.IsSpelled := by
  unfold completion
  split
  · exact List.forall_mem_append.2 ⟨isSpelled_samples [.operator, .number],
      isSpelled_filling hπ⟩
  · exact isSpelled_filling hπ

end

/-- **Tokens before a failure.** Where reading fails, the tokens before can be completed, or they begin
with some that can, but not together with the operand of a script that follows. -/
theorem completed_or_caught {ts vs : List Token} (hs : ∀ t ∈ ts, t.IsSpelled)
    (h : refusal? [.expr 0 false] ts = some vs) :
    ∃ us, ts = us ++ vs ∧
      ((∃ ws, (∀ t ∈ ws, t.IsSpelled) ∧ refusal? [.expr 0 false] (us ++ ws) = none) ∨
        ∃ a q w, us = a ++ q ++ w ∧ EndsInScript a ∧ IsOpenHead q ∧
          (∃ ws, (∀ t ∈ ws, t.IsSpelled) ∧ refusal? [.expr 0 false] (a ++ ws) = none) ∧
          ∀ ws, refusal? [.expr 0 false] (a ++ (q ++ ws)) ≠ none) := by
  have hc : Coherent [.expr 0 false] := ⟨by simp [Proper], .singleton _⟩
  have hf : Free [.expr 0 false] := .singleton _
  obtain ⟨us, ρ, rfl, hafter, hρ⟩ := exists_after h
  have hcρ := hc.after hs hafter
  refine ⟨us, rfl, ?_⟩
  by_cases hfree : Free ρ
  · have hvs : ∀ t ∈ vs.head?, t.kind = .number → (readFloat? t.text).isSome = true :=
      fun t ht => isSome_readFloat? (hs t (List.mem_append_right us (List.mem_of_mem_head? ht)))
    exact .inl ⟨completion ρ, isSpelled_completion hcρ.proper,
      refusal_append_completion hc hs hvs hafter hρ hfree⟩
  · obtain ⟨a, t, w, b, τ, υ, χ, rfl, ha, hfa, htraps, hopens, hfeed, hrun⟩ :=
      exists_of_not_free hc hf hs hafter hfree
    rw [List.append_assoc] at hs
    have hscript : EndsInScript a := endsInScript_of_operand hc hs ha (by simp)
    have hca := hc.after hs ha
    have hbefore (ks : List Token) : after [.expr 0 false] a ks = some (operand b :: τ :: υ) :=
      (after_script hscript ks _).trans ha
    have hcompleted : ∃ ws, (∀ t ∈ ws, t.IsSpelled) ∧ refusal? [.expr 0 false] (a ++ ws) = none :=
      ⟨filling (operand b :: τ :: υ), isSpelled_filling hca.proper,
        (refusal_append (hbefore _)).trans (refusal_filling hca hfa)⟩
    obtain ⟨q, w', hq, hopen⟩ := exists_openHead hopens hfeed hrun hρ
    refine .inr ⟨a, q, w', by rw [hq, List.append_assoc], hscript, hopen, hcompleted, fun ws => ?_⟩
    exact refusal_of_openHead (hbefore _) htraps hopen

end LatexCalc
