import LatexCalc.Proofs.Reading.Enclosed
import LatexCalc.Proofs.Reading.Served
import LatexCalc.Proofs.Token.Spelling

/-!
# Reading in front of other tokens

What a token does to the demands depends on the tokens behind it in two ways only (`feed_congr`). So
after some tokens the same demands are left whatever is behind them, as long as the tokens themselves
settle where differentials start and where a header of a derivative stands. Tokens in front of which
reading fails leave little unsettled: they can be replaced by others (`after_of_stalled`) if in front of
these a differential may stand and no header is completed.
-/

namespace LatexCalc

/-! ## Differentials -/

theorem startsDifferential_cons (t : Token) (ts : List Token) : startsDifferential (t :: ts) =
    (decide (t.kind = .identifier) && t.differential?.isSome && !juxtaposes true ts) := by
  cases ts with
  | nil => simp [startsDifferential, juxtaposes]
  | cons u ts =>
    simp only [startsDifferential, juxtaposes, List.head?_cons, Option.map_some, Option.any_some]
    cases u.kind <;> simp [TokenKind.startsOperand]

/-- Where a differential is not to be read, a factor follows all the more. -/
theorem juxtaposes_of_inside {ts : List Token} (h : juxtaposes true ts = true) (b : Bool) :
    juxtaposes b ts = true := by
  cases b with
  | false => simp_all [juxtaposes]
  | true => exact h

/-- Names in front of a factor are factors. -/
theorem juxtaposes_append {us vs : List Token} (hus : ∀ t ∈ us, t.kind = .identifier)
    (h : juxtaposes true vs = true) : juxtaposes true (us ++ vs) = true := by
  induction us with
  | nil => exact h
  | cons t us ih =>
    have hrest := ih fun u hu => hus u (List.mem_cons_of_mem t hu)
    have ht : t.kind.startsOperand = true := by
      rw [hus t List.mem_cons_self]
      rfl
    rw [List.cons_append, juxtaposes, startsDifferential_cons, hrest]
    simp [ht]

/-- Whether a differential starts is settled by tokens that are not all names. -/
theorem startsDifferential_append {us vs ws : List Token} (hne : us ≠ [])
    (h : juxtaposes true vs = juxtaposes true ws ∨ ∃ t ∈ us, t.kind ≠ .identifier) :
    startsDifferential (us ++ vs) = startsDifferential (us ++ ws) := by
  induction us with
  | nil => exact absurd rfl hne
  | cons t us ih =>
    rw [List.cons_append, List.cons_append, startsDifferential_cons, startsDifferential_cons]
    by_cases ht : t.kind = .identifier
    · have hrest : juxtaposes true (us ++ vs) = juxtaposes true (us ++ ws) := by
        cases us with
        | nil => simpa [ht] using h
        | cons u us =>
          have heq := ih (List.cons_ne_nil u us) (by simpa [ht] using h)
          simp only [juxtaposes, heq]
          rfl
      rw [hrest]
    · simp [ht]

/-- Otherwise names reach up to what follows, and one of the two tails starts with a factor. -/
theorem names_of_unsettled {us vs ws : List Token} (hne : us ≠ [])
    (h : startsDifferential (us ++ vs) ≠ startsDifferential (us ++ ws)) :
    (∀ t ∈ us, t.kind = .identifier) ∧ juxtaposes true vs ≠ juxtaposes true ws :=
  ⟨fun t ht => by_contra fun hk => h (startsDifferential_append hne (.inr ⟨t, ht, hk⟩)),
    fun heq => h (startsDifferential_append hne (.inl heq))⟩

/-! ## Variables of differentials -/

theorem isWord_of_identifier {t : Token} (hs : t.IsSpelled) (ht : t.kind = .identifier) :
    IsWord t.text.toList := by
  rw [Token.IsSpelled, ht] at hs
  exact hs

/-- The variable of a differential is a word. -/
theorem isWord_of_differential {t : Token} {v : String} (hs : t.IsSpelled) (ht : t.kind = .identifier)
    (hv : t.differential? = some v) : IsWord v.toList := by
  have hword := isWord_of_identifier hs ht
  unfold Token.differential? at hv
  split at hv
  · next c cs heq =>
    cases hv
    rw [heq] at hword
    rw [String.toList_ofList]
    exact ⟨List.cons_ne_nil _ _, fun d hd => hword.2 d (List.mem_cons_of_mem _ hd)⟩
  · cases hv

theorem isWord_of_derivativeVariable {ts : List Token} {v : String} (hs : ∀ t ∈ ts, t.IsSpelled)
    (hv : derivativeVariable? ts = some v) : IsWord v.toList := by
  unfold derivativeVariable? at hv
  split at hv
  · next o d c o' dx c' r =>
    split at hv
    · next h =>
      have hmem : dx ∈ o :: d :: c :: o' :: dx :: c' :: r := by simp
      exact isWord_of_differential (hs dx hmem) h.2.2.2.2.2.1 hv
    · cases hv
  · cases hv

/-! ## One token -/

section

variable {t : Token} {ts ts' : List Token}

theorem ofOperand_congr (hd : t.IsCommand "frac" → derivativeVariable? ts = derivativeVariable? ts')
    (b : Bool) : Demand.ofOperand b t ts = Demand.ofOperand b t ts' := by
  unfold Demand.ofOperand
  cases hk : t.kind with
  | function =>
    simp only
    unfold Demand.ofCommand
    split
    · next hname => rw [Demand.ofFraction, hd ⟨hk, hname⟩, Demand.ofFraction]
    all_goals rfl
  | _ => rfl

/-- **A token looks ahead in two ways only.** -/
theorem feed_congr (hs : startsDifferential (t :: ts) = startsDifferential (t :: ts'))
    (hd : t.IsCommand "frac" → derivativeVariable? ts = derivativeVariable? ts') (π : List Demand) :
    feed t ts π = feed t ts' π := by
  have hover (σ : Demand) : σ.Over (t :: ts) ↔ σ.Over (t :: ts') := by
    cases σ with
    | rest p b => simp only [Demand.Over, Stops, juxtaposes, List.head?_cons, hs]
    | _ => rfl
  have hmore (σ : Demand) : σ.more t ts = σ.more t ts' := by
    cases σ <;> simp only [Demand.more, Demand.ofExpr, Demand.ofRest, ofOperand_congr hd, hs]
  induction π with
  | nil => rfl
  | cons σ π ih => simp only [feed, hover, hmore, ih]

end

section

variable {f : Token → Token} (hk : ∀ t, (f t).kind = t.kind) (ht : ∀ t, (f t).text = t.text)

include hk ht

/-- Kinds and texts are all that counts. -/
theorem feed_map (t : Token) (ts : List Token) (π : List Demand) :
    feed (f t) (ts.map f) π = feed t ts π := by
  have hs : startsDifferential (f t :: ts.map f) = startsDifferential (t :: ts) :=
    startsDifferential_map hk ht (t :: ts)
  have hcommand : (f t).command = t.command := by rw [Token.command, ht, Token.command]
  have hop (b : Bool) : Demand.ofOperand b (f t) (ts.map f) = Demand.ofOperand b t ts := by
    simp only [Demand.ofOperand, Demand.ofCommand, Demand.ofFraction, hk, ht, hcommand,
      derivativeVariable_map hk ht]
  have hover (σ : Demand) : σ.Over (f t :: ts.map f) ↔ σ.Over (t :: ts) := by
    cases σ with
    | rest p b => simp only [Demand.Over, Stops, juxtaposes, List.head?_cons, Option.map_some, hk, ht, hs]
    | _ => rfl
  have hmore (σ : Demand) : σ.more (f t) (ts.map f) = σ.more t ts := by
    cases σ <;> simp only [Demand.more, Demand.ofExpr, Demand.ofRest, hop, hk, ht, hs]
  induction π with
  | nil => rfl
  | cons σ π ih => simp only [feed, hover, hmore, ih]

theorem refusal_map (π : List Demand) (ts : List Token) :
    refusal? π (ts.map f) = (refusal? π ts).map (List.map f) := by
  induction ts generalizing π with
  | nil =>
    simp only [List.map_nil, refusal?]
    split <;> rfl
  | cons t ts ih =>
    rw [List.map_cons, refusal?, feed_map hk ht, refusal?]
    cases feed t ts π with
    | none => rfl
    | some π => exact ih π

end

/-! ## Several tokens -/

/-- The demands after the tokens `us`, in front of the tokens `vs`. -/
def after : List Demand → List Token → List Token → Option (List Demand)
  | π, [], _ => some π
  | π, t :: us, vs =>
    match feed t (us ++ vs) π with
    | none => none
    | some π => after π us vs

section

variable {π ρ : List Demand} {us vs ws : List Token}

theorem after_cons {t : Token} : after π (t :: us) vs = some ρ ↔
    ∃ χ, feed t (us ++ vs) π = some χ ∧ after χ us vs = some ρ := by
  rw [after]
  cases feed t (us ++ vs) π <;> simp

theorem after_append : after π (us ++ ws) vs = some ρ ↔
    ∃ χ, after π us (ws ++ vs) = some χ ∧ after χ ws vs = some ρ := by
  induction us generalizing π with
  | nil => simp [after]
  | cons t us ih =>
    simp only [List.cons_append, after_cons, ih, List.append_assoc]
    constructor
    · rintro ⟨χ, hχ, χ', hχ', h⟩
      exact ⟨χ', ⟨χ, hχ, hχ'⟩, h⟩
    · rintro ⟨χ', ⟨χ, hχ, hχ'⟩, h⟩
      exact ⟨χ, hχ, χ', hχ', h⟩

theorem refusal_append (h : after π us vs = some ρ) : refusal? π (us ++ vs) = refusal? ρ vs := by
  induction us generalizing π with
  | nil =>
    cases h
    rfl
  | cons t us ih =>
    obtain ⟨χ, hχ, h⟩ := after_cons.1 h
    rw [List.cons_append, refusal_taken hχ, ih h]

/-- Where tokens are refused, all those before them are taken. -/
theorem exists_after {ts : List Token} (h : refusal? π ts = some vs) :
    ∃ us ρ, ts = us ++ vs ∧ after π us vs = some ρ ∧ refusal? ρ vs = some vs := by
  induction ts generalizing π with
  | nil =>
    have hvs : vs = [] := by
      rw [refusal?] at h
      split at h <;> cases h
      rfl
    subst hvs
    exact ⟨[], π, rfl, rfl, h⟩
  | cons t ts ih =>
    cases hf : feed t ts π with
    | none =>
      have hvs := refusal_refused hf
      rw [h] at hvs
      cases hvs
      exact ⟨[], π, rfl, rfl, h⟩
    | some χ =>
      rw [refusal_taken hf] at h
      obtain ⟨us, ρ, rfl, hafter, hρ⟩ := ih h
      exact ⟨t :: us, ρ, rfl, after_cons.2 ⟨χ, hf, hafter⟩, hρ⟩

theorem length_of_refusal {ts : List Token} (h : refusal? π ts = some vs) :
    vs.length ≤ ts.length := by
  obtain ⟨us, -, rfl, -⟩ := exists_after h
  simp

/-- Tokens that settle everything themselves leave the same demands in front of all others. -/
theorem after_congr (h : ∀ u t w, us = u ++ t :: w →
      startsDifferential (t :: w ++ vs) = startsDifferential (t :: w ++ ws) ∧
      (t.IsCommand "frac" → derivativeVariable? (w ++ vs) = derivativeVariable? (w ++ ws))) :
    after π us vs = after π us ws := by
  induction us generalizing π with
  | nil => rfl
  | cons t us ih =>
    obtain ⟨hs, hd⟩ := h [] t us rfl
    have hrest (χ : List Demand) : after χ us vs = after χ us ws :=
      ih fun u t' w hw => h (t :: u) t' w (by rw [hw]; rfl)
    have hfeed : feed t (us ++ vs) π = feed t (us ++ ws) π := feed_congr hs hd π
    rw [after, after, hfeed]
    cases feed t (us ++ ws) π with
    | none => rfl
    | some χ => exact hrest χ

end

/-! ## Names that are factors -/

/-- Whether factors are taken before anything else is asked for. -/
def Hungry : List Demand → Prop
  | .rest p _ :: π => p ≤ Op.mul.precedence ∨ Hungry π
  | _ => False

section

variable {π ρ : List Demand} {t : Token} {ts us vs : List Token}

/-- What starts a factor is taken as one. -/
theorem Hungry.feed (h : Hungry π) (hj : juxtaposes true (t :: ts) = true) :
    ∃ p b χ, p ≤ Op.mul.precedence ∧ feed t ts π = (Demand.ofOperand b t ts).map
      (· ++ (.rest (Op.mul.precedence + 1) b :: .rest p b :: χ)) := by
  obtain ⟨_, _, hts, ht⟩ := head_of_juxtaposes hj
  obtain ⟨rfl, rfl⟩ := List.cons.inj hts
  have hk := ne_operator_of_startsOperand ht
  induction π with
  | nil => exact h.elim
  | cons σ π ih =>
    cases σ with
    | rest p b =>
      by_cases hp : p ≤ Op.mul.precedence
      · have hnot : ¬(Demand.rest p b).Over (t :: ts) := fun hs =>
          (stops_of_ne_operator hk).1 hs ⟨hp, juxtaposes_of_inside hj b⟩
        refine ⟨p, b, π, hp, ?_⟩
        rw [feed_more hnot]
        cases hop : Demand.ofOperand b t ts <;> simp [Demand.more, Demand.ofRest, hk, hop]
      · have hover : (Demand.rest p b).Over (t :: ts) :=
          (stops_of_ne_operator hk).2 fun hs => hp hs.1
        obtain ⟨q, b', χ, hq, hχ⟩ := ih (h.resolve_left hp)
        exact ⟨q, b', χ, hq, (feed_over hover).trans hχ⟩
    | _ => exact h.elim

theorem Hungry.after (h : Hungry π) (hus : ∀ t ∈ us, t.kind = .identifier)
    (hvs : juxtaposes true vs = true) (hρ : after π us vs = some ρ) : Hungry ρ := by
  induction us generalizing π with
  | nil =>
    cases hρ
    exact h
  | cons t us ih =>
    have ht := hus t List.mem_cons_self
    obtain ⟨χ, hχ, hρ⟩ := after_cons.1 hρ
    have hj : juxtaposes true (t :: (us ++ vs)) = true := juxtaposes_append hus hvs
    obtain ⟨p, b, χ', hp, hfeed⟩ := h.feed hj
    have hop : Demand.ofOperand b t (us ++ vs) = some [] := by rw [Demand.ofOperand, ht]
    rw [hop] at hfeed
    cases hχ.symm.trans hfeed
    have hhungry : Hungry (.rest (Op.mul.precedence + 1) b :: .rest p b :: χ') := Or.inr (Or.inl hp)
    exact ih hhungry (fun u hu => hus u (List.mem_cons_of_mem t hu)) hρ

/-- Where factors are taken, tokens that start one are not refused. -/
theorem Hungry.not_refused (h : Hungry π) (hvs : juxtaposes true vs = true)
    (hnum : ∀ t ∈ vs.head?, t.kind = .number → (readFloat? t.text).isSome = true) :
    refusal? π vs ≠ some vs := by
  intro href
  obtain ⟨t, ts, rfl, ht⟩ := head_of_juxtaposes hvs
  obtain ⟨p, b, χ, -, hfeed⟩ := h.feed hvs
  have hop : (Demand.ofOperand b t ts).isSome = true := by
    unfold Demand.ofOperand
    cases hk : t.kind with
    | number => simp [hnum t rfl hk]
    | identifier | function | parenOpen | braceOpen => rfl
    | _ => simp [hk, TokenKind.startsOperand] at ht
  obtain ⟨χ', hχ'⟩ := Option.isSome_iff_exists.1 hop
  rw [hχ'] at hfeed
  rw [refusal_taken hfeed] at href
  exact absurd (length_of_refusal href) (Nat.not_succ_le_self ts.length)

/-- Demands that are left in front of a factor are left in front of any tokens that start with the same
token. -/
theorem exists_of_feed_factor (hj : juxtaposes true (t :: ts) = true) (h : feed t ts π = some ρ) :
    ∃ (σ : Demand) (χ υ : List Demand), ρ = χ ++ υ ∧ ¬σ.Over (t :: ts) ∧ σ.more t ts = some χ ∧
      ∀ ts', ¬σ.Over (t :: ts') → σ.more t ts' = some χ → feed t ts' π = some ρ := by
  obtain ⟨_, _, hts, ht⟩ := head_of_juxtaposes hj
  obtain ⟨rfl, rfl⟩ := List.cons.inj hts
  have hk := ne_operator_of_startsOperand ht
  obtain ⟨ω, σ, χ, υ, rfl, rfl, hω, hσ, hχ⟩ := exists_of_feed h
  refine ⟨σ, χ, υ, rfl, hσ, hχ, fun ts' hσ' hχ' => ?_⟩
  have hω' : ∀ τ ∈ ω, τ.Over (t :: ts') := by
    intro τ hτ
    have hover := hω τ hτ
    cases τ with
    | rest p b =>
      have hp : ¬p ≤ Op.mul.precedence := fun hp =>
        (stops_of_ne_operator hk).1 hover ⟨hp, juxtaposes_of_inside hj b⟩
      exact (stops_of_ne_operator hk).2 fun hs => hp hs.1
    | _ => exact hover.elim
  rw [feed_append hω', feed_of_more hσ' hχ']

/-- A name in front of a factor is a factor itself, or what follows does not matter. -/
theorem feed_name (ht : t.kind = .identifier) (hj : juxtaposes true (t :: ts) = true)
    (h : feed t ts π = some ρ) : Hungry ρ ∨ ∀ ts', feed t ts' π = some ρ := by
  have hs : startsDifferential (t :: ts) = false := by
    simpa [juxtaposes, ht, TokenKind.startsOperand] using hj
  have hop (b : Bool) (ts' : List Token) : Demand.ofOperand b t ts' = some [] := by
    rw [Demand.ofOperand, ht]
  obtain ⟨σ, χ, υ, rfl, hσ, hχ, hfeed⟩ := exists_of_feed_factor hj h
  cases σ with
  | rest p b =>
    have hp : p ≤ Op.mul.precedence := by
      by_contra hp
      exact hσ ((stops_of_ne_operator (by simp [ht])).2 fun hs => hp hs.1)
    simp only [Demand.more, Demand.ofRest, ht, reduceCtorEq, if_false, hop] at hχ
    cases hχ
    exact .inl (.inr (.inl hp))
  | differential => simp [Demand.more, hs] at hχ
  | power | bounds | range | argument => simp [Demand.more, ht] at hχ
  | _ =>
    refine .inr fun ts' => hfeed ts' id ?_
    simpa [Demand.more, Demand.ofExpr, hop, ht] using hχ

/-- What the command of a fraction puts in front of the demands, or what follows does not matter. -/
theorem feed_fraction (ht : t.IsCommand "frac") (h : feed t ts π = some ρ) :
    (∃ b χ, ρ = Demand.ofFraction b ts ++ χ) ∨ ∀ ts', feed t ts' π = some ρ := by
  have hop (b : Bool) : Demand.ofOperand b t ts = some (Demand.ofFraction b ts) := by
    rw [Demand.ofOperand, ht.1]
    simp only [Demand.ofCommand, ht.2]
  have hs : startsDifferential (t :: ts) = false := by simp [startsDifferential_cons, ht.1]
  have hj : juxtaposes true (t :: ts) = true := by
    simp [juxtaposes, hs, ht.1, TokenKind.startsOperand]
  obtain ⟨σ, χ, υ, rfl, -, hχ, hfeed⟩ := exists_of_feed_factor hj h
  cases σ with
  | rest p b | expr p b | body b | derivand v b =>
    simp only [Demand.more, Demand.ofRest, Demand.ofExpr, ht.1, reduceCtorEq, if_false, hop,
      Option.map_some] at hχ
    cases hχ
    exact .inl ⟨b, _, List.append_assoc _ _ _⟩
  | operand b =>
    cases (hop b).symm.trans hχ
    exact .inl ⟨b, υ, rfl⟩
  | token kind => exact .inr fun ts' => hfeed ts' id hχ
  | _ => simp [Demand.more, ht.1, hs] at hχ

end

/-! ## Tokens that are refused -/

section

variable {π ρ : List Demand} {us vs ws : List Token}

/-- Where reading fails, no header of a derivative is under way. -/
theorem length_of_stalled {v : String} {b : Bool} {χ : List Demand}
    (hv : derivativeVariable? (us ++ vs) = some v)
    (h : after (Demand.ofFraction b (us ++ vs) ++ χ) us vs = some ρ)
    (hρ : refusal? ρ vs = some vs) : 6 ≤ us.length := by
  have href := refusal_append h
  simp only [Demand.ofFraction, hv] at href
  rw [List.append_assoc, refusal_header hv, hρ] at href
  have hlen := length_of_refusal href
  have hheader := length_of_derivativeVariable hv
  simp only [List.length_drop, List.length_append] at hlen hheader
  omega

/-- **Tokens that are refused can be replaced.** Let reading fail in front of the tokens `vs`. In front of
other tokens it comes to the same demands, provided that a differential may stand in front of these if a
name does, and that they do not complete the header of a derivative. -/
theorem after_of_stalled (h : after π us vs = some ρ) (hρ : refusal? ρ vs = some vs)
    (hnum : ∀ t ∈ vs.head?, t.kind = .number → (readFloat? t.text).isSome = true)
    (hname : ∀ t ∈ us.getLast?, t.kind = .identifier → juxtaposes true ws = false)
    (hfrac : ∀ b χ w, after (Demand.ofFraction b (w ++ vs) ++ χ) w vs = some ρ →
      derivativeVariable? (w ++ vs) = none → derivativeVariable? (w ++ ws) = none) :
    after π us ws = some ρ := by
  induction us generalizing π with
  | nil => exact h
  | cons t us ih =>
    obtain ⟨χ, hχ, h⟩ := after_cons.1 h
    have hlast : ∀ u ∈ us.getLast?, u.kind = .identifier → juxtaposes true ws = false := by
      intro u hu
      refine hname u ?_
      cases us with
      | nil => cases hu
      | cons u' us => exact hu
    refine after_cons.2 ⟨χ, ?_, ih h hlast⟩
    by_cases hs : startsDifferential (t :: (us ++ vs)) = startsDifferential (t :: (us ++ ws))
    · by_cases ht : t.IsCommand "frac"
      · rcases feed_fraction ht hχ with ⟨b, χ', rfl⟩ | hall
        · have hd : derivativeVariable? (us ++ vs) = derivativeVariable? (us ++ ws) := by
            cases hv : derivativeVariable? (us ++ vs) with
            | none => exact (hfrac b χ' us h hv).symm
            | some v =>
              have hlen := length_of_stalled hv h hρ
              rw [derivativeVariable?_append hlen] at hv ⊢
              exact hv.symm
          rw [← feed_congr hs fun _ => hd, hχ]
        · exact hall _
      · rw [← feed_congr hs fun hf => absurd hf ht, hχ]
    · obtain ⟨hnames, hne⟩ := names_of_unsettled (List.cons_ne_nil t us) hs
      have hws : juxtaposes true ws = false := by
        obtain ⟨u, hu⟩ := Option.ne_none_iff_exists'.1 (mt List.getLast?_eq_none_iff.1
          (List.cons_ne_nil t us))
        exact hname u hu (hnames u (List.mem_of_getLast? hu))
      have hvs : juxtaposes true vs = true := by simpa [hws] using hne
      have hj : juxtaposes true (t :: (us ++ vs)) = true := juxtaposes_append hnames hvs
      rcases feed_name (hnames t List.mem_cons_self) hj hχ with hhungry | hall
      · have hus : ∀ u ∈ us, u.kind = .identifier := fun u hu => hnames u (List.mem_cons_of_mem t hu)
        exact absurd hρ ((hhungry.after hus hvs h).not_refused hvs hnum)
      · exact hall _

end

end LatexCalc
