import Mathlib.Data.List.Chain
import LatexCalc.Proofs.Reading.Lookahead

/-!
# Which demands follow each other

Demands that tokens leave behind do not stand side by side in any order (`Demand.Precedes`): in front of
what has no end of its own stands either something in front of which it may end, or, if it is the operand
of a script, something in front of which it never ends. Tokens keep this order (`Coherent.feed`).

Where a demand is caught in front of one where it never ends (`Demand.catches`), no tokens satisfy both
(`refusal_of_caught`), and every way to come there leads over an operand of a script that has no end of
its own (`Free.feed`).
-/

namespace LatexCalc

namespace Demand

/-- An expression may end in front of the demand. -/
def ends (b : Bool) : Demand → Bool
  | rest _ b' => b' = b
  | token kind => kind = .braceClose ∨ kind = .parenClose
  | differential => b
  | body _ => b
  | _ => false

/-- What stands in front of the demand ends there, but an expression that takes all operators never does:
it takes the sign `^`, and all that a body starts with. -/
def traps (b : Bool) : Demand → Bool
  | power => true
  | body _ => !b
  | _ => false

/-- A name may stand in front of the demand without being a factor. -/
def shy : Demand → Bool
  | rest _ _ | differential | body _ | power => true
  | token kind => kind = .braceClose ∨ kind = .parenClose ∨ kind = .equal
  | _ => false

/-- The demand `τ` may be the next one after `σ`. -/
def Precedes (σ τ : Demand) : Prop :=
  match σ with
  | expr p b | rest p b => τ.ends b = true ∨ p = 0 ∧ τ.traps b = true
  | body b | derivand _ b => τ.ends b = true ∨ τ.traps b = true
  | operand _ => τ = power ∨ ∃ b, τ = body b
  | token kind => (∀ b, τ ≠ operand b) ∧ (kind = .identifier → τ.shy = true)
  | power => True
  | bounds _ | range _ => ∃ b, τ = body b
  | named _ | differential | argument _ => τ.shy = true

/-- The demand can be met at all. -/
def Proper : Demand → Prop
  | expr p _ | rest p _ => p ≤ Op.pow.precedence
  | derivand v _ | named v => IsWord v.toList
  | _ => True

/-- The demand `σ` has no end of its own, and no end in front of `τ`. -/
def catches (σ τ : Demand) : Prop :=
  match σ with
  | expr p b | rest p b => p = 0 ∧ τ.traps b = true
  | body b | derivand _ b => τ.traps b = true
  | _ => False

theorem shy_of_ends {b : Bool} {τ : Demand} (h : τ.ends b = true) : τ.shy = true := by
  cases τ with
  | token kind => cases kind <;> simp_all [ends, shy]
  | _ => simp_all [ends, shy]

theorem shy_of_traps {b : Bool} {τ : Demand} (h : τ.traps b = true) : τ.shy = true := by
  cases τ <;> simp_all [traps, shy]

theorem ends_or_traps (b : Bool) {τ : Demand} (h : τ = power ∨ ∃ b', τ = body b') :
    τ.ends b = true ∨ τ.traps b = true := by
  rcases h with rfl | ⟨b', rfl⟩
  · exact .inr rfl
  · cases b <;> simp [ends, traps]

theorem not_shy_operand (b : Bool) : ¬(operand b).shy = true := by
  simp [shy]

end Demand

open Demand

/-- Demands in an order in which tokens leave them. -/
structure Coherent (π : List Demand) : Prop where
  proper : ∀ σ ∈ π, σ.Proper
  chain : π.IsChain Demand.Precedes

/-- No demand is caught in front of the next one. -/
def Free (π : List Demand) : Prop :=
  π.IsChain fun σ τ => ¬σ.catches τ

/-- With the token `t`, in front of the tokens `ts`, an operand starts that has no end of its own. -/
def OpensBody (t : Token) (ts : List Token) : Prop :=
  t.IsCommand "sum" ∨ t.IsCommand "prod" ∨
    t.IsCommand "frac" ∧ (derivativeVariable? ts).isSome = true

/-! ## What takes the place of a demand -/

/-- The demands `χ` may take the place of one that is followed by a demand that satisfies `P`. -/
structure Replaces (P : Demand → Prop) (χ : List Demand) : Prop where
  proper : ∀ σ ∈ χ, σ.Proper
  chain : χ.IsChain Demand.Precedes
  free : Free χ
  last : ∀ σ ∈ χ.getLast?, ∀ τ, P τ → σ.Precedes τ

section

variable {b : Bool} {t : Token} {ts : List Token} {σ : Demand} {π ρ χ : List Demand}
  {P Q : Demand → Prop}

theorem replaces_nil (P : Demand → Prop) : Replaces P [] :=
  ⟨by simp, .nil, .nil, by simp⟩

/-- A symbol that is no name may stand in front of anything that does not start a script. -/
theorem precedes_of_shy {kind : TokenKind} {τ : Demand} (hk : kind ≠ .identifier)
    (h : τ.shy = true) : (token kind).Precedes τ :=
  ⟨fun b hτ => not_shy_operand b (hτ ▸ h), fun hi => absurd hi hk⟩

theorem shy_of_boundary {τ : Demand} (h : τ.ends b = true ∨ τ.traps b = true) : τ.shy = true :=
  h.elim shy_of_ends shy_of_traps

theorem Replaces.mono (h : Replaces P χ) (hQ : ∀ τ, Q τ → P τ) : Replaces Q χ :=
  { h with last := fun σ hσ τ hτ => h.last σ hσ τ (hQ τ hτ) }

theorem Replaces.append_rest {p : Nat} (h : Replaces P χ) (hP : P (rest p b))
    (hp : p ≤ Op.pow.precedence) (hQ : ∀ τ, Q τ → (rest p b).Precedes τ) :
    Replaces Q (χ ++ [rest p b]) where
  proper := List.forall_mem_append.2 ⟨h.proper, by simpa [Proper] using hp⟩
  chain := h.chain.append (.singleton _) fun σ hσ τ hτ => by
    cases hτ
    exact h.last σ hσ _ hP
  free := h.free.append (.singleton _) fun σ _ τ hτ => by
    cases hτ
    cases σ <;> simp [catches, traps]
  last σ hσ τ hτ := by
    obtain rfl : rest p b = σ := by simpa using hσ
    exact hQ τ hτ

/-- What follows an opening bracket. -/
theorem replaces_bracket (κ : Bracket) (b : Bool) (hP : ∀ τ, P τ → τ.shy = true) :
    Replaces P [.expr 0 b, .token κ.closing] := by
  refine ⟨by simp [Proper], ?_, by simp [Free, catches, traps], ?_⟩
  · cases κ <;> simp [Precedes, ends, Bracket.closing]
  · cases κ <;> simpa [Bracket.closing] using fun τ hτ => precedes_of_shy (by decide) (hP τ hτ)

theorem replaces_ofFraction (hs : ∀ t ∈ ts, t.IsSpelled) (b : Bool) :
    Replaces (fun τ => τ.ends b = true ∨ τ.traps b = true) (ofFraction b ts) := by
  unfold ofFraction
  split
  · next v hv =>
    have hword := isWord_of_derivativeVariable hs hv
    refine ⟨?_, ?_, ?_, ?_⟩
    · simp [header, Proper, hword]
    · simp [header, Precedes, shy]
    · simp [Free, header, catches]
    · simp [header, Precedes]
  · refine ⟨?_, ?_, ?_, ?_⟩
    · simp [group, Proper]
    · simp [group, Precedes, ends]
    · simp [Free, group, catches, traps]
    · simpa [group] using fun τ hτ => precedes_of_shy (by decide) (shy_of_boundary hτ)

theorem replaces_ofCommand (hs : ∀ t ∈ ts, t.IsSpelled) (b : Bool) (name : String) :
    Replaces (fun τ => τ.ends b = true ∨ τ.traps b = true) (ofCommand b name ts) := by
  unfold ofCommand
  split
  · exact replaces_ofFraction hs b
  · refine ⟨?_, ?_, ?_, ?_⟩
    · simp [group, Proper]
    · simp [group, Precedes, ends]
    · simp [Free, group, catches, traps]
    · simpa [group] using fun τ hτ => precedes_of_shy (by decide) (shy_of_boundary hτ)
  · refine ⟨?_, ?_, ?_, ?_⟩
    · simp [Proper]
    · simp [Precedes, ends]
    · simp [Free, catches, traps]
    · simpa [Precedes] using fun τ hτ => shy_of_boundary hτ
  · exact ⟨by simp [Proper], by simp [Precedes], by simp [Free, catches], by simp [Precedes]⟩
  · exact ⟨by simp [Proper], by simp [Precedes], by simp [Free, catches], by simp [Precedes]⟩
  · exact replaces_nil _
  · exact replaces_nil _
  · refine ⟨by simp [Proper], .singleton _, .singleton _, ?_⟩
    simpa [Precedes] using fun τ hτ => shy_of_boundary hτ

/-- What an operand leaves to be read may be followed by what may follow the operand. -/
theorem replaces_ofOperand (hs : ∀ t ∈ ts, t.IsSpelled) (h : ofOperand b t ts = some χ) :
    Replaces (fun τ => τ.ends b = true ∨ τ.traps b = true) χ := by
  unfold ofOperand at h
  split at h
  · split at h <;> cases h
    exact replaces_nil _
  · cases h
    exact replaces_nil _
  · cases h
    exact replaces_ofCommand hs b t.command
  · cases h
    exact replaces_bracket .paren b fun τ => shy_of_boundary
  · cases h
    exact replaces_bracket .brace b fun τ => shy_of_boundary
  · cases h

theorem replaces_ofExpr {p : Nat} (hp : p ≤ Op.pow.precedence) (hs : ∀ t ∈ ts, t.IsSpelled)
    (h : ofExpr p b t ts = some χ) :
    Replaces (fun τ => τ.ends b = true ∨ p = 0 ∧ τ.traps b = true) χ := by
  unfold ofExpr at h
  split at h
  · have hreplaces : Replaces (fun τ => τ.ends b = true ∨ p = 0 ∧ τ.traps b = true)
        [.expr Op.mul.precedence b, .rest p b] :=
      ⟨by simpa [Proper] using ⟨by decide, hp⟩, by simp [Precedes, ends], by simp [Free, catches, traps],
        by simp [Precedes]⟩
    split at h <;> cases h <;> exact hreplaces
  · obtain ⟨χ', hχ', rfl⟩ := Option.map_eq_some_iff.1 h
    exact (replaces_ofOperand hs hχ').append_rest (.inl (by simp [ends])) hp fun τ hτ => hτ

theorem replaces_ofRest {p : Nat} (hp : p ≤ Op.pow.precedence) (hs : ∀ t ∈ ts, t.IsSpelled)
    (h : ofRest p b t ts = some χ) :
    Replaces (fun τ => τ.ends b = true ∨ p = 0 ∧ τ.traps b = true) χ := by
  unfold ofRest at h
  split at h
  · obtain ⟨op, -, rfl⟩ := Option.map_eq_some_iff.1 h
    have hright : op.rightPrecedence ≤ Op.pow.precedence := by cases op <;> decide
    exact ⟨by simpa [Proper] using ⟨hright, hp⟩, by simp [Precedes, ends],
      by simp [Free, catches, traps], by simp [Precedes]⟩
  · obtain ⟨χ', hχ', rfl⟩ := Option.map_eq_some_iff.1 h
    rw [← List.singleton_append, ← List.append_assoc]
    have hends (q : Nat) : (rest q b).ends b = true := by simp [ends]
    exact ((replaces_ofOperand hs hχ').append_rest (.inl (hends _)) (by decide) fun τ hτ => hτ).append_rest
      (.inl (hends p)) hp fun τ hτ => hτ

/-- **What takes the place of a demand** may be followed by what may follow the demand. -/
theorem replaces_more (hσ : σ.Proper) (hs : ∀ t ∈ ts, t.IsSpelled) (h : σ.more t ts = some χ) :
    Replaces σ.Precedes χ := by
  cases σ with
  | expr p b => exact replaces_ofExpr hσ hs h
  | rest p b => exact replaces_ofRest hσ hs h
  | operand b => exact (replaces_ofOperand hs h).mono fun τ => ends_or_traps b
  | body b => exact (replaces_ofExpr (by decide) hs h).mono fun τ hτ => by simpa [Precedes] using hτ
  | derivand v b =>
    simp only [more] at h
    split at h
    · cases h
      refine ⟨?_, ?_, ?_, ?_⟩
      · simpa [Proper] using hσ
      · simp [Precedes, ends, shy]
      · simp [Free, catches, traps]
      · simp [Precedes]
    · exact (replaces_ofExpr (by decide) hs h).mono fun τ hτ => by simpa [Precedes] using hτ
  | token | power | named | differential =>
    simp only [more] at h
    split at h <;> cases h
    exact replaces_nil _
  | bounds b =>
    simp only [more] at h
    split at h <;> cases h
    · refine ⟨by simp [Proper], by simp [Precedes], by simp [Free, catches], ?_⟩
      simp [Precedes]
    · refine ⟨by simp [group, Proper], by simp [group, Precedes, ends],
        by simp [Free, group, catches, traps], ?_⟩
      simp only [group, List.getLast?_append, List.getLast?_cons_cons, List.getLast?_singleton]
      rintro _ ⟨⟩ τ ⟨b', rfl⟩
      exact precedes_of_shy (by decide) rfl
  | range b =>
    simp only [more] at h
    split at h <;> cases h
    · refine ⟨by simp [Proper], by simp [Precedes, ends, shy], by simp [Free, catches, traps], ?_⟩
      simp [Precedes]
    · refine ⟨by simp [group, Proper], by simp [group, Precedes, ends, shy],
        by simp [Free, group, catches, traps], ?_⟩
      simp only [group, List.getLast?_append, List.getLast?_cons_cons, List.getLast?_singleton]
      rintro _ ⟨⟩ τ ⟨b', rfl⟩
      exact precedes_of_shy (by decide) rfl
  | argument b =>
    simp only [more] at h
    split at h <;> cases h
    · exact replaces_bracket .brace b fun τ hτ => hτ
    · exact replaces_bracket .paren b fun τ hτ => hτ

/-! ## Steps and runs -/

/-- The demands behind the first one are in order, too. -/
theorem Coherent.tail (h : Coherent (σ :: π)) : Coherent π :=
  ⟨fun τ hτ => h.proper τ (List.mem_cons_of_mem σ hτ), h.chain.tail⟩

theorem Coherent.precedes {τ : Demand} (h : Coherent (σ :: π)) (hτ : τ ∈ π.head?) : σ.Precedes τ :=
  h.chain.rel_head? hτ

/-- **Tokens keep demands in order.** -/
theorem Coherent.feed (h : Coherent π) (hs : ∀ t ∈ ts, t.IsSpelled) (hρ : feed t ts π = some ρ) :
    Coherent ρ := by
  obtain ⟨ω, σ, χ, υ, rfl, rfl, -, -, hχ⟩ := exists_of_feed hρ
  have hchain := h.chain.right_of_append
  have hreplaces := replaces_more (h.proper σ (by simp)) hs hχ
  refine ⟨List.forall_mem_append.2 ⟨hreplaces.proper, fun τ hτ => h.proper τ (by simp [hτ])⟩, ?_⟩
  exact hreplaces.chain.append hchain.tail fun τ hτ τ' hτ' =>
    hreplaces.last τ hτ τ' (hchain.rel_head? hτ')

theorem Coherent.after {us vs : List Token} (h : Coherent π) (hs : ∀ t ∈ us ++ vs, t.IsSpelled)
    (hρ : after π us vs = some ρ) : Coherent ρ := by
  induction us generalizing π with
  | nil =>
    cases hρ
    exact h
  | cons t us ih =>
    obtain ⟨χ, hχ, hρ⟩ := after_cons.1 hρ
    have hs' := (List.forall_mem_cons.1 hs).2
    exact ih (h.feed hs' hχ) hs' hρ

/-- After a name, the next demand is one in front of which a name may stand. -/
theorem shy_of_name (h : Coherent π) (ht : t.kind = .identifier) (hρ : feed t ts π = some ρ) :
    ∀ τ ∈ ρ.head?, τ.shy = true := by
  have hop (b : Bool) : ofOperand b t ts = some [] := by rw [ofOperand, ht]
  obtain ⟨ω, σ, χ, υ, rfl, rfl, -, -, hχ⟩ := exists_of_feed hρ
  intro τ hτ
  have hnext : χ = [] → σ.Precedes τ := by
    rintro rfl
    exact h.chain.right_of_append.rel_head? hτ
  cases σ with
  | expr | rest | body | derivand =>
    simp [more, ofExpr, ofRest, hop, ht] at hχ
    subst hχ
    cases hτ
    rfl
  | operand b =>
    simp [more, hop] at hχ
    exact shy_of_boundary (ends_or_traps b (hnext hχ))
  | token kind =>
    simp [more, ht] at hχ
    exact (hnext hχ.2).2 hχ.1.symm
  | named | differential =>
    simp [more] at hχ
    exact hnext hχ.2
  | power | bounds | range | argument => simp [more, ht] at hχ

theorem not_mem_ofOperand (h : ofOperand b t ts = some χ) (b' : Bool) : operand b' ∉ χ := by
  unfold ofOperand at h
  split at h
  · split at h <;> cases h
    simp
  · cases h
    simp
  · cases h
    unfold ofCommand ofFraction
    split
    · split <;> simp [header, group]
    all_goals simp [group]
  · cases h
    simp
  · cases h
    simp
  · cases h

theorem not_mem_ofExpr {p : Nat} (h : ofExpr p b t ts = some χ) (b' : Bool) : operand b' ∉ χ := by
  unfold ofExpr at h
  split at h
  · split at h <;> cases h <;> simp
  · obtain ⟨χ', hχ', rfl⟩ := Option.map_eq_some_iff.1 h
    simpa using not_mem_ofOperand hχ' b'

theorem not_mem_ofRest {p : Nat} (h : ofRest p b t ts = some χ) (b' : Bool) : operand b' ∉ χ := by
  unfold ofRest at h
  split at h
  · obtain ⟨op, -, rfl⟩ := Option.map_eq_some_iff.1 h
    simp
  · obtain ⟨χ', hχ', rfl⟩ := Option.map_eq_some_iff.1 h
    simpa using not_mem_ofOperand hχ' b'

/-- An operand without a sign is asked for behind one of the two signs of scripts. -/
theorem script_of_operand (h : Coherent π) (hρ : feed t ts π = some (operand b :: ρ)) :
    t.kind = .underscore ∨ t.IsOp .pow := by
  obtain ⟨ω, σ, χ, υ, rfl, heq, -, -, hχ⟩ := exists_of_feed hρ
  cases χ with
  | nil =>
    have hυ : υ = operand b :: ρ := heq.symm
    have hnext : σ.Precedes (operand b) := h.chain.right_of_append.rel_head? (by rw [hυ]; rfl)
    cases σ with
    | power =>
      simp [more] at hχ
      exact .inr hχ
    | token kind => exact absurd rfl (hnext.1 b)
    | _ => simp [Precedes, ends, traps, shy] at hnext
  | cons σ' χ =>
    obtain rfl : operand b = σ' := (List.cons.inj heq).1
    cases σ with
    | bounds b' =>
      simp only [more] at hχ
      split at hχ
      · next ht => exact .inl ht
      · simp [group] at hχ
      · cases hχ
    | operand b' => exact absurd List.mem_cons_self (not_mem_ofOperand hχ b)
    | rest p b' => exact absurd List.mem_cons_self (not_mem_ofRest hχ b)
    | expr p b' | body b' => exact absurd List.mem_cons_self (not_mem_ofExpr hχ b)
    | derivand v b' =>
      simp only [more] at hχ
      split at hχ
      · simp at hχ
      · exact absurd List.mem_cons_self (not_mem_ofExpr hχ b)
    | _ =>
      simp only [more] at hχ
      split at hχ <;> simp at hχ

/-! ## Demands that are caught -/

/-- Only operands of scripts leave to a demand behind them something that it is not rid of. -/
theorem catches_ofOperand {τ : Demand} (h : ofOperand b t ts = some χ) (hσ : σ ∈ χ.getLast?)
    (hc : σ.catches τ) : τ.traps b = true ∧ OpensBody t ts := by
  unfold ofOperand at h
  split at h
  · split at h <;> cases h
    cases hσ
  · cases h
    cases hσ
  · next ht =>
    cases h
    unfold ofCommand at hσ
    split at hσ
    · next hname =>
      unfold ofFraction at hσ
      split at hσ
      · next v hv =>
        cases hσ
        exact ⟨hc, .inr (.inr ⟨⟨ht, hname⟩, by simp [hv]⟩)⟩
      · cases hσ
        exact hc.elim
    · cases hσ
      exact hc.elim
    · cases hσ
      exact hc.elim
    · next hname =>
      cases hσ
      exact ⟨hc, .inl ⟨ht, hname⟩⟩
    · next hname =>
      cases hσ
      exact ⟨hc, .inr (.inl ⟨ht, hname⟩)⟩
    all_goals
      cases hσ
      try exact hc.elim
  · cases h
    cases hσ
    exact hc.elim
  · cases h
    cases hσ
    exact hc.elim
  · cases h

theorem getLast_ofExpr {p : Nat} (h : ofExpr p b t ts = some χ) :
    χ.getLast? = some (rest p b) := by
  unfold ofExpr at h
  split at h
  · split at h <;> cases h <;> rfl
  · obtain ⟨χ', -, rfl⟩ := Option.map_eq_some_iff.1 h
    simp

theorem getLast_ofRest {p : Nat} (h : ofRest p b t ts = some χ) :
    χ.getLast? = some (rest p b) := by
  unfold ofRest at h
  split at h
  · obtain ⟨op, -, rfl⟩ := Option.map_eq_some_iff.1 h
    rfl
  · obtain ⟨χ', -, rfl⟩ := Option.map_eq_some_iff.1 h
    simp

/-- What takes the place of a demand is caught where the demand was, unless that is an operand. -/
theorem catches_of_more {τ υ : Demand} (h : σ.more t ts = some χ) (hτ : τ ∈ χ.getLast?)
    (hc : τ.catches υ) :
    σ.catches υ ∨ ∃ b, σ = operand b ∧ υ.traps b = true ∧ OpensBody t ts := by
  cases σ with
  | expr p b | body b =>
    rw [getLast_ofExpr h] at hτ
    cases hτ
    exact .inl (by simpa [catches] using hc)
  | rest p b =>
    rw [getLast_ofRest h] at hτ
    cases hτ
    exact .inl hc
  | operand b => exact .inr ⟨b, rfl, catches_ofOperand h hτ hc⟩
  | derivand v b =>
    simp only [more] at h
    split at h
    · cases h
      cases hτ
      exact .inl hc
    · rw [getLast_ofExpr h] at hτ
      cases hτ
      exact .inl (by simpa [catches] using hc)
  | token | power | named | differential =>
    simp only [more] at h
    split at h <;> cases h
    cases hτ
  | bounds | range | argument =>
    simp only [more] at h
    split at h <;> cases h <;> cases hτ <;> exact hc.elim

/-- What is caught stays caught. -/
theorem catches_last {υ : Demand} (h : σ.more t ts = some χ) (hc : σ.catches υ) :
    ∃ τ ∈ χ.getLast?, τ.catches υ := by
  cases σ with
  | expr p b | body b => exact ⟨_, getLast_ofExpr h, by simpa [catches] using hc⟩
  | rest p b => exact ⟨_, getLast_ofRest h, hc⟩
  | derivand v b =>
    simp only [more] at h
    split at h
    · cases h
      exact ⟨_, rfl, hc⟩
    · exact ⟨_, getLast_ofExpr h, by simpa [catches] using hc⟩
  | _ => exact hc.elim

/-- Where an expression ends that takes all operators, neither the sign `^` nor a body may start. -/
theorem more_of_traps {υ : Demand} (hs : Stops 0 b (t :: ts)) (h : υ.traps b = true) :
    υ.more t ts = none := by
  have hk : t.kind ≠ .operator := by
    intro hk
    obtain ⟨op, -, hlt⟩ := (stops_operator hk).1 hs
    exact Nat.not_lt_zero _ hlt
  cases υ with
  | power => simp [more, hk]
  | body b' =>
    obtain rfl : b = false := by simpa [traps] using h
    have hj := (stops_of_ne_operator hk).1 hs
    have hstart : t.kind.startsOperand = false := by simpa [juxtaposes] using hj
    have hop : ofOperand b' t ts = none := by
      unfold ofOperand
      cases ht : t.kind <;> simp_all [TokenKind.startsOperand]
    simp [more, ofExpr, hk, hop]
  | _ => cases h

theorem rest_of_over (h : σ.Over ts) : ∃ p b, σ = rest p b := by
  cases σ with
  | rest p b => exact ⟨p, b, rfl⟩
  | _ => exact h.elim

theorem not_catches_rest (σ : Demand) (p : Nat) (b : Bool) : ¬σ.catches (rest p b) := by
  cases σ <;> simp [catches, traps]

/-- Demands that may all be left are not caught. -/
theorem free_of_over {ω : List Demand} (h : ∀ τ ∈ ω, τ.Over ts) : Free ω := by
  induction ω with
  | nil => exact .nil
  | cons σ ω ih =>
    refine (ih (List.forall_mem_cons.1 h).2).cons fun τ hτ => ?_
    obtain ⟨p, b, rfl⟩ := rest_of_over (h τ (List.mem_cons_of_mem σ (List.mem_of_mem_head? hτ)))
    exact not_catches_rest σ p b

/-- **A demand that is caught is not set free by any token.** -/
theorem free_of_feed (hρ : feed t ts π = some ρ) (hf : Free ρ) : Free π := by
  obtain ⟨ω, σ, χ, υ, rfl, rfl, hω, -, hχ⟩ := exists_of_feed hρ
  have hυ : Free υ := hf.right_of_append
  have hσ : Free (σ :: υ) := hυ.cons fun τ hτ hc => by
    obtain ⟨σ', hσ', hc'⟩ := catches_last hχ hc
    exact (List.isChain_append.1 hf).2.2 σ' hσ' τ hτ hc'
  refine (free_of_over hω).append hσ fun τ hτ τ' hτ' hc => ?_
  cases hτ'
  have hover := hω τ (List.mem_of_getLast? hτ)
  obtain ⟨p, b, rfl⟩ := rest_of_over hover
  obtain ⟨rfl, htraps⟩ := hc
  rw [more_of_traps hover htraps] at hχ
  cases hχ

/-- **No tokens satisfy demands that are caught.** -/
theorem free_of_refusal (h : refusal? π ts = none) : Free π := by
  induction ts generalizing π with
  | nil =>
    rw [refusal?] at h
    split at h
    · next hover => exact free_of_over hover
    · cases h
  | cons t ts ih =>
    cases hfeed : feed t ts π with
    | none =>
      rw [refusal_refused hfeed] at h
      cases h
    | some ρ =>
      rw [refusal_taken hfeed] at h
      exact free_of_feed hfeed (ih h)

/-- **How demands are caught**: in an operand of a script, by a token with which an operand starts that
has no end of its own. -/
theorem Free.feed (hf : Free π) (hc : Coherent π) (hs : ∀ t ∈ ts, t.IsSpelled)
    (hρ : feed t ts π = some ρ) :
    Free ρ ∨ ∃ b τ υ, π = operand b :: τ :: υ ∧ τ.traps b = true ∧ OpensBody t ts := by
  obtain ⟨ω, σ, χ, υ, rfl, rfl, hω, -, hχ⟩ := exists_of_feed hρ
  have hυ : Free υ := hf.right_of_append.tail
  have hreplaces := replaces_more (hc.proper σ (by simp)) hs hχ
  by_cases hfree : ∀ τ ∈ χ.getLast?, ∀ τ' ∈ υ.head?, ¬τ.catches τ'
  · exact .inl (hreplaces.free.append hυ hfree)
  · simp only [not_forall, not_not] at hfree
    obtain ⟨τ, hτ, τ', hτ', hcatch⟩ := hfree
    obtain ⟨υ', rfl⟩ : ∃ υ', υ = τ' :: υ' := ⟨υ.tail, List.eq_cons_of_mem_head? hτ'⟩
    rcases catches_of_more hχ hτ hcatch with h | ⟨b, rfl, htraps, hopens⟩
    · exact absurd h (hf.right_of_append.rel_head? hτ')
    · have hnil : ω = [] := by
        by_contra hne
        obtain ⟨σ, hσ⟩ := Option.ne_none_iff_exists'.1 (mt List.getLast?_eq_none_iff.1 hne)
        obtain ⟨p, b', rfl⟩ := rest_of_over (hω σ (List.mem_of_getLast? hσ))
        have hprec := (List.isChain_append.1 hc.chain).2.2 _ hσ (operand b) rfl
        simp [Precedes, ends, traps] at hprec
      subst hnil
      exact .inr ⟨b, τ', υ', rfl, htraps, hopens⟩

end

end LatexCalc
