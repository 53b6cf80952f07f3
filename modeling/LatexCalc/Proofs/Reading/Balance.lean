import LatexCalc.Proofs.Reading.Parts

/-!
# Brackets and commands among the tokens that are read

A rule reads tokens of its own, and between them its parts one after the other (`Rule.strung`). From one
look at the tokens of each rule two facts follow about all tokens that are read, by induction over
readings.

* The tokens that are read close the brackets that they open (`Reading.Holds.balanced`), so a bracket
  is closed by the token that closes it in the tokens alone (`eq_of_balanced`).
* Each command is the first token of an operand (`Reading.Holds.exists_operand`).
-/

namespace LatexCalc

/-! ## Balanced tokens -/

/-- How many brackets are open after a token, if `n` are open before it. -/
def Token.open? (n : Nat) (t : Token) : Option Nat :=
  match t.kind with
  | .parenOpen | .braceOpen => some (n + 1)
  | .parenClose | .braceClose => if n = 0 then none else some (n - 1)
  | _ => some n

/-- The tokens close the brackets that they open, and no others. -/
def Balanced (ts : List Token) : Prop :=
  ∀ n, ts.foldlM Token.open? n = some n

theorem Token.open?_of_opening {κ : Bracket} {t : Token} (ht : t.kind = κ.opening) (n : Nat) :
    t.open? n = some (n + 1) := by
  cases κ <;> simp [Token.open?, ht, Bracket.opening]

theorem Token.open?_of_closing {κ : Bracket} {t : Token} (ht : t.kind = κ.closing) (n : Nat) :
    t.open? n = if n = 0 then none else some (n - 1) := by
  cases κ <;> simp [Token.open?, ht, Bracket.closing]

/-- Behind balanced tokens a bracket closes one that was open before them. -/
theorem Balanced.not_balanced_append {us vs : List Token} {c : Token} {κ : Bracket} (h : Balanced us)
    (hc : c.kind = κ.closing) : ¬Balanced (us ++ c :: vs) := by
  intro h'
  have hopen := h' 0
  simp [List.foldlM_append, h 0, Token.open?_of_closing hc] at hopen

/-- **Balanced tokens end at the bracket that closes the one in front of them.** -/
theorem eq_of_balanced {us us' vs vs' : List Token} {c c' : Token} {κ κ' : Bracket}
    (heq : us ++ c :: vs = us' ++ c' :: vs') (h : Balanced us) (h' : Balanced us')
    (hc : c.kind = κ.closing) (hc' : c'.kind = κ'.closing) : us = us' ∧ c = c' ∧ vs = vs' := by
  rcases List.append_eq_append_iff.1 heq with ⟨w, rfl, hw⟩ | ⟨w, rfl, hw⟩
  · cases w with
    | nil =>
      cases hw
      exact ⟨(List.append_nil us).symm, rfl, rfl⟩
    | cons d w =>
      obtain ⟨rfl, -⟩ := List.cons.inj hw
      exact absurd h' (h.not_balanced_append hc)
  · cases w with
    | nil =>
      cases hw
      exact ⟨List.append_nil us', rfl, rfl⟩
    | cons d w =>
      obtain ⟨rfl, -⟩ := List.cons.inj hw
      exact absurd h (h'.not_balanced_append hc')

/-! ## The tokens of a rule -/

/-- The tokens of the second argument up to those of the last one are the readings `ps` one after the
other, with the tokens `own` in front of each of them and behind the last one. -/
inductive Strung : (own : List (List Token)) → List Token → (ps : List Reading) → List Token → Prop
  | nil {w ts r} (hts : ts = w ++ r) : Strung [w] ts [] r
  | cons {w own X ts ps r} (hts : ts = w ++ X.tokens) (h : Strung own X.rest ps r) :
      Strung (w :: own) ts (X :: ps) r

theorem balanced_header {ts : List Token} {v : String} (h : derivativeVariable? ts = some v) :
    Balanced (ts.take 6) := by
  unfold derivativeVariable? at h
  split at h
  · split at h
    · next hk => exact fun n => by simp [Token.open?, hk]
    · cases h
  · cases h

/-- **The tokens of a rule.** Its own ones close the brackets that they open, and none of them is a
command but the first one of an operand. -/
theorem Rule.strung {Z : Reading} {ps : List Reading} (h : Rule Z ps) :
    ∃ first own ts, Z.tokens = first ++ ts ∧ Strung own ts ps Z.rest ∧
      Balanced (first ++ own.flatten) ∧ (∀ t ∈ own.flatten, t.kind ≠ .function) ∧
      (first = [] ∨ Z.phase = .operand ∧ ∃ t, first = [t]) := by
  cases h with
  | @minus _ _ t _ _ _ _ _ ht | @plus _ _ t _ _ _ _ _ ht | @operator _ _ _ t _ _ _ _ _ _ ht =>
    exact ⟨[], [[t], [], []], _, rfl, .cons rfl (.cons rfl (.nil rfl)),
      fun n => by simp [Token.open?, ht.1], by simp [ht.1], .inl rfl⟩
  | unsigned | factor =>
    exact ⟨[], [[], [], []], _, rfl, .cons rfl (.cons rfl (.nil rfl)), fun _ => rfl, by simp, .inl rfl⟩
  | stop => exact ⟨[], [[]], _, rfl, .nil rfl, fun _ => rfl, by simp, .inl rfl⟩
  | @bracketed κ _ o _ _ c _ ho hc =>
    refine ⟨[], [[o], [c]], _, rfl, .cons rfl (.nil rfl), fun n => ?_, ?_, .inl rfl⟩
    · simp [Token.open?_of_opening ho, Token.open?_of_closing hc]
    · cases κ <;> simp [ho, hc, Bracket.opening, Bracket.closing]
  | @number _ t _ _ ht | @name _ t _ ht =>
    exact ⟨[], [[t]], _, rfl, .nil rfl, fun n => by simp [Token.open?, ht], by simp [ht], .inl rfl⟩
  | @constant _ t _ _ ht =>
    exact ⟨[t], [[]], _, rfl, .nil rfl, fun n => by simp [Token.open?, ht], by simp,
      .inr ⟨rfl, t, rfl⟩⟩
  | brackets => exact ⟨[], [[], []], _, rfl, .cons rfl (.nil rfl), fun _ => rfl, by simp, .inl rfl⟩
  | @fraction _ t _ _ _ _ _ ht =>
    exact ⟨[t], [[], [], []], _, rfl, .cons rfl (.cons rfl (.nil rfl)),
      fun n => by simp [Token.open?, ht.1], by simp, .inr ⟨rfl, t, rfl⟩⟩
  | @sqrt _ t _ _ _ ht =>
    exact ⟨[t], [[], []], _, rfl, .cons rfl (.nil rfl), fun n => by simp [Token.open?, ht.1],
      by simp, .inr ⟨rfl, t, rfl⟩⟩
  | @call _ _ t _ _ _ ht =>
    exact ⟨[t], [[], []], _, rfl, .cons rfl (.nil rfl), fun n => by simp [Token.open?, ht],
      by simp, .inr ⟨rfl, t, rfl⟩⟩
  | @integral _ t _ _ _ _ _ _ d _ _ ht hd =>
    have hdk := kind_of_startsDifferential hd
    exact ⟨[t], [[], [], [], [d]], _, rfl, .cons rfl (.cons rfl (.cons rfl (.nil rfl))),
      fun n => by simp [Token.open?, ht.1, hdk], by simp [hdk], .inr ⟨rfl, t, rfl⟩⟩
  | @integralScripts _ t u _ _ c _ _ _ _ d _ _ ht hu hc hd =>
    have hdk := kind_of_startsDifferential hd
    exact ⟨[t], [[u], [c], [], [d]], _, rfl, .cons rfl (.cons rfl (.cons rfl (.nil rfl))),
      fun n => by simp [Token.open?, ht.1, hu, hc.1, hdk], by simp [hu, hc.1, hdk], .inr ⟨rfl, t, rfl⟩⟩
  | @iteration _ t _ o v c _ _ _ _ _ _ _ ht _ ho hv hc =>
    exact ⟨[t], [[o, v, c], [], [], []], _, rfl, .cons rfl (.cons rfl (.cons rfl (.nil rfl))),
      fun n => by simp [Token.open?, ht, ho, hv, hc], by simp [ho, hv, hc], .inr ⟨rfl, t, rfl⟩⟩
  | @iterationScripts _ t _ u o v q _ _ c p _ _ _ _ _ ht _ hu ho hv hq hc hp =>
    exact ⟨[t], [[u, o, v, q], [c, p], [], []], _, rfl, .cons rfl (.cons rfl (.cons rfl (.nil rfl))),
      fun n => by simp [Token.open?, ht, hu, ho, hv, hq, hc, hp.1], by simp [hu, ho, hv, hq, hc, hp.1],
      .inr ⟨rfl, t, rfl⟩⟩
  | @derivative _ t ts _ _ _ ht hd =>
    refine ⟨[t], [ts.take 6, []], ts, rfl, .cons (List.take_append_drop 6 ts).symm (.nil rfl),
      fun n => ?_, ?_, .inr ⟨rfl, t, rfl⟩⟩
    · simp [Token.open?, ht.1, balanced_header hd n]
    · rw [List.flatten_cons, List.flatten_singleton, List.append_nil]
      exact fun u hu => (kind_of_derivativeVariable hd u hu).2
  | @derivativeAt _ t ts _ p u o v q _ _ c _ _ _ ht hd hs hp hu ho hv _ hq hc =>
    have hts := (List.take_append_drop 6 ts).symm
    rw [hs] at hts
    refine ⟨[t], [ts.take 6 ++ [p, u, o, v, q], [c], []], ts, rfl,
      .cons (by simpa using hts) (.cons rfl (.nil rfl)), fun n => ?_, ?_, .inr ⟨rfl, t, rfl⟩⟩
    · simp [Token.open?, ht.1, List.foldlM_append, balanced_header hd n, hp, hu, ho, hv, hq, hc]
    · rw [List.flatten_cons, List.append_assoc]
      refine List.forall_mem_append.2 ⟨fun u hu => (kind_of_derivativeVariable hd u hu).2, ?_⟩
      simp [hp, hu, ho, hv, hq, hc]

/-! ## The tokens of a reading -/

/-- Parts that are balanced change nothing between the tokens of a rule. -/
theorem Strung.foldlM_open {own : List (List Token)} {ts r : List Token} {ps : List Reading}
    (h : Strung own ts ps r) (hps : ps.Forall fun X => ∃ u, X.tokens = u ++ X.rest ∧ Balanced u) :
    ∃ u, ts = u ++ r ∧ ∀ n, u.foldlM Token.open? n = own.flatten.foldlM Token.open? n := by
  induction h with
  | nil hts => exact ⟨_, hts, by simp⟩
  | @cons w own X ts ps r hts _ ih =>
    rw [List.forall_cons] at hps
    obtain ⟨⟨u, hu, hbalanced⟩, hps⟩ := hps
    obtain ⟨u', hu', heq⟩ := ih hps
    refine ⟨w ++ (u ++ u'), by simp [hts, hu, hu'], fun n => ?_⟩
    rw [List.flatten_cons, List.foldlM_append, List.foldlM_append]
    refine bind_congr fun m => ?_
    rw [List.foldlM_append, hbalanced m]
    exact heq m

/-- **What is read closes the brackets that it opens.** -/
theorem Reading.Holds.balanced {Z : Reading} (h : Z.Holds) :
    ∃ u, Z.tokens = u ++ Z.rest ∧ Balanced u := by
  refine h.induct (Q := fun Z => ∃ u, Z.tokens = u ++ Z.rest ∧ Balanced u) fun Z ps hr _ hps => ?_
  obtain ⟨first, own, ts, hts, hstrung, hbalanced, -⟩ := hr.strung
  obtain ⟨u, rfl, hu⟩ := hstrung.foldlM_open hps
  refine ⟨first ++ u, by rw [hts, List.append_assoc], fun n => ?_⟩
  have hown := hbalanced n
  rw [List.foldlM_append] at hown ⊢
  rw [← hown]
  exact bind_congr hu

theorem mem_or_suffix {t : Token} {s us vs : List Token} (h : t :: s <:+ us ++ vs) :
    t ∈ us ∨ t :: s <:+ vs := by
  obtain ⟨w, hw⟩ := h
  rcases List.append_eq_append_iff.1 hw with ⟨x, rfl, hx⟩ | ⟨x, rfl, hx⟩
  · cases x with
    | nil => exact .inr (hx ▸ List.suffix_rfl)
    | cons u x =>
      obtain ⟨rfl, -⟩ := List.cons.inj hx
      exact .inl (by simp)
  · exact .inr ⟨x, hx.symm⟩

/-- A token that is not one of the rule's own is in one of the parts. -/
theorem Strung.exists_part {own : List (List Token)} {ts r s : List Token} {ps : List Reading}
    {t : Token} (h : Strung own ts ps r) (hps : ps.Forall Reading.Holds) (ht : t ∉ own.flatten)
    (hs : t :: s <:+ ts) (hr : r.length ≤ s.length) :
    ∃ X ∈ ps, t :: s <:+ X.tokens ∧ X.rest.length ≤ s.length := by
  induction h with
  | nil hts =>
    rcases mem_or_suffix (hts ▸ hs) with hw | hsr
    · exact absurd (by simpa using hw) ht
    · have hlen := hsr.length_le
      rw [List.length_cons] at hlen
      omega
  | @cons w own X ts ps r hts _ ih =>
    rw [List.flatten_cons, List.mem_append, not_or] at ht
    rw [List.forall_cons] at hps
    have hX := (mem_or_suffix (hts ▸ hs)).resolve_left ht.1
    by_cases hlen : X.rest.length ≤ s.length
    · exact ⟨X, List.mem_cons_self, hX, hlen⟩
    · obtain ⟨u, hu, -⟩ := hps.1.balanced
      have hrest : t :: s <:+ X.rest :=
        List.suffix_of_suffix_length_le hX ⟨u, hu.symm⟩ (by rw [List.length_cons]; omega)
      obtain ⟨Y, hY, hYs⟩ := ih hps.2 ht.2 hrest hr
      exact ⟨Y, List.mem_cons_of_mem X hY, hYs⟩

/-- **Each command that is read starts an operand.** -/
theorem Reading.Holds.exists_operand {Z : Reading} (h : Z.Holds) {t : Token} {s : List Token}
    (ht : t.kind = .function) (hs : t :: s <:+ Z.tokens) (hr : Z.rest.length ≤ s.length) :
    ∃ X, Reading.Part X Z ∧ X.phase = .operand ∧ X.tokens = t :: s := by
  revert hs hr
  refine h.induct (Q := fun Z => t :: s <:+ Z.tokens → Z.rest.length ≤ s.length →
    ∃ X, Reading.Part X Z ∧ X.phase = .operand ∧ X.tokens = t :: s) fun Z ps hrule hps ih hs hr => ?_
  obtain ⟨first, own, ts, hts, hstrung, -, hown, hfirst⟩ := hrule.strung
  have hcases : t :: s <:+ ts ∨ Z.phase = .operand ∧ Z.tokens = t :: s := by
    rw [hts] at hs ⊢
    rcases hfirst with rfl | ⟨hphase, t', rfl⟩
    · exact .inl hs
    · rcases List.suffix_cons_iff.1 hs with heq | hs
      · exact .inr ⟨hphase, heq.symm⟩
      · exact .inl hs
  rcases hcases with hsts | ⟨hphase, htokens⟩
  · obtain ⟨X, hX, hXs, hXr⟩ := hstrung.exists_part hps (fun hmem => hown t hmem ht) hsts hr
    obtain ⟨Y, hY, hYX⟩ := List.forall_iff_forall_mem.1 ih X hX hXs hXr
    exact ⟨Y, .within hrule hps hX hY, hYX⟩
  · exact ⟨Z, .whole (Reading.holds_iff.2 ⟨ps, hrule, hps⟩), hphase, htokens⟩

end LatexCalc
