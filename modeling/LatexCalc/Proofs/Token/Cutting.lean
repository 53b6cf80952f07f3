import Mathlib
import LatexCalc.Proofs.Token.Spelling

/-!
# Cutting a text written for the purpose

A line that is put together from the spellings of tokens is cut into these tokens again, provided that
no letter, digit or point follows a number, a name or a command (`Apart`). `CutsInto P cs rest` states
it for one stretch `cs` of the line, whose tokens satisfy `P`; stretches are put side by side by
`CutsInto.append`.
-/

namespace LatexCalc

/-- What follows goes on with neither a letter nor a digit nor a point. -/
def Apart (rest : List Char) : Prop :=
  ∀ c ∈ rest.head?, c.isAlpha = false ∧ c.isDigit = false ∧ c ≠ '.'

theorem apart_nil : Apart [] := by
  simp [Apart]

theorem apart_cons {c : Char} (rest : List Char)
    (h : c.isAlpha = false ∧ c.isDigit = false ∧ c ≠ '.') : Apart (c :: rest) := by
  simpa [Apart] using h

/-! ## Single tokens -/

theorem first_symbol {c : Char} {kind : TokenKind} (h : symbolKind? c = some kind)
    (rest : List Char) : Piece.first c rest = (.token kind [c], rest) := by
  have hc : c ≠ '\\' ∧ c.isAlpha = false ∧ c.isDigit = false := by
    unfold symbolKind? at h
    split at h <;> first | decide | cases h
  unfold Piece.first
  rw [if_neg hc.1, hc.2.1, hc.2.2, h]
  rfl

theorem first_word {c : Char} {cs rest : List Char} (h : IsWord (c :: cs))
    (hrest : ∀ d ∈ rest.head?, d.isAlpha = false) :
    Piece.first c (cs ++ rest) = (.token .identifier (c :: cs), rest) := by
  have hc : c.isAlpha = true := h.2 c List.mem_cons_self
  have hne : c ≠ '\\' := by
    rintro rfl
    exact absurd hc (by decide)
  obtain ⟨ht, hd⟩ :=
    take_drop_while_append (fun d hd => h.2 d (List.mem_cons_of_mem c hd)) hrest
  unfold Piece.first
  rw [if_neg hne, if_pos hc, ht, hd]

/-- A backslash with the letters after it is cut out as one. -/
theorem first_backslash {name rest : List Char} (h : ∀ c ∈ name, c.isAlpha = true)
    (hrest : ∀ d ∈ rest.head?, d.isAlpha = false) :
    Piece.first '\\' (name ++ rest) = (Piece.command name, rest) := by
  obtain ⟨ht, hd⟩ := take_drop_while_append h hrest
  unfold Piece.first
  rw [if_pos rfl, ht, hd]

theorem first_command {name rest : List Char} (h : IsCommandName name)
    (hrest : ∀ d ∈ rest.head?, d.isAlpha = false) :
    Piece.first '\\' (name ++ rest) = (.token .function ('\\' :: name), rest) := by
  rw [first_backslash h.1 hrest, Piece.command, if_neg h.2.1, if_neg h.2.2]

theorem number_append_of_isDigits {ds rest : List Char} (hds : ∀ c ∈ ds, c.isDigit = true)
    (hrest : ∀ c ∈ rest.head?, c.isDigit = false)
    (hpoint : ∀ d cs, rest = '.' :: d :: cs → d.isDigit = false) :
    Piece.number (ds ++ rest) = (ds, rest) := by
  obtain ⟨ht, hd⟩ := take_drop_while_append hds hrest
  unfold Piece.number
  rw [ht, hd]
  split
  · next d cs => rw [if_neg (by simp [hpoint d cs rfl])]
  · rfl

theorem number_append_of_point {ds fraction rest : List Char} (hds : ∀ c ∈ ds, c.isDigit = true)
    (hf : IsDigits fraction) (hrest : ∀ c ∈ rest.head?, c.isDigit = false) :
    Piece.number (ds ++ '.' :: fraction ++ rest) = (ds ++ '.' :: fraction, rest) := by
  obtain ⟨hne, hf⟩ := hf
  obtain ⟨d, fraction, rfl⟩ := List.exists_cons_of_ne_nil hne
  have hd : d.isDigit = true := hf d List.mem_cons_self
  have hpoint : ∀ c ∈ ('.' :: (d :: fraction ++ rest)).head?, c.isDigit = false := by
    simp [Char.isDigit]
  obtain ⟨ht, hdr⟩ := take_drop_while_append hds hpoint
  obtain ⟨ht', hdr'⟩ := take_drop_while_append hf hrest
  unfold Piece.number
  rw [List.append_assoc, List.cons_append, ht, hdr]
  simp only [List.cons_append]
  rw [if_pos hd, ← List.cons_append, ht', hdr']

theorem isDigits_point {cs : List Char} (h : IsDigits cs) : '.' ∉ cs :=
  fun hmem => absurd (h.2 '.' hmem) (by decide)

theorem first_numeral {c : Char} {cs rest : List Char} (h : IsNumeral (c :: cs))
    (hrest : ∀ d ∈ rest.head?, d.isDigit = false)
    (hpoint : '.' ∉ c :: cs → ∀ d ds, rest = '.' :: d :: ds → d.isDigit = false) :
    Piece.first c (cs ++ rest) = (.token .number (c :: cs), rest) := by
  have hnumber : c.isDigit = true ∧ Piece.number (cs ++ rest) = (cs, rest) := by
    rcases h with h | ⟨whole, fraction, hw, hf, heq⟩
    · have hcs : ∀ d ∈ cs, d.isDigit = true := fun d hd => h.2 d (List.mem_cons_of_mem c hd)
      exact ⟨h.2 c List.mem_cons_self, number_append_of_isDigits hcs hrest (hpoint (isDigits_point h))⟩
    · obtain ⟨d, whole, rfl⟩ := List.exists_cons_of_ne_nil hw.1
      obtain ⟨rfl, rfl⟩ := List.cons.inj heq
      have hwhole : ∀ e ∈ whole, e.isDigit = true := fun e he => hw.2 e (List.mem_cons_of_mem c he)
      exact ⟨hw.2 c List.mem_cons_self, number_append_of_point hwhole hf hrest⟩
  have hc : c ≠ '\\' ∧ c.isAlpha = false := by
    have hdigit := hnumber.1
    constructor
    · rintro rfl
      exact absurd hdigit (by decide)
    · simp only [Char.isDigit, Bool.and_eq_true, decide_eq_true_eq] at hdigit
      simp only [Char.isAlpha, Char.isUpper, Char.isLower, Bool.or_eq_false_iff,
        Bool.and_eq_false_iff, decide_eq_false_iff_not, ge_iff_le, UInt32.le_iff_toNat_le] at *
      simp at *
      omega
  unfold Piece.first
  rw [if_neg hc.1, hc.2, if_pos hnumber.1, hnumber.2]
  rfl

/-! ## Stretches of a line -/

/-- From whatever offset, the characters `cs` in front of `rest` are cut into tokens that satisfy `P`. -/
def CutsInto (P : List Token → Prop) (cs rest : List Char) : Prop :=
  ∀ o, ∃ ts o', itemsFrom o (cs ++ rest) = ts.map .ok ++ itemsFrom o' rest ∧ P ts

/-- One token of a kind with a text. -/
def IsToken (kind : TokenKind) (text : List Char) (ts : List Token) : Prop :=
  ∃ o, ts = [⟨kind, String.ofList text, o⟩]

theorem CutsInto.mono {P Q : List Token → Prop} {cs rest : List Char} (h : CutsInto P cs rest)
    (hPQ : ∀ ts, P ts → Q ts) : CutsInto Q cs rest := by
  intro o
  obtain ⟨ts, o', hi, hts⟩ := h o
  exact ⟨ts, o', hi, hPQ ts hts⟩

/-- The tokens of a line begin with those of its first stretch. -/
theorem CutsInto.exists_tokens {P : List Token → Prop} {cs rest : List Char} {line : String}
    {ts : List Token} (h : CutsInto P cs rest) (hline : line.toList = cs ++ rest)
    (hts : tokenize line = .ok ts) : ∃ us vs, ts = us ++ vs ∧ P us := by
  obtain ⟨us, o, hitems, hus⟩ := h 0
  rw [tokenize_eq_ok_iff, items, hline, hitems] at hts
  obtain ⟨us', vs, rfl, heq, -⟩ := List.map_eq_append_iff.1 hts.symm
  obtain rfl := List.map_injective_iff.2 (fun _ _ => Except.ok.inj) heq
  exact ⟨us', vs, rfl, hus⟩

/-- Two stretches side by side. -/
theorem CutsInto.append {P Q : List Token → Prop} {cs ds rest : List Char}
    (h : CutsInto P cs (ds ++ rest)) (h' : CutsInto Q ds rest) :
    CutsInto (fun ts => ∃ us vs, ts = us ++ vs ∧ P us ∧ Q vs) (cs ++ ds) rest := by
  intro o
  obtain ⟨us, o₁, hi, hus⟩ := h o
  obtain ⟨vs, o₂, hi', hvs⟩ := h' o₁
  refine ⟨us ++ vs, o₂, ?_, us, vs, rfl, hus, hvs⟩
  rw [List.append_assoc, hi, hi', List.map_append, List.append_assoc]

theorem cutsInto_of_first {c : Char} {cs rest : List Char} {kind : TokenKind}
    (h : Piece.first c (cs ++ rest) = (.token kind (c :: cs), rest)) :
    CutsInto (IsToken kind (c :: cs)) (c :: cs) rest := by
  intro o
  refine ⟨_, o + (Piece.token kind (c :: cs)).size, ?_, o, rfl⟩
  rw [List.cons_append, itemsFrom, h]
  rfl

theorem cutsInto_symbol (c : Char) (kind : TokenKind) (h : symbolKind? c = some kind)
    (rest : List Char) : CutsInto (IsToken kind [c]) [c] rest :=
  cutsInto_of_first (first_symbol h rest)

theorem cutsInto_word {cs rest : List Char} (h : IsWord cs) (hrest : Apart rest) :
    CutsInto (IsToken .identifier cs) cs rest := by
  obtain ⟨c, cs, rfl⟩ := List.exists_cons_of_ne_nil h.1
  exact cutsInto_of_first (first_word h fun d hd => (hrest d hd).1)

theorem cutsInto_command {name rest : List Char} (h : IsCommandName name) (hrest : Apart rest) :
    CutsInto (IsToken .function ('\\' :: name)) ('\\' :: name) rest :=
  cutsInto_of_first (first_command h fun d hd => (hrest d hd).1)

theorem cutsInto_numeral {cs rest : List Char} (h : IsNumeral cs) (hrest : Apart rest) :
    CutsInto (IsToken .number cs) cs rest := by
  obtain ⟨c, cs, rfl⟩ : ∃ c ds, cs = c :: ds := by
    rcases h with h | ⟨whole, fraction, hw, -, rfl⟩
    · exact List.exists_cons_of_ne_nil h.1
    · exact List.exists_cons_of_ne_nil (by simp)
  refine cutsInto_of_first (first_numeral h (fun d hd => (hrest d hd).2.1) fun _ d ds heq => ?_)
  exact absurd rfl (hrest '.' (heq ▸ rfl)).2.2

/-- A blank gives no token. -/
theorem cutsInto_space (rest : List Char) : CutsInto (· = []) [' '] rest := by
  intro o
  have hfirst : Piece.first ' ' rest = (.skipped [' '], rest) := by
    unfold Piece.first
    rw [if_neg (by decide), if_neg (by decide), if_neg (by decide)]
    rfl
  refine ⟨[], o + (Piece.skipped [' ']).size, ?_, rfl⟩
  rw [List.cons_append, itemsFrom, List.nil_append, hfirst]
  rfl

end LatexCalc
