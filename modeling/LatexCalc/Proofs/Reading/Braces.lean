import LatexCalc.Proofs.Reading.Lookahead
import LatexCalc.Proofs.Reading.Operands
import Mathlib.Data.List.Forall2

/-!
# Braces for parentheses

Parentheses stand around an expression or the argument of a function, and braces may do that as well.
Nothing else is made of braces that are written for parentheses (`Reads.braced`): they start and end
operands in the same way, so the same factors and differentials are seen, and where two groups in braces
form a fraction no header of a derivative comes up (`derivativeVariable?_eq_none_of_braced`). So tokens
are parsed as the same tree with braces for their parentheses (`parse_braces`).
-/

namespace LatexCalc

/-! ## Tokens -/

/-- The kind of a token once braces are written for parentheses. -/
def TokenKind.braced : TokenKind → TokenKind
  | parenOpen => braceOpen
  | parenClose => braceClose
  | k => k

@[simp] theorem TokenKind.startsOperand_braced (k : TokenKind) :
    k.braced.startsOperand = k.startsOperand := by
  cases k <;> rfl

/-- Only for a parenthesis is there a token of another kind. -/
theorem TokenKind.eq_of_braced {k k' : TokenKind} (h : k.braced = k') (ho : k' ≠ .braceOpen)
    (hc : k' ≠ .braceClose) : k = k' := by
  cases k <;> first | exact h | exact absurd h.symm ho | exact absurd h.symm hc

namespace Token

/-- The token `t'` is `t`, or for a parenthesis `t` the brace that opens or closes like it, at whatever
place in the line. -/
structure Braced (t t' : Token) : Prop where
  kind : t'.kind = t.kind.braced
  text : t'.kind = t.kind → t'.text = t.text

namespace Braced

variable {t t' : Token}

/-- A token that is no parenthesis keeps its kind and its text. -/
theorem keeps {k : TokenKind} (h : t.Braced t') (ht : t.kind = k) (hk : k.braced = k) :
    t'.kind = k ∧ t'.text = t.text := by
  have hkind : t'.kind = k := by rw [h.kind, ht, hk]
  exact ⟨hkind, h.text (hkind.trans ht.symm)⟩

theorem opening {κ : Bracket} (h : t.Braced t') (ht : t.kind = κ.opening) : t'.kind = .braceOpen := by
  rw [h.kind, ht]
  cases κ <;> rfl

theorem closing {κ : Bracket} (h : t.Braced t') (ht : t.kind = κ.closing) : t'.kind = .braceClose := by
  rw [h.kind, ht]
  cases κ <;> rfl

theorem isOp {op : Op} (h : t.Braced t') (ht : t.IsOp op) : t'.IsOp op := by
  obtain ⟨hk, htext⟩ := h.keeps ht.1 rfl
  exact ⟨hk, by rw [htext, ht.2]⟩

theorem command (h : t.Braced t') (ht : t.kind = .function) : t'.command = t.command := by
  rw [Token.command, (h.keeps ht rfl).2, Token.command]

theorem isCommand {name : String} (h : t.Braced t') (ht : t.IsCommand name) : t'.IsCommand name :=
  ⟨(h.keeps ht.1 rfl).1, (h.command ht.1).trans ht.2⟩

theorem differential (h : t.Braced t') (ht : t.kind = .identifier) :
    t'.differential? = t.differential? := by
  rw [Token.differential?, (h.keeps ht rfl).2, Token.differential?]

/-- What becomes a token that is no brace has been that token. -/
theorem keeps_of {k : TokenKind} (h : t.Braced t') (ht : t'.kind = k) (ho : k ≠ .braceOpen)
    (hc : k ≠ .braceClose) : t.kind = k ∧ t'.text = t.text := by
  have hkind : t.kind = k := TokenKind.eq_of_braced (h.kind.symm.trans ht) ho hc
  exact ⟨hkind, h.text (ht.trans hkind.symm)⟩

/-- What becomes a closing brace has closed a bracket. -/
theorem closing_of (h : t.Braced t') (ht : t'.kind = .braceClose) :
    ∃ κ : Bracket, t.kind = κ.closing := by
  have hkind := h.kind.symm.trans ht
  cases hk : t.kind <;> rw [hk] at hkind <;> cases hkind
  · exact ⟨.brace, rfl⟩
  · exact ⟨.paren, rfl⟩

end Braced

end Token

/-! ## Looking ahead -/

section

open List

variable {b : Bool} {p : Nat} {ts ts' : List Token}

theorem startsDifferential_braced (h : Forall₂ Token.Braced ts ts') :
    startsDifferential ts' = startsDifferential ts := by
  induction h with
  | nil => rfl
  | @cons t t' ts ts' ht hts ih =>
    rw [startsDifferential_cons, startsDifferential_cons]
    have hj : juxtaposes true ts' = juxtaposes true ts := by
      rw [juxtaposes, juxtaposes, ih]
      cases hts with
      | nil => rfl
      | cons hu => simp [hu.kind]
    rw [hj]
    by_cases hk : t.kind = .identifier
    · rw [ht.differential hk, (ht.keeps hk rfl).1, hk]
    · have hk' : t'.kind ≠ .identifier := fun hk' =>
        hk (ht.keeps_of hk' (by decide) (by decide)).1
      simp [hk, hk']

theorem juxtaposes_braced (h : Forall₂ Token.Braced ts ts') (b : Bool) :
    juxtaposes b ts' = juxtaposes b ts := by
  rw [juxtaposes, juxtaposes, startsDifferential_braced h]
  cases h with
  | nil => rfl
  | cons ht => simp [ht.kind]

theorem Stops.braced (h : Forall₂ Token.Braced ts ts') (hs : Stops p b ts) : Stops p b ts' := by
  cases h with
  | nil => trivial
  | @cons t t' ts ts' ht hts =>
    by_cases hk : t.kind = .operator
    · obtain ⟨hk', htext⟩ := ht.keeps hk rfl
      rw [stops_operator hk, ← htext] at hs
      exact (stops_operator hk').2 hs
    · have hk' : t'.kind ≠ .operator := fun hk' =>
        hk (ht.keeps_of hk' (by decide) (by decide)).1
      rw [stops_of_ne_operator hk] at hs
      rwa [stops_of_ne_operator hk', juxtaposes_braced (.cons ht hts)]

/-- The header of a derivative remains one. -/
theorem derivativeVariable?_braced {v : String} (h : Forall₂ Token.Braced ts ts')
    (hv : derivativeVariable? ts = some v) : derivativeVariable? ts' = some v := by
  unfold derivativeVariable? at hv
  split at hv
  · split at hv
    · next hk =>
      obtain ⟨ho, hd, htext, hc, ho', hdx, hc'⟩ := hk
      rcases h with _ | ⟨h₁, _ | ⟨h₂, _ | ⟨h₃, _ | ⟨h₄, _ | ⟨h₅, _ | ⟨h₆, -⟩⟩⟩⟩⟩⟩
      have hname := h₂.keeps hd rfl
      simp only [derivativeVariable?, (h₁.keeps ho rfl).1, hname, htext, (h₃.keeps hc rfl).1,
        (h₄.keeps ho' rfl).1, (h₅.keeps hdx rfl).1, (h₆.keeps hc' rfl).1, h₅.differential hdx, hv,
        and_self, if_true]
    · cases hv
  · cases hv

/-- A group that is a name ends at the bracket behind it. -/
theorem Reads.of_name {o d c : Token} {s r : List Token} {e : Expr} {κ κ' : Bracket}
    (h : Reads (.bracketed κ) b (o :: d :: c :: s) e r) (hd : d.kind = .identifier)
    (hc : c.kind = κ'.closing) : c.kind = κ.closing ∧ r = s := by
  obtain ⟨c', hc', hx⟩ := h.of_bracketed
  obtain ⟨-, hr⟩ := hx.unique_expr (.unsigned (.name hd) (.stop (stops_closing hc 0 b s)))
  cases hr
  exact ⟨hc', rfl⟩

/-- Two groups in braces do not become the header of a derivative. -/
theorem derivativeVariable?_eq_none_of_braced {m r : List Token} {x y : Expr}
    (h : Forall₂ Token.Braced ts ts') (hx : Reads (.bracketed .brace) b ts x m)
    (hy : Reads (.bracketed .brace) b m y r) (hnone : derivativeVariable? ts = none) :
    derivativeVariable? ts' = none := by
  refine Option.eq_none_iff_forall_ne_some.2 fun v hv => ?_
  unfold derivativeVariable? at hv
  split at hv
  · split at hv
    · next hk =>
      obtain ⟨-, hd', htext, hc', -, hdx', hc₂'⟩ := hk
      rcases h with _ | ⟨h₁, _ | ⟨h₂, _ | ⟨h₃, _ | ⟨h₄, _ | ⟨h₅, _ | ⟨h₆, -⟩⟩⟩⟩⟩⟩
      have hd := h₂.keeps_of hd' (by decide) (by decide)
      have hdx := h₅.keeps_of hdx' (by decide) (by decide)
      obtain ⟨κ, hc⟩ := h₃.closing_of hc'
      obtain ⟨κ', hc₂⟩ := h₆.closing_of hc₂'
      obtain ⟨hc, rfl⟩ := hx.of_name hd.1 hc
      obtain ⟨hc₂, -⟩ := hy.of_name hdx.1 hc₂
      obtain ⟨_, _, ho, hko⟩ := hx.head_bracketed
      obtain ⟨_, _, ho₂, hko₂⟩ := hy.head_bracketed
      cases ho
      cases ho₂
      rw [h₅.differential hdx.1] at hv
      rw [hd.2] at htext
      simp [derivativeVariable?, hko, hd.1, htext, hc, hko₂, hdx.1, hc₂, Bracket.opening,
        Bracket.closing, hv] at hnone
    · cases hv
  · cases hv

/-! ## Reading -/

/-- What is read once braces are written for parentheses. -/
def Phase.braced : Phase → Phase
  | bracketed _ => bracketed .brace
  | ph => ph

/-- **Braces for parentheses** are read as the same tree. -/
theorem Reads.braced {ph : Phase} {r : List Token} {e : Expr} (h : Reads ph b ts e r) :
    ∀ {ts'}, Forall₂ Token.Braced ts ts' →
      ∃ r', Forall₂ Token.Braced r r' ∧ Reads ph.braced b ts' e r' := by
  induction h with
  | minus ht _ _ ihx ihe =>
    rintro _ (_ | ⟨h, hts⟩)
    obtain ⟨m, hm, hx⟩ := ihx hts
    obtain ⟨r, hr, he⟩ := ihe hm
    exact ⟨r, hr, .minus (h.isOp ht) hx he⟩
  | plus ht _ _ ihx ihe =>
    rintro _ (_ | ⟨h, hts⟩)
    obtain ⟨m, hm, hx⟩ := ihx hts
    obtain ⟨r, hr, he⟩ := ihe hm
    exact ⟨r, hr, .plus (h.isOp ht) hx he⟩
  | unsigned _ _ ihx ihe =>
    intro _ hts
    obtain ⟨m, hm, hx⟩ := ihx hts
    obtain ⟨r, hr, he⟩ := ihe hm
    exact ⟨r, hr, .unsigned hx he⟩
  | stop hs => exact fun hts => ⟨_, hts, .stop (hs.braced hts)⟩
  | operator ht hl _ _ ihx ihe =>
    rintro _ (_ | ⟨h, hts⟩)
    obtain ⟨m, hm, hx⟩ := ihx hts
    obtain ⟨r, hr, he⟩ := ihe hm
    exact ⟨r, hr, .operator (h.isOp ht) hl hx he⟩
  | factor hl hj _ _ ihx ihe =>
    intro _ hts
    obtain ⟨m, hm, hx⟩ := ihx hts
    obtain ⟨r, hr, he⟩ := ihe hm
    exact ⟨r, hr, .factor hl ((juxtaposes_braced hts _).trans hj) hx he⟩
  | bracketed ho _ hc ihx =>
    rintro _ (_ | ⟨h, hts⟩)
    obtain ⟨_, _ | ⟨h', hr⟩, hx⟩ := ihx hts
    exact ⟨_, hr, .bracketed (h.opening ho) hx (h'.closing hc)⟩
  | number ht hx =>
    rintro _ (_ | ⟨h, hr⟩)
    obtain ⟨hk, htext⟩ := h.keeps ht rfl
    exact ⟨_, hr, .number hk (htext ▸ hx)⟩
  | name ht =>
    rintro _ (_ | ⟨h, hr⟩)
    obtain ⟨hk, htext⟩ := h.keeps ht rfl
    exact ⟨_, hr, htext ▸ .name hk⟩
  | constant ht hx =>
    rintro _ (_ | ⟨h, hr⟩)
    exact ⟨_, hr, .constant (h.keeps ht rfl).1 (h.command ht ▸ hx)⟩
  | brackets _ ihx =>
    intro _ hts
    obtain ⟨r, hr, hx⟩ := ihx hts
    exact ⟨r, hr, .brackets hx⟩
  | fraction ht hd hx hy ihx ihy =>
    rintro _ (_ | ⟨h, hts⟩)
    obtain ⟨m, hm, hx'⟩ := ihx hts
    obtain ⟨r, hr, hy'⟩ := ihy hm
    have hd' := derivativeVariable?_eq_none_of_braced hts hx hy hd
    exact ⟨r, hr, .fraction (h.isCommand ht) hd' hx' hy'⟩
  | sqrt ht _ ihx =>
    rintro _ (_ | ⟨h, hts⟩)
    obtain ⟨r, hr, hx⟩ := ihx hts
    exact ⟨r, hr, .sqrt (h.isCommand ht) hx⟩
  | call ht hn _ ihx =>
    rintro _ (_ | ⟨h, hts⟩)
    obtain ⟨r, hr, hx⟩ := ihx hts
    have hname := h.command ht
    exact ⟨r, hr, hname ▸ .call (h.keeps ht rfl).1 (hname ▸ hn) hx⟩
  | integral ht _ _ _ hd hv ihx ihy ihf =>
    rintro _ (_ | ⟨h, hts⟩)
    obtain ⟨m, hm, hx⟩ := ihx hts
    obtain ⟨k, hk, hy⟩ := ihy hm
    obtain ⟨_, hdr, hf⟩ := ihf hk
    have hd' := (startsDifferential_braced hdr).trans hd
    rcases hdr with _ | ⟨h', hr⟩
    have hv' := (h'.differential (kind_of_startsDifferential hd)).trans hv
    exact ⟨_, hr, .integral (h.isCommand ht) hx hy hf hd' hv'⟩
  | integralScripts ht hu _ hp _ _ hd hv ihx ihy ihf =>
    rintro _ (_ | ⟨h, _ | ⟨hu', hts⟩⟩)
    obtain ⟨_, _ | ⟨hp', hm⟩, hx⟩ := ihx hts
    obtain ⟨k, hk, hy⟩ := ihy hm
    obtain ⟨_, hdr, hf⟩ := ihf hk
    have hd' := (startsDifferential_braced hdr).trans hd
    rcases hdr with _ | ⟨h', hr⟩
    have hv' := (h'.differential (kind_of_startsDifferential hd)).trans hv
    exact ⟨_, hr, .integralScripts (h.isCommand ht) (hu'.keeps hu rfl).1 hx (hp'.isOp hp) hy hf hd' hv'⟩
  | iteration ht hm ho hv hc _ _ _ ihx ihy ihf =>
    rintro _ (_ | ⟨h, _ | ⟨ho', _ | ⟨hv', _ | ⟨hc', hts⟩⟩⟩⟩)
    obtain ⟨m, hm', hx⟩ := ihx hts
    obtain ⟨k, hk, hy⟩ := ihy hm'
    obtain ⟨r, hr, hf⟩ := ihf hk
    obtain ⟨hname, htext⟩ := hv'.keeps hv rfl
    exact ⟨r, hr, htext ▸ .iteration (h.keeps ht rfl).1 (h.command ht ▸ hm) (ho'.keeps ho rfl).1 hname
      (hc'.keeps hc rfl).1 hx hy hf⟩
  | iterationScripts ht hm hu ho hv hq _ hc hp _ _ ihx ihy ihf =>
    rintro _ (_ | ⟨h, _ | ⟨hu', _ | ⟨ho', _ | ⟨hv', _ | ⟨hq', hts⟩⟩⟩⟩⟩)
    obtain ⟨_, _ | ⟨hc', _ | ⟨hp', hm'⟩⟩, hx⟩ := ihx hts
    obtain ⟨k, hk, hy⟩ := ihy hm'
    obtain ⟨r, hr, hf⟩ := ihf hk
    obtain ⟨hname, htext⟩ := hv'.keeps hv rfl
    exact ⟨r, hr, htext ▸ .iterationScripts (h.keeps ht rfl).1 (h.command ht ▸ hm) (hu'.keeps hu rfl).1
      (ho'.keeps ho rfl).1 hname (hq'.keeps hq rfl).1 hx (hc'.keeps hc rfl).1 (hp'.isOp hp) hy hf⟩
  | derivative ht hd _ ihf =>
    rintro _ (_ | ⟨h, hts⟩)
    obtain ⟨r, hr, hf⟩ := ihf (forall₂_drop 6 hts)
    exact ⟨r, hr, .derivative (h.isCommand ht) (derivativeVariable?_braced hts hd) hf⟩
  | derivativeAt ht hd hs hp hu ho hn hnv hq _ hc _ ihx ihf =>
    rintro _ (_ | ⟨h, hts⟩)
    have hpoint := forall₂_drop 6 hts
    rw [hs] at hpoint
    generalize hs' : List.drop 6 _ = s' at hpoint
    rcases hpoint with _ | ⟨hp', _ | ⟨hu', _ | ⟨ho', _ | ⟨hn', _ | ⟨hq', hk⟩⟩⟩⟩⟩
    obtain ⟨_, _ | ⟨hc', hm⟩, hx⟩ := ihx hk
    obtain ⟨r, hr, hf⟩ := ihf hm
    obtain ⟨hname, htext⟩ := hn'.keeps hn rfl
    exact ⟨r, hr, .derivativeAt (h.isCommand ht) (derivativeVariable?_braced hts hd) hs'
      (hp'.keeps hp rfl).1 (hu'.keeps hu rfl).1 (ho'.keeps ho rfl).1 hname (htext.trans hnv)
      (hq'.keeps hq rfl).1 hx (hc'.keeps hc rfl).1 hf⟩

/-- **Parentheses can be written as braces.** Let some tokens be parsed as `e`. With an opening brace for
each opening parenthesis and a closing one for each closing one they are parsed as `e`, too. -/
theorem parse_braces {line line' : String} {e : Expr} (he : parse line ts = .ok e)
    (h : Forall₂ Token.Braced ts ts') : parse line' ts' = .ok e := by
  obtain ⟨r, hr, hread⟩ := (parse_eq_ok_iff.1 he).braced h
  cases hr
  exact parse_eq_ok_iff.2 hread

/-- The tokens of `\sin(x)(2)` and of `\sin{x}{2}`. -/
theorem parse_braces_call :
    let ts : List Token := [⟨.function, "\\sin", 0⟩, ⟨.parenOpen, "(", 4⟩, ⟨.identifier, "x", 5⟩,
      ⟨.parenClose, ")", 6⟩, ⟨.parenOpen, "(", 7⟩, ⟨.number, "2", 8⟩, ⟨.parenClose, ")", 9⟩]
    let ts' : List Token := [⟨.function, "\\sin", 0⟩, ⟨.braceOpen, "\x7b", 4⟩, ⟨.identifier, "x", 5⟩,
      ⟨.braceClose, "\x7d", 6⟩, ⟨.braceOpen, "\x7b", 7⟩, ⟨.number, "2", 8⟩, ⟨.braceClose, "\x7d", 9⟩]
    let e : Expr := .binary .mul (.call "sin" (.ident "x")) (.number 2)
    parse "\\sin(x)(2)" ts = .ok e ∧ Forall₂ Token.Braced ts ts' ∧
      parse "\\sin\x7bx\x7d\x7b2\x7d" ts' = .ok e := by
  intro ts ts' e
  have he : parse "\\sin(x)(2)" ts = .ok e := rfl
  have hother (t : Token) (hk : t.kind.braced = t.kind) : t.Braced t := ⟨hk.symm, fun _ => rfl⟩
  have hparen {t t' : Token} (hk : t'.kind = t.kind.braced) (hne : t'.kind ≠ t.kind) : t.Braced t' :=
    ⟨hk, fun h => absurd h hne⟩
  have h : Forall₂ Token.Braced ts ts' :=
    .cons (hother _ rfl) (.cons (hparen rfl (by decide)) (.cons (hother _ rfl)
      (.cons (hparen rfl (by decide)) (.cons (hparen rfl (by decide)) (.cons (hother _ rfl)
        (.cons (hparen rfl (by decide)) .nil))))))
  exact ⟨he, h, parse_braces he h⟩

end

end LatexCalc
