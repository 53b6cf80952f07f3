import LatexCalc.Proofs.Reading.Rules

/-!
# Reading in front of a closing bracket

The rules look ahead, at the next token for a factor and further for a differential and for the header
of a derivative. A closing bracket looks to them like the end of the line: what is read from some
tokens alone is read in the same way where a closing bracket follows (`Reads.enclosed`), and so tokens
that are an expression by themselves are one in brackets (`Reads.bracketed_of_whole`).
-/

namespace LatexCalc

variable {κ : Bracket} {c : Token} {ts s : List Token}

/-! ## Looking ahead -/

theorem startsDifferential_append_closing (hc : c.kind = κ.closing) (ts s : List Token) :
    startsDifferential (ts ++ c :: s) = startsDifferential ts := by
  induction ts with
  | nil => cases κ <;> simp [startsDifferential, hc, Bracket.closing]
  | cons t ts ih =>
    cases ts with
    | nil => cases κ <;> simp [startsDifferential, hc, Bracket.closing]
    | cons u ts => simp only [List.cons_append, startsDifferential] at ih ⊢; rw [ih]

theorem juxtaposes_append_closing (hc : c.kind = κ.closing) (b : Bool) (ts s : List Token) :
    juxtaposes b (ts ++ c :: s) = juxtaposes b ts := by
  unfold juxtaposes
  rw [startsDifferential_append_closing hc]
  cases ts with
  | nil => simp [hc, κ.startsOperand_closing]
  | cons t ts => rfl

theorem Stops.append_closing {p : Nat} {b : Bool} (h : Stops p b ts) (hc : c.kind = κ.closing)
    (s : List Token) : Stops p b (ts ++ c :: s) := by
  cases ts with
  | nil => exact stops_closing hc p b s
  | cons t ts =>
    by_cases ht : t.kind = .operator
    · exact (stops_operator ht).2 ((stops_operator ht).1 h)
    · have hts := (stops_of_ne_operator ht).1 h
      rw [← juxtaposes_append_closing hc b (t :: ts) s] at hts
      exact (stops_of_ne_operator ht).2 hts

theorem derivativeVariable?_append (h : 6 ≤ ts.length) (s : List Token) :
    derivativeVariable? (ts ++ s) = derivativeVariable? ts := by
  match ts, h with
  | _ :: _ :: _ :: _ :: _ :: _ :: _, _ => rfl

/-- The header of a derivative takes six tokens. -/
theorem length_of_derivativeVariable {v : String} (h : derivativeVariable? ts = some v) :
    6 ≤ ts.length := by
  unfold derivativeVariable? at h
  split at h
  · simp only [List.length_cons]
    omega
  · cases h

namespace Reads

variable {ph : Phase} {b : Bool} {r : List Token} {e : Expr}

/-- An expression in brackets takes three tokens or more. -/
theorem length_bracketed (h : Reads (.bracketed κ) b ts e r) : r.length + 3 ≤ ts.length := by
  cases h with
  | bracketed _ hx _ =>
    obtain ⟨u, t, rfl, -⟩ := hx.taken
    simp only [List.length_cons, List.length_append]
    omega

/-- **Before a closing bracket** tokens are read as they are read by themselves. -/
theorem enclosed (hc : c.kind = κ.closing) (s : List Token) (h : Reads ph b ts e r) :
    Reads ph b (ts ++ c :: s) e (r ++ c :: s) := by
  induction h with
  | minus ht _ _ hx he => exact .minus ht hx he
  | plus ht _ _ hx he => exact .plus ht hx he
  | unsigned _ _ hx he => exact .unsigned hx he
  | stop h => exact .stop (h.append_closing hc s)
  | operator ht hl _ _ hx he => exact .operator ht hl hx he
  | factor hl hj _ _ hx he => exact .factor hl (by rwa [juxtaposes_append_closing hc]) hx he
  | bracketed ho _ hk hx => exact .bracketed ho hx hk
  | number ht hx => exact .number ht hx
  | name ht => exact .name ht
  | constant ht hx => exact .constant ht hx
  | brackets _ hx => exact .brackets hx
  | fraction ht hd hx hy ihx ihy =>
    have hxl := hx.length_bracketed
    have hyl := hy.length_bracketed
    exact .fraction ht ((derivativeVariable?_append (by omega) _).trans hd) ihx ihy
  | sqrt ht _ hx => exact .sqrt ht hx
  | call ht hn _ hx => exact .call ht hn hx
  | integral ht _ _ _ hd hv hx hy hf =>
    exact .integral ht hx hy hf (by rwa [← List.cons_append, startsDifferential_append_closing hc]) hv
  | integralScripts ht hu _ hp _ _ hd hv hx hy hf =>
    exact .integralScripts ht hu hx hp hy hf
      (by rwa [← List.cons_append, startsDifferential_append_closing hc]) hv
  | iteration ht hm ho hv hk _ _ _ hx hy hf => exact .iteration ht hm ho hv hk hx hy hf
  | iterationScripts ht hm hu ho hv hq _ hk hp _ _ hx hy hf =>
    exact .iterationScripts ht hm hu ho hv hq hx hk hp hy hf
  | derivative ht hd _ hf =>
    have hlen := length_of_derivativeVariable hd
    rw [← List.drop_append_of_le_length hlen] at hf
    exact .derivative ht ((derivativeVariable?_append hlen _).trans hd) hf
  | derivativeAt ht hd hs hp hu ho hn hnv hq _ hk _ hx hf =>
    have hlen := length_of_derivativeVariable hd
    have hs' := (List.drop_append_of_le_length hlen).trans (congrArg (· ++ c :: s) hs)
    exact .derivativeAt ht ((derivativeVariable?_append hlen _).trans hd) hs' hp hu ho hn hnv hq hx hk hf

/-- Tokens that are an expression by themselves are one in brackets, whatever follows. -/
theorem bracketed_of_whole {o : Token} (ho : o.kind = κ.opening) (hc : c.kind = κ.closing)
    (h : Reads (.expr 0) b ts e []) (s : List Token) :
    Reads (.bracketed κ) b (o :: (ts ++ c :: s)) e s :=
  .bracketed ho (h.enclosed hc s) hc

end Reads

end LatexCalc
