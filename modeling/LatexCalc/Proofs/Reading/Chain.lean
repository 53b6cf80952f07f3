import LatexCalc.Proofs.Reading.Rules

/-!
# Chains of operators

What climbing takes depends on the tokens and on how tightly operators have to bind, but not on the
operand in front, and it can be done in stages: first the operators that bind more tightly, then the
others (`Reads.climb_staged`). So an expression can be read further than the operators of a factor
reach, and a factor can be cut out of an expression (`Reads.expr_staged`).
-/

namespace LatexCalc.Reads

variable {b : Bool} {p q : Nat} {ts r : List Token} {e : Expr}

/-- Where an expression, or the rest of one, ends. -/
private theorem stops_of_phase {ph : Phase} (h : Reads ph b ts e r) :
    match ph with
    | .expr p | .climb p _ => Stops p b r
    | _ => True := by
  induction h with
  | minus _ _ _ _ he | plus _ _ _ _ he | unsigned _ _ _ he => exact he
  | operator _ _ _ _ _ he | factor _ _ _ _ _ he => exact he
  | stop h => exact h
  | _ => trivial

/-- An expression ends where no operator that binds tightly enough follows. -/
theorem stops (h : Reads (.expr p) b ts e r) : Stops p b r :=
  h.stops_of_phase

/-- **Climbing takes the same tokens after every operand.** -/
theorem climb_after {lhs : Expr} (h : Reads (.climb p lhs) b ts e r) (lhs' : Expr) :
    ∃ e', Reads (.climb p lhs') b ts e' r := by
  generalize hph : Phase.climb p lhs = ph at h
  induction h generalizing lhs lhs' with
  | stop h =>
    cases hph
    exact ⟨lhs', .stop h⟩
  | operator ht hl hx _ _ ih =>
    cases hph
    obtain ⟨e', he'⟩ := ih _ rfl
    exact ⟨e', .operator ht hl hx he'⟩
  | factor hl hj hx _ _ ih =>
    cases hph
    obtain ⟨e', he'⟩ := ih _ rfl
    exact ⟨e', .factor hl hj hx he'⟩
  | _ => cases hph

/-- **Climbing in stages.** The operators that bind more tightly are taken first. -/
theorem climb_staged {lhs : Expr} (hpq : p ≤ q) (h : Reads (.climb p lhs) b ts e r) :
    ∃ x m, Reads (.climb q lhs) b ts x m ∧ Reads (.climb p x) b m e r := by
  generalize hph : Phase.climb p lhs = ph at h
  induction h generalizing lhs with
  | stop h =>
    cases hph
    exact ⟨_, _, .stop (h.mono hpq), .stop h⟩
  | @operator _ b _ t op s _ _ _ _ ht hl hx he _ ih =>
    cases hph
    by_cases hq : q ≤ op.precedence
    · obtain ⟨x, m, hx', he'⟩ := ih rfl
      exact ⟨x, m, .operator ht hq hx hx', he'⟩
    · have hs : Stops q b (t :: s) := (stops_operator ht.1).2 ⟨op, ht.2, by omega⟩
      exact ⟨_, _, .stop hs, .operator ht hl hx he⟩
  | @factor _ b _ s _ _ _ _ hl hj hx he _ ih =>
    cases hph
    by_cases hq : q ≤ Op.mul.precedence
    · obtain ⟨x, m, hx', he'⟩ := ih rfl
      exact ⟨x, m, .factor hq hj hx hx', he'⟩
    · have hs : Stops q b s := by
        obtain ⟨t, s', rfl, ht⟩ := head_of_juxtaposes hj
        rw [stops_of_ne_operator (ne_operator_of_startsOperand ht)]
        exact fun h => hq h.1
      exact ⟨_, _, .stop hs, .factor hl hj hx he⟩
  | _ => cases hph

/-- Two stages of climbing are one. -/
theorem climb_append {lhs x : Expr} {m : List Token} (hpq : p ≤ q)
    (h : Reads (.climb q lhs) b ts x m) (h' : Reads (.climb p x) b m e r) :
    Reads (.climb p lhs) b ts e r := by
  generalize hph : Phase.climb q lhs = ph at h
  induction h generalizing lhs with
  | stop =>
    cases hph
    exact h'
  | operator ht hl hx _ _ ih =>
    cases hph
    exact .operator ht (Nat.le_trans hpq hl) hx (ih h' rfl)
  | factor hl hj hx _ _ ih =>
    cases hph
    exact .factor (Nat.le_trans hpq hl) hj hx (ih h' rfl)
  | _ => cases hph

/-- An expression whose operators bind more tightly may be followed by others. -/
theorem expr_append {x : Expr} {m : List Token} (hpq : p ≤ q) (h : Reads (.expr q) b ts x m)
    (h' : Reads (.climb p x) b m e r) : Reads (.expr p) b ts e r := by
  cases h with
  | minus ht hx he => exact .minus ht hx (he.climb_append hpq h')
  | plus ht hx he => exact .plus ht hx (he.climb_append hpq h')
  | unsigned hx he => exact .unsigned hx (he.climb_append hpq h')

/-- **Reading in stages.** An expression starts with one whose operators bind more tightly. -/
theorem expr_staged (hpq : p ≤ q) (h : Reads (.expr p) b ts e r) :
    ∃ x m, Reads (.expr q) b ts x m ∧ Reads (.climb p x) b m e r := by
  cases h with
  | minus ht hx he =>
    obtain ⟨x, m, hx', he'⟩ := he.climb_staged hpq
    exact ⟨x, m, .minus ht hx hx', he'⟩
  | plus ht hx he =>
    obtain ⟨x, m, hx', he'⟩ := he.climb_staged hpq
    exact ⟨x, m, .plus ht hx hx', he'⟩
  | unsigned hx he =>
    obtain ⟨x, m, hx', he'⟩ := he.climb_staged hpq
    exact ⟨x, m, .unsigned hx hx', he'⟩

end LatexCalc.Reads
