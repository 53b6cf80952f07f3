import LatexCalc.Proofs.Eval.Lockstep
import LatexCalc.Proofs.Numeric.RangeLength

/-!
# Reserving the terms of a range

A sum or product reserves as many bodies as its range has terms before it evaluates the first one, and
a range that needs more than the limit leaves is refused (`eval_range`). Under the greatest limit none
is: counts stop there, and so do not exceed it (`exceeds_iff`).
-/

namespace LatexCalc

/-- **What is refused.** Of the counts below the greatest one, those that exceed the limit. -/
theorem exceeds_iff (L k : Nat) (a b : Float) :
    L < min (k + rangeLength a b) maxCount ↔ L < maxCount ∧ (L : ℕ∞) < k + termCount a b := by
  have hcast : L < k + rangeLength a b ↔ (L : ℕ∞) < k + min (termCount a b) maxCount := by
    rw [← rangeLength_eq]
    exact_mod_cast Iff.rfl
  rw [lt_min_iff, and_comm]
  refine and_congr_right fun hL => ?_
  rw [hcast]
  rcases le_total (termCount a b) maxCount with h | h
  · rw [min_eq_left h]
  · -- A range that is cut to the greatest count still exceeds a lower limit.
    have hL' : (L : ℕ∞) < maxCount := by exact_mod_cast hL
    rw [min_eq_right h]
    exact iff_of_true (hL'.trans_le le_add_self) (hL'.trans_le (h.trans le_add_self))

namespace Calc

variable {l : Limits} {start stop : Calc Float} {k j k' : Nat} {a b : Float}

theorem bound_run {which : BoundName} {value : Calc Float} (h : value k = .ok a k')
    (ha : a.isFinite = true) : bound which value k = .ok a k' := by
  rw [bound, bind_of_ok h, if_pos ha]
  rfl

/-- Between the bounds of a sum or product and its terms stands the reservation. -/
theorem iterate_run (hstart : start k = .ok a j) (hstop : stop j = .ok b k')
    (ha : a.isFinite = true) (hb : b.isFinite = true) (identity : Float)
    (combine : Float → Float → Float) (body : Float → Calc Float) :
    iterate l start stop identity combine body k =
      if l.maxIterations < min (k' + rangeLength a b) maxCount then
        .error (.iterationLimit l.maxIterations) k'
      else foldRange a b identity combine body k' := by
  rw [iterate, bind_of_ok (bound_run hstart ha), bind_of_ok (bound_run hstop hb)]
  split
  · next h => exact bind_of_error (by rw [reserve_run, if_pos h])
  · next h => exact bind_of_ok (by rw [reserve_run, if_neg h])

end Calc

/-- **A range that is longer than the budget is refused before its first term.** Let the bounds of a sum
or product be finite, and the count be `k'` after them. Under a limit below the greatest one, a range of
more terms than the limit leaves is refused, whatever the body is, and the count stays at `k'`. So is
every range whose last number is, in exact arithmetic, at least as far from the first one as what is
left, if that is at most `2 ^ 53`. All other ranges are folded: those that fit, and any under the
greatest limit.

The terms are counted from the rounded difference of the bounds (`termCount`). If more than `2 ^ 53` are
left, a range can have more numbers in exact arithmetic than terms are counted, and so more than a lower
limit leaves without being refused: from `-1` to `2 ^ 53` there are `2 ^ 53 + 2` numbers, of which
`2 ^ 53 + 1` are counted. -/
theorem eval_range {l : Limits} {clock : Clock} {scope : Scope} {start stop : Expr} {k j k' : Nat}
    {a b : Float} (hstart : start.eval l clock scope k = .ok a j)
    (hstop : stop.eval l clock scope j = .ok b k') (ha : a.isFinite = true)
    (hb : b.isFinite = true) (name : String) (body : Expr) :
    let sum := (Expr.sum name start stop body).eval l clock scope k
    let product := (Expr.product name start stop body).eval l clock scope k
    let term := Calc.bodyAt l clock name (body.eval l clock) scope
    let refused := EStateM.Result.error (EvalError.iterationLimit l.maxIterations) k'
    (l.maxIterations < maxCount →
      ((l.maxIterations : ℕ∞) < k' + termCount a b → sum = refused ∧ product = refused) ∧
      (∀ left ≤ 2 ^ 53, l.maxIterations ≤ k' + left → exactValue a + left ≤ exactValue b →
        sum = refused ∧ product = refused)) ∧
    (maxCount ≤ l.maxIterations ∨ k' + termCount a b ≤ l.maxIterations →
      sum = foldRange a b 0 (· + ·) term k' ∧ product = foldRange a b 1 (· * ·) term k') := by
  intro sum product term refused
  have hsum : sum = _ := Calc.iterate_run hstart hstop ha hb 0 (· + ·) term
  have hproduct : product = _ := Calc.iterate_run hstart hstop ha hb 1 (· * ·) term
  have hrefused (hL : l.maxIterations < maxCount)
      (h : (l.maxIterations : ℕ∞) < k' + termCount a b) : sum = refused ∧ product = refused := by
    have hexceeds := (exceeds_iff _ _ _ _).2 ⟨hL, h⟩
    rw [hsum, hproduct, if_pos hexceeds, if_pos hexceeds]
    exact ⟨rfl, rfl⟩
  refine ⟨fun hL => ⟨hrefused hL, fun left hleft hle h => hrefused hL ?_⟩, fun h => ?_⟩
  · have hterms := lt_termCount ha hb hleft h
    calc (l.maxIterations : ℕ∞) ≤ k' + left := by exact_mod_cast hle
      _ < k' + termCount a b := (ENat.add_lt_add_iff_left (ENat.natCast_ne_top k')).2 hterms
  · have hfits : ¬ l.maxIterations < min (k' + rangeLength a b) maxCount := by
      rw [exceeds_iff]
      rintro ⟨hL, hexceeds⟩
      rcases h with h | h
      · omega
      · exact absurd hexceeds (not_lt.2 h)
    rw [hsum, hproduct, if_neg hfits, if_neg hfits]
    exact ⟨rfl, rfl⟩

/- A sum over the `2 ^ 53 + 2` numbers from `-1` to `2 ^ 53` is begun under the limit of `2 ^ 53 + 1`. -/
example :
    let l : Limits := { maxIterations := 2 ^ 53 + 1, timeout := none }
    let start : Expr := .binary .sub (.number 0) (.number 1)
    let e : Expr := .sum "i" start (.number 9007199254740992) (.ident "y")
    rangeLength (0 - 1 : Float) 9007199254740992 = 2 ^ 53 + 1 ∧
      e.eval l .steady (.global .empty) 0 = .error (.undefinedVariable "y") 1 :=
  ⟨rfl, rfl⟩

/-- A sum of four terms under the limit of three. -/
theorem eval_range_four_terms :
    let l : Limits := { maxIterations := 3, timeout := none }
    let scope : Scope := .global .empty
    let value (e : Expr) := e.eval l .steady scope 0
    value (.number 1) = .ok 1 0 ∧ value (.number 4) = .ok 4 0 ∧
      (1 : Float).isFinite = true ∧ (4 : Float).isFinite = true ∧
      value (.sum "i" (.number 1) (.number 4) (.ident "y")) = .error (.iterationLimit 3) 0 := by
  intro l scope value
  have hfirst : exactValue 1 = ((2 ^ 52 : ℤ) : ℚ) * 2 ^ (-52 : ℤ) := rfl
  have hlast : exactValue 4 = ((2 ^ 52 : ℤ) : ℚ) * 2 ^ (-50 : ℤ) := rfl
  have hreach : exactValue 1 + (3 : ℕ) ≤ exactValue 4 := by
    rw [hfirst, hlast]
    norm_num
  have hstart : value (.number 1) = .ok 1 0 := rfl
  have hstop : value (.number 4) = .ok 4 0 := rfl
  have h := eval_range hstart hstop rfl rfl "i" (.ident "y")
  exact ⟨hstart, hstop, rfl, rfl, ((h.1 (by decide)).2 3 (by decide) (by decide) hreach).1⟩

/-- Under the greatest limit a range of more than `2 ^ 64` terms is begun. -/
theorem eval_range_greatest :
    let l : Limits := { maxIterations := maxCount, timeout := none }
    let e : Expr := .sum "i" (.number 0) (.number 18446744073709551616) (.ident "y")
    l.validate = .ok l ∧ (maxCount : ℕ∞) < termCount 0 18446744073709551616 ∧
      e.eval l .steady (.global .empty) 0 = .error (.undefinedVariable "y") 1 := by
  intro l e
  have hwhole : wholePart (18446744073709551616 - 0) =
      (⌊((2 ^ 52 : ℤ) : ℚ) * 2 ^ (12 : ℤ)⌋₊ : ℕ) := rfl
  have hfloor : ⌊((2 ^ 52 : ℤ) : ℚ) * 2 ^ (12 : ℤ)⌋₊ = 2 ^ 64 := by
    have hvalue : ((2 ^ 52 : ℤ) : ℚ) * 2 ^ (12 : ℤ) = (2 ^ 64 : ℕ) := by norm_num
    rw [hvalue, Nat.floor_natCast]
  refine ⟨by rw [Limits.validate, if_neg (by decide), if_pos (by decide +kernel)], ?_, rfl⟩
  rw [termCount, if_neg (by decide), hwhole, hfloor]
  have hlt : maxCount < 2 ^ 64 + 1 := by decide
  exact_mod_cast hlt

end LatexCalc
