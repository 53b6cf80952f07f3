import Mathlib.Tactic.FieldSimp
import LatexCalc.Expr.Eval
import LatexCalc.Proofs.Numeric.Exact

/-!
# Slopes in exact arithmetic

Without rounding, a central difference of a quadratic function is its slope, whatever the distance of the two
values is (`centralDifference_quadratic`). At the reference points the slopes are farthest from the first one
at the last of them, so the quadratic part alone decides whether they agree, and a derivative without a point
tells the functions whose slope is almost the same everywhere from the others (`derivative_quadratic`).
-/

namespace LatexCalc

open Arithmetic Exact

/-- A derivative without a point, by any numbers: the slope that is the same at all reference points, or a
failure that names the variable. -/
def slopeOrFailure {m : Type → Type} [Monad m] [MonadExcept EvalError m] {α : Type} [Arithmetic α]
    (name : String) (h : α) (f : α → m α) : m α := do
  match ← constantSlope? h f with
  | some slope => return slope
  | none => throw (.nonConstant name)

/-- Lines are evaluated with the one by doubles. -/
theorem Calc.differentiate_eq (l : Limits) (name : String) (f : Float → Calc Float) :
    Calc.differentiate l name f = slopeOrFailure name l.derivativeStep f := by
  unfold Calc.differentiate slopeOrFailure
  refine congrArg (constantSlope? l.derivativeStep f >>= ·) (funext fun slope => ?_)
  cases slope <;> rfl

/-! ## Agreement -/

theorem agreementTolerance_eq : (agreementTolerance : ℚ) = 1 / 10000 := by
  unfold agreementTolerance
  norm_num

theorem referencePoints_eq : (referencePoints : List ℚ) = [0, 1, -1, 1 / 2, 2] := by
  unfold referencePoints
  norm_num

theorem atLeastOne_eq (x : ℚ) : atLeastOne x = max 1 x := by
  have hone : (1.0 : ℚ) = 1 := by norm_num
  unfold atLeastOne
  rw [hone, max_comm, max_def]
  exact if_congr decide_eq_true_iff rfl rfl

/-- Samples agree if none is farther from the first one than the tolerance allows. -/
theorem samplesAgree_iff {first : ℚ} {rest : List ℚ} :
    samplesAgree (first :: rest) = true ↔
      ∀ s ∈ first :: rest, |s - first| ≤ agreementTolerance * max 1 |first| := by
  unfold samplesAgree
  rw [List.all_eq_true]
  refine forall₂_congr fun s _ => ?_
  rw [atLeastOne_eq]
  show (true && decide (|s - first| ≤ _)) = true ↔ _
  rw [Bool.true_and, decide_eq_true_iff]
  rfl

/-! ## Quadratic functions -/

section

variable {m : Type → Type} [Monad m] [LawfulMonad m] {a b c h : ℚ}

/-- **The central difference of a quadratic function** is its slope. -/
theorem centralDifference_quadratic (hh : h ≠ 0) (p : ℚ) :
    centralDifference p h (fun x => pure (a * x ^ 2 + b * x + c)) = (pure (2 * a * p + b) : m ℚ) := by
  have htwo : (2.0 : ℚ) = 2 := by norm_num
  unfold centralDifference
  rw [pure_bind, pure_bind, htwo]
  congr 1
  field_simp
  ring

/-- The slopes of a quadratic function at the reference points. -/
def referenceSlopes (a b : ℚ) : List ℚ :=
  [b, 2 * a + b, -2 * a + b, a + b, 4 * a + b]

theorem constantSlope?_quadratic (hh : h ≠ 0) :
    constantSlope? h (fun x => pure (a * x ^ 2 + b * x + c)) =
      (pure (if samplesAgree (referenceSlopes a b) then some b else none) : m (Option ℚ)) := by
  have hslopes : referencePoints.map (fun p => 2 * a * p + b) = referenceSlopes a b := by
    rw [referencePoints_eq, referenceSlopes]
    simp only [List.map_cons, List.map_nil]
    ring_nf
  unfold constantSlope?
  simp only [centralDifference_quadratic hh]
  rw [List.mapM_pure, hslopes, pure_bind]
  rfl

/-- The last reference point decides. -/
theorem samplesAgree_referenceSlopes :
    samplesAgree (referenceSlopes a b) = true ↔ |4 * a| ≤ agreementTolerance * max 1 |b| := by
  obtain ⟨tolerance, htolerance⟩ : ∃ t, t = agreementTolerance * max 1 |b| := ⟨_, rfl⟩
  have hnonneg : 0 ≤ tolerance := by
    rw [htolerance, agreementTolerance_eq]
    positivity
  have hfarthest : |4 * a| = 4 * |a| := by rw [abs_mul, abs_of_pos four_pos]
  have hmiddle : |2 * a| = 2 * |a| := by rw [abs_mul, abs_of_pos two_pos]
  have hopposite : |-2 * a| = 2 * |a| := by rw [neg_mul, abs_neg, hmiddle]
  rw [referenceSlopes, samplesAgree_iff, ← htolerance]
  simp only [List.forall_mem_cons, add_sub_cancel_right, sub_self, abs_zero, hmiddle, hopposite, hfarthest]
  refine ⟨fun h => h.2.2.2.2.1, fun h => ?_⟩
  have hpos := abs_nonneg a
  exact ⟨hnonneg, by linarith, by linarith, by linarith, h, fun _ hs => absurd hs List.not_mem_nil⟩

end

/-- **Derivatives of quadratic functions.** At a point it is the exact slope. Without a point it is the linear
coefficient, if the quadratic one is small enough for the tolerance, and fails otherwise. So it is exact for
affine functions. -/
theorem derivative_quadratic {m : Type → Type} [Monad m] [LawfulMonad m] [MonadExcept EvalError m]
    (a b c : ℚ) {h : ℚ} (hh : 0 < h) (name : String) :
    let f (x : ℚ) : m ℚ := pure (a * x ^ 2 + b * x + c)
    (∀ p, centralDifference p h f = pure (2 * a * p + b)) ∧
    (slopeOrFailure name h f =
      if |4 * a| ≤ agreementTolerance * max 1 |b| then pure b else throw (.nonConstant name)) ∧
    (a = 0 → slopeOrFailure name h f = pure b) ∧
    ∀ (l : Limits) (g : Float → Calc Float),
      Calc.differentiate l name g = slopeOrFailure name l.derivativeStep g := by
  intro f
  have hslope : slopeOrFailure name h f =
      if |4 * a| ≤ agreementTolerance * max 1 |b| then pure b else throw (.nonConstant name) := by
    unfold slopeOrFailure
    rw [constantSlope?_quadratic hh.ne', pure_bind]
    by_cases hagree : |4 * a| ≤ agreementTolerance * max 1 |b|
    · rw [if_pos (samplesAgree_referenceSlopes.2 hagree), if_pos hagree]
    · rw [if_neg (mt samplesAgree_referenceSlopes.1 hagree), if_neg hagree]
  refine ⟨centralDifference_quadratic hh.ne', hslope, ?_, fun l g => Calc.differentiate_eq l name g⟩
  rintro rfl
  rw [hslope, mul_zero, abs_zero, if_pos]
  rw [agreementTolerance_eq]
  positivity

/-- A parabola whose slope differs too much, and one whose slope hardly does. -/
theorem derivative_quadratic_parabolas :
    (0 : ℚ) < 1 / 2 ∧
      slopeOrFailure "x" (1 / 2 : ℚ) (fun x => pure (1 / 40000 * x ^ 2 + 5 * x + 1)) =
        (.ok 5 : Except EvalError ℚ) ∧
      slopeOrFailure "x" (1 / 2 : ℚ) (fun x => pure (1 * x ^ 2 + 0 * x + 0)) =
        (.error (.nonConstant "x") : Except EvalError ℚ) := by
  have hh : (0 : ℚ) < 1 / 2 := by norm_num
  have hflat := (derivative_quadratic (m := Except EvalError) (1 / 40000) 5 1 hh "x").2.1
  have hsteep := (derivative_quadratic (m := Except EvalError) 1 0 0 hh "x").2.1
  refine ⟨hh, hflat.trans (if_pos ?_), hsteep.trans (if_neg ?_)⟩ <;>
    norm_num [agreementTolerance_eq]

end LatexCalc
