import LatexCalc.Proofs.Eval.Renaming

/-!
# Literals for variables

To bind a variable to a number is to write the number for it (`eval_put`), and after that the variable
is not free any more (`Expr.freeVariables_put`). So a sum, a product, an integral or a derivative
evaluates copies of its body, each with a number in the place of its variable (`eval_literal`).
-/

namespace LatexCalc

open Calc

namespace Expr

/-- Writes the number `x` for the free occurrences of `v`. -/
def put (v : String) (x : Float) (e : Expr) : Expr :=
  e.subst (Function.update ident v (number x))

/-- To put in every variable for itself changes nothing. -/
@[simp] theorem subst_ident (e : Expr) : e.subst ident = e := by
  induction e <;> simp only [subst, Function.update_eq_self, *]

/-- What binds the variable keeps the number out. -/
theorem subst_update_self (v : String) (x : Float) (f : Expr) :
    f.subst (Function.update (Function.update ident v (number x)) v (ident v)) = f := by
  rw [Function.update_idem, Function.update_eq_self, subst_ident]

/-- What binds another variable lets the number through. -/
theorem subst_update_of_ne {v w : String} (hvw : w ≠ v) (x : Float) (f : Expr) :
    f.subst (Function.update (Function.update ident v (number x)) w (ident w)) = f.put v x := by
  rw [Function.update_comm hvw.symm, Function.update_eq_self, put]

/-- A variable that a number is written for is not free any more. -/
theorem freeVariables_put (e : Expr) (v : String) (x : Float) :
    (e.put v x).freeVariables = e.freeVariables.erase v := by
  have hbody {f : Expr} (w : String) (ih : (f.put v x).freeVariables = f.freeVariables.erase v) :
      (f.subst (Function.update (Function.update ident v (number x)) w (ident w))).freeVariables.erase
        w = (f.freeVariables.erase w).erase v := by
    by_cases hwv : w = v
    · subst hwv
      rw [subst_update_self, Finset.erase_idem]
    · rw [subst_update_of_ne hwv, ih, Finset.erase_right_comm]
  induction e with
  | number y => rfl
  | ident name =>
    by_cases h : name = v
    · simp [put, subst, h, freeVariables]
    · rw [put, subst, Function.update_of_ne h, Finset.erase_eq_of_notMem]
      simpa [freeVariables] using Ne.symm h
  | binary op a b iha ihb | fraction a b iha ihb =>
    rw [freeVariables, Finset.erase_union_distrib, ← iha, ← ihb]
    rfl
  | call name a ih | sqrt a ih => exact ih
  | integral w a b f iha ihb ihf | sum w a b f iha ihb ihf | product w a b f iha ihb ihf =>
    rw [freeVariables, Finset.erase_union_distrib, Finset.erase_union_distrib, ← iha, ← ihb,
      ← hbody w ihf]
    rfl
  | derivative w f ihf => exact hbody w ihf
  | derivativeAt w p f ihp ihf =>
    rw [freeVariables, Finset.erase_union_distrib, ← ihp, ← hbody w ihf]
    rfl

end Expr

variable {l : Limits} {clock : Clock}

/-- To write a number for a variable is to bind the variable to it. -/
theorem eval_put (e : Expr) (v : String) (x : Float) (s : Scope) :
    (e.put v x).eval l clock s = e.eval l clock (.bound v x s) := by
  refine eval_subst (fun w _ y hyw => ?_) fun y _ => ?_
  · by_cases hyv : y = v
    · simp [hyv, Expr.freeVariables]
    · simpa [hyv, Expr.freeVariables] using hyw.symm
  · by_cases hyv : y = v
    · simp [hyv, Expr.eval, Scope.lookup]
    · simp [hyv, Ne.symm hyv, Expr.eval, Scope.lookup]

/-- **Putting a literal in is binding.** An expression in a scope with `v` bound to `x` evaluates to what
it does without the binding, from every count, once the literal `x` is written for `v` wherever `v` is
free. What a sum, product, integral or derivative over `v` makes of its bodies it therefore makes of
copies of its body with literals for `v`, each counted before it is evaluated outside of any binding. -/
theorem eval_literal (e : Expr) (v : String) (l : Limits) (clock : Clock) (scope : Scope) :
    (∀ x, e.eval l clock (.bound v x scope) = (e.put v x).eval l clock scope) ∧
    ∀ B : Binder, (B.node v e).eval l clock scope =
      B.run l clock scope v fun x => tick l clock >>= fun _ => (e.put v x).eval l clock scope := by
  refine ⟨fun x => (eval_put e v x scope).symm, fun B => ?_⟩
  rw [B.eval_node]
  refine congrArg (fun bodies => B.run l clock scope v bodies) (funext fun x => ?_)
  unfold bodyAt
  rw [eval_put]

end LatexCalc
