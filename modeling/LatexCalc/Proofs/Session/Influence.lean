import LatexCalc.Proofs.Environment
import LatexCalc.Proofs.Eval.Variables
import LatexCalc.Proofs.Session.Line

/-!
# What variables have a bearing on a line

A line does the same in two environments that agree on the free variables of its expression
(`evaluateWith_congr`). So a variable of the session that a line uses as a bound variable only, or not
at all, makes no difference to it (`eval_influence`), and what the line does to the other variables
does not depend on it either.
-/

namespace LatexCalc

/-- The names that a statement looks up outside of what binds them. -/
def Statement.freeVariables : Statement → Finset String
  | expr e | assign _ e => e.freeVariables

variable {l : Limits} {clock : Clock} {line : String} {env env' : Environment}

theorem evalIn_congr {e : Expr} (h : ∀ x ∈ e.freeVariables, env.lookup x = env'.lookup x) :
    evalIn l clock e env = evalIn l clock e env' := by
  have hscope : (Scope.global env).AgreeOn e.freeVariables (.global env') := h
  unfold evalIn
  rw [eval_congr hscope]

/-- **A line depends on its free variables only.** It has the same outcome in environments that agree on
these, and names on which the environments agree, too, have the same values after it. -/
theorem evaluateWith_congr (l : Limits) (clock : Clock)
    (h : ∀ st, parseLine line = .ok st → ∀ x ∈ st.freeVariables, env.lookup x = env'.lookup x) :
    (evaluateWith l clock line env).1 = (evaluateWith l clock line env').1 ∧
      ∀ name, env.lookup name = env'.lookup name →
        (evaluateWith l clock line env).2.lookup name =
          (evaluateWith l clock line env').2.lookup name := by
  cases hv : l.validate with
  | error cause =>
    rw [evaluateWith_of_not_validate hv, evaluateWith_of_not_validate hv]
    exact ⟨rfl, fun _ => id⟩
  | ok l' =>
    rw [evaluateWith_of_validate hv, evaluateWith_of_validate hv]
    cases hst : parseLine line with
    | error cause => exact ⟨rfl, fun _ => id⟩
    | ok st =>
      cases st with
      | expr e =>
        have heval : evalIn l clock e env = evalIn l clock e env' := evalIn_congr (h _ hst)
        exact ⟨congrArg (·.mapError LineError.eval) heval, fun _ => id⟩
      | assign name' e =>
        simp only [evalIn_congr (h _ hst)]
        cases evalIn l clock e env' with
        | error cause => exact ⟨rfl, fun _ => id⟩
        | ok x =>
          refine ⟨rfl, fun name hname => ?_⟩
          show (env.define name' x).lookup name = (env'.define name' x).lookup name
          rw [Environment.lookup_define, Environment.lookup_define, hname]

/-- **Evaluation depends only on free variables.** Without a limit on time, an expression comes to the same
value or error and to the same count in any two scopes that agree on its free variables. So a variable of
the session that is not free in a line, be it bound there or not, has no influence on the line: neither
on its outcome nor on the other variables after it. -/
theorem eval_influence (ht : l.timeout = none) (clock clock' : Clock) :
    (∀ (e : Expr) (s s' : Scope), s.AgreeOn e.freeVariables s' →
      ∀ k, e.eval l clock s k = e.eval l clock' s' k) ∧
    ∀ (line v : String), (∀ st, parseLine line = .ok st → v ∉ st.freeVariables) →
      ∀ (x : Float) (env : Environment),
        (evaluateWith l clock line (env.define v x)).1 = (evaluateWith l clock' line env).1 ∧
        ∀ name ≠ v, (evaluateWith l clock line (env.define v x)).2.lookup name =
          (evaluateWith l clock' line env).2.lookup name := by
  refine ⟨fun e s s' h k => ?_, fun line v hv x env => ?_⟩
  · rw [eval_congr h, eval_clock ht clock clock']
  · have hlookup {name : String} (hname : name ≠ v) :
        (env.define v x).lookup name = env.lookup name := by
      rw [Environment.lookup_define, if_neg hname]
    have hagree : ∀ st, parseLine line = .ok st →
        ∀ y ∈ st.freeVariables, (env.define v x).lookup y = env.lookup y :=
      fun st hst y hy => hlookup fun hyv => hv st hst (hyv ▸ hy)
    obtain ⟨houtcome, hafter⟩ := evaluateWith_congr l clock hagree
    rw [evaluateWith_clock ht clock' clock]
    exact ⟨houtcome, fun name hname => hafter name (hlookup hname)⟩

/-- The variable of a sum, which the session knows, too. -/
theorem eval_influence_sum :
    let l : Limits := { timeout := none }
    let e : Expr := .sum "i" (.number 1) (.number 2) (.binary .mul (.ident "i") (.ident "y"))
    let s : Scope := .bound "i" 7 (.global .empty)
    let line := "\\sum\x7bi\x7d\x7b1\x7d\x7b2\x7d i"
    l.timeout = none ∧ s.AgreeOn e.freeVariables (.global .empty) ∧
      e.eval l .steady (.global .empty) 0 = .error (.undefinedVariable "y") 1 ∧
      e.eval l .steady s 0 = .error (.undefinedVariable "y") 1 ∧
      (∀ st, parseLine line = .ok st → "i" ∉ st.freeVariables) ∧
      (evaluateWith l .steady line (Environment.empty.define "i" 7)).1 =
        (evaluateWith l .steady line .empty).1 := by
  intro l e s line
  have hagree : s.AgreeOn e.freeVariables (.global .empty) := by
    intro x hx
    have hxi : "i" ≠ x := by
      rintro rfl
      exact absurd hx (by decide)
    simp [s, Scope.lookup, hxi]
  have hvalue : e.eval l .steady (.global .empty) 0 = .error (.undefinedVariable "y") 1 := rfl
  have hparse : parseLine line = .ok (.expr (.sum "i" (.number 1) (.number 2) (.ident "i"))) :=
    parseLine_eq_ok_iff.2 ⟨[⟨.function, "\\sum", 0⟩, ⟨.braceOpen, "\x7b", 4⟩, ⟨.identifier, "i", 5⟩,
      ⟨.braceClose, "\x7d", 6⟩, ⟨.braceOpen, "\x7b", 7⟩, ⟨.number, "1", 8⟩, ⟨.braceClose, "\x7d", 9⟩,
      ⟨.braceOpen, "\x7b", 10⟩, ⟨.number, "2", 11⟩, ⟨.braceClose, "\x7d", 12⟩,
      ⟨.identifier, "i", 14⟩], by cbv, rfl⟩
  have hline (st : Statement) (hst : parseLine line = .ok st) : "i" ∉ st.freeVariables := by
    cases hparse.symm.trans hst
    decide
  have h := eval_influence (l := l) rfl .steady .steady
  exact ⟨rfl, hagree, hvalue, (h.1 e _ _ hagree 0).trans hvalue, hline, (h.2 line "i" hline 7 .empty).1⟩

end LatexCalc
