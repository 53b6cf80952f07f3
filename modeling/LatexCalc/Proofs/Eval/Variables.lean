import Mathlib.Data.Finset.Basic
import Mathlib.Data.Finset.SDiff
import LatexCalc.Expr.Eval

/-!
# Variables

Which variables of an expression are free, and what evaluation makes of them. The value of an expression
depends on its free variables only (`eval_congr`), and putting expressions in for them is evaluating it
in a scope that gives them the values of those (`eval_subst`), if no variable is caught by a sum, a
product, an integral or a derivative.
-/

namespace LatexCalc

namespace Expr

/-- The names that are looked up outside of what binds them. -/
def freeVariables : Expr → Finset String
  | number _ => ∅
  | ident name => {name}
  | binary _ l r => l.freeVariables ∪ r.freeVariables
  | call _ a => a.freeVariables
  | fraction n d => n.freeVariables ∪ d.freeVariables
  | sqrt e => e.freeVariables
  | integral v a b f | sum v a b f | product v a b f =>
    a.freeVariables ∪ b.freeVariables ∪ f.freeVariables.erase v
  | derivative v f => f.freeVariables.erase v
  | derivativeAt v p f => p.freeVariables ∪ f.freeVariables.erase v

/-- The variables of the sums, products, integrals and derivatives in an expression. -/
def boundVariables : Expr → Finset String
  | number _ | ident _ => ∅
  | binary _ l r => l.boundVariables ∪ r.boundVariables
  | call _ a => a.boundVariables
  | fraction n d => n.boundVariables ∪ d.boundVariables
  | sqrt e => e.boundVariables
  | integral v a b f | sum v a b f | product v a b f =>
    a.boundVariables ∪ b.boundVariables ∪ insert v f.boundVariables
  | derivative v f => insert v f.boundVariables
  | derivativeAt v p f => p.boundVariables ∪ insert v f.boundVariables

/-- The names that occur in an expression as variables, free or bound. -/
def names (e : Expr) : Finset String :=
  e.freeVariables ∪ e.boundVariables

/-- Puts expressions in for the free variables. -/
def subst (σ : String → Expr) : Expr → Expr
  | number x => number x
  | ident name => σ name
  | binary op l r => binary op (l.subst σ) (r.subst σ)
  | call name a => call name (a.subst σ)
  | fraction n d => fraction (n.subst σ) (d.subst σ)
  | sqrt e => sqrt (e.subst σ)
  | integral v a b f => integral v (a.subst σ) (b.subst σ) (f.subst (Function.update σ v (ident v)))
  | sum v a b f => sum v (a.subst σ) (b.subst σ) (f.subst (Function.update σ v (ident v)))
  | product v a b f => product v (a.subst σ) (b.subst σ) (f.subst (Function.update σ v (ident v)))
  | derivative v f => derivative v (f.subst (Function.update σ v (ident v)))
  | derivativeAt v p f => derivativeAt v (p.subst σ) (f.subst (Function.update σ v (ident v)))

/-- Writes `w` for the free occurrences of `v`. -/
def rename (v w : String) (e : Expr) : Expr :=
  e.subst (Function.update ident v (ident w))

/-- No expression that is put in mentions a variable that is bound at its place. -/
def CatchesNone (e : Expr) (σ : String → Expr) : Prop :=
  ∀ y ∈ e.boundVariables, ∀ x ≠ y, y ∉ (σ x).freeVariables

theorem CatchesNone.mono {e f : Expr} {σ : String → Expr} (h : e.CatchesNone σ)
    (hf : f.boundVariables ⊆ e.boundVariables) : f.CatchesNone σ :=
  fun y hy => h y (hf hy)

/-- Below what binds `v`, the variable `v` stays. -/
theorem CatchesNone.update {e f : Expr} {σ : String → Expr} {v : String} (h : e.CatchesNone σ)
    (hf : insert v f.boundVariables ⊆ e.boundVariables) :
    f.CatchesNone (Function.update σ v (ident v)) := by
  intro y hy x hx
  by_cases hxv : x = v
  · subst hxv
    rw [Function.update_self]
    simpa [freeVariables] using hx.symm
  · rw [Function.update_of_ne hxv]
    exact h y (hf (Finset.mem_insert_of_mem hy)) x hx

end Expr

/-! ## What is not looked up does not matter -/

/-- Scopes that agree on some names. -/
def Scope.AgreeOn (names : Finset String) (s s' : Scope) : Prop :=
  ∀ x ∈ names, s.lookup x = s'.lookup x

namespace Scope.AgreeOn

variable {names names' : Finset String} {s s' : Scope}

theorem mono (h : AgreeOn names s s') (hsub : names' ⊆ names) : AgreeOn names' s s' :=
  fun x hx => h x (hsub hx)

theorem bound {v : String} (h : AgreeOn (names.erase v) s s') (x : Float) :
    AgreeOn names (.bound v x s) (.bound v x s') := by
  intro y hy
  by_cases hvy : v = y
  · simp [lookup, hvy]
  · simpa [lookup, hvy] using h y (Finset.mem_erase.2 ⟨Ne.symm hvy, hy⟩)

end Scope.AgreeOn

variable {l : Limits} {clock : Clock}

/-- Bodies that have the same values with their variables bound are the same. -/
theorem Calc.bodyAt_congr {v w : String} {f g : Scope → Calc Float} {s s' : Scope}
    (h : ∀ x, f (.bound v x s) = g (.bound w x s')) :
    bodyAt l clock v f s = bodyAt l clock w g s' := by
  funext x
  unfold bodyAt
  rw [h x]

/-- **Evaluation depends on free variables only.** -/
theorem eval_congr {e : Expr} {s s' : Scope} (h : s.AgreeOn e.freeVariables s') :
    e.eval l clock s = e.eval l clock s' := by
  induction e generalizing s s' with
  | number x => rfl
  | ident name =>
    unfold Expr.eval
    rw [h name (Finset.mem_singleton_self name)]
  | binary op a b iha ihb | fraction a b iha ihb =>
    unfold Expr.eval
    rw [iha (h.mono Finset.subset_union_left), ihb (h.mono Finset.subset_union_right)]
  | call name a ih | sqrt a ih =>
    unfold Expr.eval
    rw [ih h]
  | integral v a b f iha ihb ihf | sum v a b f iha ihb ihf | product v a b f iha ihb ihf =>
    have hab := h.mono Finset.subset_union_left
    have hf := h.mono Finset.subset_union_right
    unfold Expr.eval
    rw [iha (hab.mono Finset.subset_union_left), ihb (hab.mono Finset.subset_union_right),
      Calc.bodyAt_congr fun x => ihf (hf.bound x)]
  | derivative v f ihf =>
    unfold Expr.eval
    rw [Calc.bodyAt_congr fun x => ihf (h.bound x)]
  | derivativeAt v p f ihp ihf =>
    unfold Expr.eval
    rw [ihp (h.mono Finset.subset_union_left),
      Calc.bodyAt_congr fun x => ihf ((h.mono Finset.subset_union_right).bound x)]

/-- A binding of a name that is not free changes nothing. -/
theorem eval_bound_of_notMem {e : Expr} {v : String} (hv : v ∉ e.freeVariables) (x : Float)
    (s : Scope) : e.eval l clock (.bound v x s) = e.eval l clock s := by
  refine eval_congr fun y hy => ?_
  have hvy : v ≠ y := fun heq => hv (heq ▸ hy)
  simp [Scope.lookup, hvy]

/-! ## Putting in -/

/-- A substitution whose expressions have, in the scope `s'`, the values that some names have in the
scope `s`. A name without a value counts, too: it fails in the same way. -/
def Carries (l : Limits) (clock : Clock) (names : Finset String) (σ : String → Expr)
    (s s' : Scope) : Prop :=
  ∀ x ∈ names, (σ x).eval l clock s' = (Expr.ident x).eval l clock s

namespace Carries

variable {names names' : Finset String} {σ : String → Expr} {s s' : Scope}

theorem mono (h : Carries l clock names σ s s') (hsub : names' ⊆ names) :
    Carries l clock names' σ s s' :=
  fun x hx => h x (hsub hx)

theorem bound {v : String} (h : Carries l clock (names.erase v) σ s s')
    (hv : ∀ x ≠ v, v ∉ (σ x).freeVariables) (x : Float) :
    Carries l clock names (Function.update σ v (.ident v)) (.bound v x s) (.bound v x s') := by
  intro y hy
  by_cases hyv : y = v
  · subst hyv
    rw [Function.update_self]
    simp [Expr.eval, Scope.lookup]
  · have hstays : v ∉ (Expr.ident y).freeVariables := by
      simpa [Expr.freeVariables] using Ne.symm hyv
    rw [Function.update_of_ne hyv, eval_bound_of_notMem (hv y hyv), eval_bound_of_notMem hstays]
    exact h y (Finset.mem_erase.2 ⟨hyv, hy⟩)

end Carries

/-- **Putting in is binding.** -/
theorem eval_subst {e : Expr} {σ : String → Expr} {s s' : Scope} (hσ : e.CatchesNone σ)
    (h : Carries l clock e.freeVariables σ s s') :
    (e.subst σ).eval l clock s' = e.eval l clock s := by
  -- What an expression binds is all that may catch a variable on the way to the body.
  have hbody {v : String} {f : Expr} {σ : String → Expr} {s s' : Scope}
      (ih : ∀ {σ s s'}, f.CatchesNone σ → Carries l clock f.freeVariables σ s s' →
        (f.subst σ).eval l clock s' = f.eval l clock s)
      (hσ : (Expr.derivative v f).CatchesNone σ)
      (h : Carries l clock (f.freeVariables.erase v) σ s s') :
      Calc.bodyAt l clock v ((f.subst (Function.update σ v (.ident v))).eval l clock) s' =
        Calc.bodyAt l clock v (f.eval l clock) s :=
    Calc.bodyAt_congr fun x => ih (hσ.update subset_rfl)
      (h.bound (hσ v (Finset.mem_insert_self ..)) x)
  induction e generalizing σ s s' with
  | number x => rfl
  | ident name => exact h name (Finset.mem_singleton_self name)
  | binary op a b iha ihb | fraction a b iha ihb =>
    rw [Expr.subst, Expr.eval, Expr.eval,
      iha (hσ.mono Finset.subset_union_left) (h.mono Finset.subset_union_left),
      ihb (hσ.mono Finset.subset_union_right) (h.mono Finset.subset_union_right)]
  | call name a ih | sqrt a ih =>
    rw [Expr.subst, Expr.eval, Expr.eval,
      ih hσ h]
  | integral v a b f iha ihb ihf | sum v a b f iha ihb ihf | product v a b f iha ihb ihf =>
    have hab := h.mono Finset.subset_union_left
    have hσab := hσ.mono (f := .binary .add a b) Finset.subset_union_left
    rw [Expr.subst, Expr.eval, Expr.eval,
      iha (hσab.mono Finset.subset_union_left) (hab.mono Finset.subset_union_left),
      ihb (hσab.mono Finset.subset_union_right) (hab.mono Finset.subset_union_right),
      hbody ihf (hσ.mono Finset.subset_union_right) (h.mono Finset.subset_union_right)]
  | derivative v f ihf =>
    rw [Expr.subst, Expr.eval, Expr.eval, hbody ihf hσ h]
  | derivativeAt v p f ihp ihf =>
    rw [Expr.subst, Expr.eval, Expr.eval,
      ihp (hσ.mono Finset.subset_union_left) (h.mono Finset.subset_union_left),
      hbody ihf (hσ.mono Finset.subset_union_right) (h.mono Finset.subset_union_right)]

/-- A body with its variable renamed, if the new name does not occur in it. -/
theorem eval_rename {f : Expr} {v w : String} (hw : w ∉ f.names) (x : Float) (s : Scope) :
    (f.rename v w).eval l clock (.bound w x s) = f.eval l clock (.bound v x s) := by
  obtain ⟨hfree, hbound⟩ : w ∉ f.freeVariables ∧ w ∉ f.boundVariables := by
    simpa [Expr.names] using hw
  refine eval_subst (fun y hy z hzy => ?_) fun z hz => ?_
  · by_cases hzv : z = v
    · have hyw : y ≠ w := fun heq => hbound (heq ▸ hy)
      simpa [hzv, Expr.freeVariables] using hyw
    · simpa [hzv, Expr.freeVariables] using Ne.symm hzy
  · by_cases hzv : z = v
    · simp [hzv, Expr.eval, Scope.lookup]
    · have hwz : w ≠ z := fun heq => hfree (heq ▸ hz)
      simp [hzv, Ne.symm hzv, hwz, Expr.eval, Scope.lookup]

end LatexCalc
