import Mathlib.Data.Finset.Lattice.Lemmas
import LatexCalc.Proofs.Eval.Lockstep
import LatexCalc.Proofs.Eval.Variables

/-!
# Failures that name a variable or a function

Evaluation fails for a name only where the expression uses the name and nothing gives it a meaning
(`dueTo_eval`). What is due to a part of an expression in its scope is due to the whole in the scope
outside, also where the part is a body, in which one more variable is bound (`DueTo.body`). So names with
a meaning do not fail, and an expression that only combines such names has a value (`exists_value_of_binds_none`).
-/

namespace LatexCalc

open Calc

/-! ## Functions -/

/-- The names of functions. -/
def functionNames : List String :=
  ["sin", "cos", "tan", "sec", "csc", "cot", "sqrt", "ln", "log", "exp"]

theorem knownFunction?_eq_none_iff {name : String} :
    knownFunction? name = none ↔ name ∉ functionNames := by
  unfold knownFunction? functionNames
  split <;> simp_all

/-- The names that an expression calls as functions. -/
def Expr.calledFunctions : Expr → Finset String
  | number _ | ident _ => ∅
  | binary _ l r => l.calledFunctions ∪ r.calledFunctions
  | call name a => insert name a.calledFunctions
  | fraction n d => n.calledFunctions ∪ d.calledFunctions
  | sqrt e => e.calledFunctions
  | integral _ a b f | sum _ a b f | product _ a b f =>
    a.calledFunctions ∪ b.calledFunctions ∪ f.calledFunctions
  | derivative _ f => f.calledFunctions
  | derivativeAt _ p f => p.calledFunctions ∪ f.calledFunctions

/-! ## What failures are due to -/

/-- An expression and a scope account for a failure: if it names a variable, the variable is free in the
expression and unknown to the scope, and if it names a function, the expression calls one of that name,
but there is none. -/
def EvalError.IsDueTo (e : Expr) (s : Scope) : EvalError → Prop
  | undefinedVariable x => x ∈ e.freeVariables ∧ s.lookup x = none
  | unknownFunction f => f ∈ e.calledFunctions ∧ f ∉ functionNames
  | _ => True

namespace Calc

variable {α β : Type} {l : Limits} {clock : Clock} {e f : Expr} {s : Scope}

/-- An expression and a scope account for every failure of a computation. -/
structure DueTo (e : Expr) (s : Scope) (x : Calc α) : Prop where
  error : ∀ {k cause k'}, x k = .error cause k' → cause.IsDueTo e s

namespace DueTo

theorem pure (a : α) : DueTo e s (pure a : Calc α) where
  error h := by cases h

theorem throw {cause : EvalError} (hcause : cause.IsDueTo e s) :
    DueTo e s (throw cause : Calc α) where
  error h := by
    cases h
    exact hcause

theorem bind {x : Calc α} {g : α → Calc β} (hx : DueTo e s x) (hg : ∀ a, DueTo e s (g a)) :
    DueTo e s (x >>= g) where
  error h := by
    rcases bind_eq_error.1 h with h | ⟨a, m, -, h⟩
    · exact hx.error h
    · exact (hg a).error h

theorem sequential (e : Expr) (s : Scope) : Sequential fun _ x' => DueTo e s x' :=
  ⟨pure, bind⟩

/-- What is due to a part of an expression is due to the whole. -/
theorem part {x : Calc α} (hx : DueTo f s x) (hfree : f.freeVariables ⊆ e.freeVariables)
    (hcalled : f.calledFunctions ⊆ e.calledFunctions) : DueTo e s x where
  error {_ cause _} h := by
    have hdue := hx.error h
    cases cause with
    | undefinedVariable x => exact ⟨hfree hdue.1, hdue.2⟩
    | unknownFunction g => exact ⟨hcalled hdue.1, hdue.2⟩
    | _ => trivial

theorem reserve (n : Nat) : DueTo e s (reserve l n) where
  error h := by
    rw [reserve_run] at h
    split at h <;> cases h
    trivial

theorem tick : DueTo e s (tick l clock) where
  error h := by
    rw [tick_run] at h
    split at h
    · cases h
      trivial
    · split at h
      · cases h
      · split at h <;> cases h
        trivial

/-- What is due to a body is due to the whole: a name that the scope of the body does not know is not the
one that is bound there. -/
theorem body {v : String} (hf : ∀ s, DueTo f s (f.eval l clock s))
    (hfree : f.freeVariables.erase v ⊆ e.freeVariables)
    (hcalled : f.calledFunctions ⊆ e.calledFunctions) (s : Scope) (x : Float) :
    DueTo e s (bodyAt l clock v (f.eval l clock) s x) := by
  refine tick.bind fun _ => ⟨fun {k cause k'} h => ?_⟩
  have hdue := (hf _).error h
  cases cause with
  | undefinedVariable y =>
    obtain ⟨hy, hlookup⟩ := hdue
    have hvy : v ≠ y := by
      rintro rfl
      simp [Scope.lookup] at hlookup
    exact ⟨hfree (Finset.mem_erase.2 ⟨hvy.symm, hy⟩), by simpa [Scope.lookup, hvy] using hlookup⟩
  | unknownFunction g => exact ⟨hcalled hdue.1, hdue.2⟩
  | _ => trivial

variable {a b : Calc Float} {g : Float → Calc Float}

theorem bound (which : BoundName) (h : DueTo e s a) : DueTo e s (bound which a) := by
  refine h.bind fun x => ?_
  split
  · exact .pure x
  · exact .throw trivial

theorem integrate (v : String) (ha : DueTo e s a) (hb : DueTo e s b) (hg : ∀ x, DueTo e s (g x)) :
    DueTo e s (integrate l v a b g) := by
  refine (ha.bound _).bind fun lower => (hb.bound _).bind fun upper => (DueTo.reserve _).bind fun _ =>
    (sequential e s).simpson (f := g) (fun x => (hg x).bind fun y => ?_) lower upper _
  split
  · exact .pure y
  · exact .throw trivial

theorem iterate (identity : Float) (combine : Float → Float → Float) (ha : DueTo e s a)
    (hb : DueTo e s b) (hg : ∀ x, DueTo e s (g x)) :
    DueTo e s (iterate l a b identity combine g) :=
  (ha.bound _).bind fun start => (hb.bound _).bind fun stop => (DueTo.reserve _).bind fun _ =>
    (sequential e s).foldRange (f := g) hg start stop identity combine

theorem differentiateAt (ha : DueTo e s a) (hg : ∀ x, DueTo e s (g x)) :
    DueTo e s (differentiateAt l a g) :=
  ha.bind fun x => (sequential e s).centralDifference (f := g) hg x _

theorem differentiate (v : String) (hg : ∀ x, DueTo e s (g x)) :
    DueTo e s (differentiate l v g) := by
  refine ((sequential e s).constantSlope? (f := g) hg _).bind fun slope => ?_
  cases slope with
  | none => exact .throw trivial
  | some slope => exact .pure slope

end DueTo

end Calc

/-- **Failures are due to the expression and its scope.** -/
theorem dueTo_eval (l : Limits) (clock : Clock) (e : Expr) (s : Scope) :
    DueTo e s (e.eval l clock s) := by
  have hfirst {A B C : Finset String} : A ⊆ A ∪ B ∪ C :=
    Finset.subset_union_left.trans Finset.subset_union_left
  have hsecond {A B C : Finset String} : B ⊆ A ∪ B ∪ C :=
    Finset.subset_union_right.trans Finset.subset_union_left
  have hlast {A B : Finset String} : B ⊆ A ∪ B := Finset.subset_union_right
  induction e generalizing s with
  | number x => exact .pure x
  | ident name =>
    unfold Expr.eval
    split
    · exact .pure _
    · next h => exact .throw ⟨Finset.mem_singleton_self name, h⟩
  | binary op a b iha ihb | fraction a b iha ihb =>
    exact ((iha s).part Finset.subset_union_left Finset.subset_union_left).bind fun _ =>
      ((ihb s).part hlast hlast).bind fun _ => .pure _
  | call name a ih =>
    refine ((ih s).part (e := .call name a) subset_rfl (Finset.subset_insert name _)).bind fun x => ?_
    split
    · exact .pure _
    · next h => exact .throw ⟨Finset.mem_insert_self name _, knownFunction?_eq_none_iff.1 h⟩
  | sqrt a ih => exact ((ih s).part (e := .sqrt a) subset_rfl subset_rfl).bind fun _ => .pure _
  | integral v a b f iha ihb ihf =>
    exact .integrate v ((iha s).part hfirst hfirst) ((ihb s).part hsecond hsecond)
      (.body ihf hlast hlast s)
  | sum v a b f iha ihb ihf | product v a b f iha ihb ihf =>
    exact .iterate _ _ ((iha s).part hfirst hfirst) ((ihb s).part hsecond hsecond)
      (.body ihf hlast hlast s)
  | derivative v f ihf => exact .differentiate v (.body (e := .derivative v f) ihf subset_rfl subset_rfl s)
  | derivativeAt v p f ihp ihf =>
    exact .differentiateAt ((ihp s).part Finset.subset_union_left Finset.subset_union_left)
      (.body ihf hlast hlast s)

/-- **Without loops there is a value**, if all names have a meaning, and no body is counted. -/
theorem exists_value_of_binds_none (l : Limits) (clock : Clock) {e : Expr} {s : Scope}
    (hvariables : ∀ x ∈ e.freeVariables, s.lookup x ≠ none)
    (hfunctions : ∀ f ∈ e.calledFunctions, f ∈ functionNames) (hnone : e.boundVariables = ∅)
    (k : Nat) : ∃ x, e.eval l clock s k = .ok x k := by
  have hbind {a : Calc Float} {g : Float → Calc Float} (ha : ∃ x, a k = .ok x k)
      (hg : ∀ x, ∃ y, g x k = .ok y k) : ∃ y, (a >>= g) k = .ok y k := by
    obtain ⟨x, hx⟩ := ha
    rw [bind_of_ok hx]
    exact hg x
  induction e with
  | number x => exact ⟨x, rfl⟩
  | ident name =>
    obtain ⟨x, hx⟩ := Option.ne_none_iff_exists'.1 (hvariables name (Finset.mem_singleton_self name))
    exact ⟨x, by simp only [Expr.eval, hx]; rfl⟩
  | binary op a b iha ihb | fraction a b iha ihb =>
    obtain ⟨ha, hb⟩ := Finset.union_eq_empty.1 hnone
    exact hbind (iha (fun x hx => hvariables x (Finset.mem_union_left _ hx))
        (fun f hf => hfunctions f (Finset.mem_union_left _ hf)) ha) fun x =>
      hbind (ihb (fun x hx => hvariables x (Finset.mem_union_right _ hx))
        (fun f hf => hfunctions f (Finset.mem_union_right _ hf)) hb) fun y => ⟨_, rfl⟩
  | call name a ih =>
    have hknown : knownFunction? name ≠ none := fun hnone =>
      knownFunction?_eq_none_iff.1 hnone (hfunctions name (Finset.mem_insert_self name _))
    obtain ⟨g, hg⟩ := Option.ne_none_iff_exists'.1 hknown
    refine hbind (ih hvariables (fun f hf => hfunctions f (Finset.mem_insert_of_mem hf)) hnone)
      fun x => ⟨g x, ?_⟩
    rw [hg]
    rfl
  | sqrt a ih => exact hbind (ih hvariables hfunctions hnone) fun x => ⟨x.sqrt, rfl⟩
  | integral v a b f | sum v a b f | product v a b f =>
    exact absurd (Finset.union_eq_empty.1 hnone).2 (Finset.insert_ne_empty v _)
  | derivative v f => exact absurd hnone (Finset.insert_ne_empty v _)
  | derivativeAt v p f =>
    exact absurd (Finset.union_eq_empty.1 hnone).2 (Finset.insert_ne_empty v _)

/-- **Failures of names are never spurious.** Evaluation fails for an undefined variable only if this is
free in the expression and the scope does not give it a value, and for an unknown function only if the
expression calls that name and no function has it. So if every free variable has a value and every name
that is called is the name of a function, what can fail are bounds, samples, derivatives without a point
and the limits; and if the expression binds no variable either, that is, if it has no sum, product,
integral or derivative, then it has a value, and the count stays as it is. -/
theorem eval_names (l : Limits) (clock : Clock) (e : Expr) (scope : Scope) (k : Nat) :
    let outcome := e.eval l clock scope k
    (∀ x k', outcome = .error (.undefinedVariable x) k' →
      x ∈ e.freeVariables ∧ scope.lookup x = none) ∧
    (∀ f k', outcome = .error (.unknownFunction f) k' →
      f ∈ e.calledFunctions ∧ f ∉ functionNames) ∧
    ((∀ x ∈ e.freeVariables, scope.lookup x ≠ none) →
      (∀ f ∈ e.calledFunctions, f ∈ functionNames) →
        (∀ cause k', outcome = .error cause k' →
          (∃ which x, cause = .invalidBound which x) ∨ (∃ v x y, cause = .nonFiniteSample v x y) ∨
            (∃ v, cause = .nonConstant v) ∨ (∃ limit, cause = .iterationLimit limit) ∨
            ∃ limit, cause = .timeout limit) ∧
        (e.boundVariables = ∅ → ∃ x, outcome = .ok x k)) := by
  intro outcome
  have hdue : DueTo e scope (e.eval l clock scope) := dueTo_eval l clock e scope
  refine ⟨fun x k' h => hdue.error h, fun f k' h => hdue.error h, fun hvariables hfunctions =>
    ⟨fun cause k' h => ?_, fun hnone => exists_value_of_binds_none l clock hvariables hfunctions hnone k⟩⟩
  have hcause := hdue.error h
  cases cause with
  | undefinedVariable x => exact absurd hcause.2 (hvariables x hcause.1)
  | unknownFunction f => exact absurd (hfunctions f hcause.1) hcause.2
  | _ => simp

/-- A variable below a sum, a function that is not there, and names that have a meaning. -/
theorem eval_names_meanings :
    let scope : Scope := .bound "i" 7 (.global .empty)
    let value (e : Expr) := e.eval { timeout := none } .steady scope 0
    let e₁ : Expr := .sum "j" (.number 1) (.ident "i") (.binary .mul (.ident "j") (.ident "y"))
    let e₂ : Expr := .call "foo" (.ident "i")
    let e₃ : Expr := .integral "x" (.number 0) (.ident "i") (.fraction (.number 1) (.ident "x"))
    let e₄ : Expr := .call "sin" (.ident "i")
    (value e₁ = .error (.undefinedVariable "y") 1 ∧
      "y" ∈ e₁.freeVariables ∧ scope.lookup "y" = none) ∧
    (value e₂ = .error (.unknownFunction "foo") 0 ∧
      "foo" ∈ e₂.calledFunctions ∧ "foo" ∉ functionNames) ∧
    ((∀ x ∈ e₃.freeVariables, scope.lookup x ≠ none) ∧
      (∀ f ∈ e₃.calledFunctions, f ∈ functionNames) ∧
      ∃ v x y, value e₃ = .error (.nonFiniteSample v x y) 1) ∧
    (∀ x ∈ e₄.freeVariables, scope.lookup x ≠ none) ∧
      (∀ f ∈ e₄.calledFunctions, f ∈ functionNames) ∧ e₄.boundVariables = ∅ ∧
      ∃ x, value e₄ = .ok x 0 := by
  intro scope value e₁ e₂ e₃ e₄
  have hi (x : String) (hx : x ∈ ({"i"} : Finset String)) : scope.lookup x ≠ none := by
    rw [Finset.mem_singleton.1 hx]
    decide
  have hfree₃ : e₃.freeVariables = {"i"} := by decide
  have hvariables₃ : ∀ x ∈ e₃.freeVariables, scope.lookup x ≠ none := hfree₃ ▸ hi
  have hfunctions₃ : ∀ f ∈ e₃.calledFunctions, f ∈ functionNames := by decide
  have hfunctions₄ : ∀ f ∈ e₄.calledFunctions, f ∈ functionNames := by decide
  have h (e : Expr) := eval_names { timeout := none } .steady e scope 0
  have h₁ : value e₁ = .error (.undefinedVariable "y") 1 := rfl
  have h₂ : value e₂ = .error (.unknownFunction "foo") 0 := rfl
  have h₃ : value e₃ = .error (.nonFiniteSample "x" 0 (1 / 0)) 1 := rfl
  refine ⟨⟨h₁, (h e₁).1 "y" 1 h₁⟩, ⟨h₂, (h e₂).2.1 "foo" 0 h₂⟩, ⟨hvariables₃, hfunctions₃, ?_⟩,
    hi, hfunctions₄, rfl, ((h e₄).2.2 hi hfunctions₄).2 rfl⟩
  rcases ((h e₃).2.2 hvariables₃ hfunctions₃).1 _ 1 h₃ with h | ⟨v, x, y, h⟩ | h | h | h
  · simp at h
  · exact ⟨v, x, y, h ▸ h₃⟩
  · simp at h
  · simp at h
  · simp at h

end LatexCalc
