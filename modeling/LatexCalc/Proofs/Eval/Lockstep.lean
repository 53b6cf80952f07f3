import LatexCalc.Expr.Eval

/-!
# Two evaluations in lockstep

An expression is evaluated twice, under limits that differ in what they allow but not in the settings
of the numeric methods. `Lockstep` lists what a relation between the two computations has to respect;
it then holds of the evaluations of every expression (`Lockstep.eval`).

A reservation needs care, since it refuses a loop before any of its bodies is counted. What makes up
for it is that a loop counts as many bodies as it has announced: `Gains n x` tells that `x` counts at
least `n` bodies when it succeeds.
-/

namespace LatexCalc

namespace Calc

variable {α β : Type}

/-! ## What computations count -/

/-- A computation takes nothing back from the count, and adds at least `n` to it if it succeeds. -/
structure Gains (n : Nat) (x : Calc α) : Prop where
  ok : ∀ {k a k'}, x k = .ok a k' → k + n ≤ k'
  error : ∀ {k e k'}, x k = .error e k' → k ≤ k'

theorem bind_eq_ok {x : Calc α} {f : α → Calc β} {k k' : Nat} {b : β} :
    (x >>= f) k = .ok b k' ↔ ∃ a m, x k = .ok a m ∧ f a m = .ok b k' := by
  show (EStateM.bind x f) k = _ ↔ _
  unfold EStateM.bind
  cases x k <;> simp [and_assoc]

theorem bind_eq_error {x : Calc α} {f : α → Calc β} {k k' : Nat} {e : EvalError} :
    (x >>= f) k = .error e k' ↔
      x k = .error e k' ∨ ∃ a m, x k = .ok a m ∧ f a m = .error e k' := by
  show (EStateM.bind x f) k = _ ↔ _
  unfold EStateM.bind
  cases x k <;> simp [and_assoc]

theorem bind_of_ok {x : Calc α} {f : α → Calc β} {k m : Nat} {a : α} (h : x k = .ok a m) :
    (x >>= f) k = f a m := by
  show (EStateM.bind x f) k = _
  unfold EStateM.bind
  rw [h]

theorem bind_of_error {x : Calc α} {f : α → Calc β} {k m : Nat} {e : EvalError}
    (h : x k = .error e m) : (x >>= f) k = .error e m := by
  show (EStateM.bind x f) k = _
  unfold EStateM.bind
  rw [h]

namespace Gains

variable {n m : Nat} {x : Calc α}

theorem mono (h : Gains n x) (hm : m ≤ n) : Gains m x where
  ok hx := by
    have hok := h.ok hx
    omega
  error := h.error

theorem pure (a : α) : Gains 0 (pure a : Calc α) where
  ok hx := by
    cases hx
    exact Nat.le_refl _
  error hx := by cases hx

theorem throw (e : EvalError) : Gains n (throw e : Calc α) where
  ok hx := by cases hx
  error hx := by
    cases hx
    exact Nat.le_refl _

theorem bind {f : α → Calc β} (hx : Gains n x) (hf : ∀ a, Gains m (f a)) :
    Gains (n + m) (x >>= f) where
  ok h := by
    obtain ⟨a, k, hxk, hfk⟩ := bind_eq_ok.1 h
    have h₁ := hx.ok hxk
    have h₂ := (hf a).ok hfk
    omega
  error h := by
    rcases bind_eq_error.1 h with h | ⟨a, k, hxk, hfk⟩
    · exact hx.error h
    · have h₁ := hx.ok hxk
      have h₂ := (hf a).error hfk
      omega

/-- A step followed by one that counts nothing. -/
theorem bind_zero {f : α → Calc β} (hx : Gains n x) (hf : ∀ a, Gains 0 (f a)) : Gains n (x >>= f) :=
  hx.bind hf

/-- A loop counts what its steps count. -/
theorem foldFrom {step : Nat → β → Calc β} (h : ∀ i b, Gains n (step i b)) (i count : Nat) (b : β) :
    Gains (count * n) (foldFrom step i count b) := by
  induction count generalizing i b with
  | zero =>
    rw [Nat.zero_mul]
    exact .pure b
  | succ count ih =>
    rw [Nat.succ_mul, Nat.add_comm]
    exact (h i b).bind fun b => ih (i + 1) b

variable {f : Float → Calc Float}

/-- Simpson's rule counts as many samples as it announces. -/
theorem simpson (h : ∀ x, Gains 1 (f x)) (a b : Float) (steps : Nat) :
    Gains (announcedSamples steps) (simpson a b steps f) := by
  have hloop := foldFrom (n := 1)
    (fun i sum => (h (samplePoint a (sampleDistance a b steps) i)).bind_zero fun y =>
      Gains.pure (sum + sampleWeight steps i * y)) 0 (steps + 1) (0.0 : Float)
  have hle : announcedSamples steps ≤ (steps + 1) * 1 := by
    rw [Nat.mul_one]
    exact Nat.mod_le _ _
  exact (hloop.mono hle).bind_zero fun _ => .pure _

/-- A fold over a range counts as many bodies as the range is long. -/
theorem foldRange (h : ∀ x, Gains 1 (f x)) (a b identity : Float) (combine : Float → Float → Float) :
    Gains (rangeLength a b) (foldRange a b identity combine f) := by
  have hloop := foldFrom (n := 1)
    (fun k acc => (h (rangePoint a k)).bind_zero fun y => Gains.pure (combine acc y)) 0
    (rangeLength a b) identity
  rwa [Nat.mul_one] at hloop

end Gains

/-! ## Steps one after the other -/

/-- What a relation between computations respects for it to hold of sequences of steps. -/
structure Sequential (R : {α : Type} → Calc α → Calc α → Prop) : Prop where
  pure : ∀ {α : Type} (a : α), R (pure a) (pure a)
  bind : ∀ {α β : Type} {x x' : Calc α} {f f' : α → Calc β}, R x x' → (∀ a, R (f a) (f' a)) →
    R (x >>= f) (x' >>= f')

namespace Sequential

variable {R : {α : Type} → Calc α → Calc α → Prop} (hR : Sequential R)
include hR

theorem foldFrom {step step' : Nat → β → Calc β} (h : ∀ i b, R (step i b) (step' i b))
    (i count : Nat) (b : β) : R (foldFrom step i count b) (foldFrom step' i count b) := by
  induction count generalizing i b with
  | zero => exact hR.pure b
  | succ count ih => exact hR.bind (h i b) fun b => ih (i + 1) b

theorem mapM {f f' : α → Calc β} (h : ∀ a, R (f a) (f' a)) (xs : List α) :
    R (xs.mapM f) (xs.mapM f') := by
  induction xs with
  | nil =>
    rw [List.mapM_nil, List.mapM_nil]
    exact hR.pure []
  | cons a xs ih =>
    rw [List.mapM_cons, List.mapM_cons]
    exact hR.bind (h a) fun b => hR.bind ih fun bs => hR.pure (b :: bs)

variable {f f' : Float → Calc Float}

theorem simpson (h : ∀ x, R (f x) (f' x)) (a b : Float) (steps : Nat) :
    R (simpson a b steps f) (simpson a b steps f') :=
  hR.bind (hR.foldFrom (fun _ _ => hR.bind (h _) fun _ => hR.pure _) _ _ _) fun _ => hR.pure _

theorem foldRange (h : ∀ x, R (f x) (f' x)) (a b identity : Float)
    (combine : Float → Float → Float) :
    R (foldRange a b identity combine f) (foldRange a b identity combine f') :=
  hR.foldFrom (fun _ _ => hR.bind (h _) fun _ => hR.pure _) _ _ _

theorem centralDifference (h : ∀ x, R (f x) (f' x)) (point step : Float) :
    R (centralDifference point step f) (centralDifference point step f') :=
  hR.bind (h _) fun _ => hR.bind (h _) fun _ => hR.pure _

theorem constantSlope? (h : ∀ x, R (f x) (f' x)) (step : Float) :
    R (constantSlope? step f) (constantSlope? step f') :=
  hR.bind (hR.mapM (fun x => hR.centralDifference h x _) _) fun _ => hR.pure _

end Sequential

/-! ## Lockstep -/

/-- What a relation between computations under the limits `l` and under the limits `l'` respects. -/
structure Lockstep (l l' : Limits) (clock clock' : Clock)
    (R : {α : Type} → Calc α → Calc α → Prop) : Prop extends Sequential R where
  quadratureSteps : l.quadratureSteps = l'.quadratureSteps
  derivativeStep : l.derivativeStep = l'.derivativeStep
  gains : ∀ {α : Type} {x x' : Calc α}, R x x' → Gains 0 x'
  /-- Failures that are not those of the limits. -/
  throw : ∀ {α : Type} {e : EvalError}, (∀ n, e ≠ .iterationLimit n) → R (throw e : Calc α) (throw e)
  tick : R (tick l clock) (tick l' clock')
  /-- A reservation is respected in front of a computation that counts as much as is reserved. -/
  reserve : ∀ {α : Type} {n : Nat} {x x' : Calc α}, R x x' → Gains n x' →
    R (reserve l n >>= fun _ => x) (reserve l' n >>= fun _ => x')

namespace Lockstep

variable {l l' : Limits} {clock clock' : Clock} {R : {α : Type} → Calc α → Calc α → Prop}
  (hR : Lockstep l l' clock clock' R)
include hR

variable {f f' : Float → Calc Float}

theorem bound (which : BoundName) {x x' : Calc Float} (h : R x x') :
    R (Calc.bound which x) (Calc.bound which x') := by
  refine hR.bind h fun y => ?_
  split
  · exact hR.pure y
  · exact hR.throw nofun

theorem bodyAt (name : String) {body body' : Scope → Calc Float}
    (h : ∀ scope, R (body scope) (body' scope)) (scope : Scope) (x : Float) :
    R (Calc.bodyAt l clock name body scope x) (Calc.bodyAt l' clock' name body' scope x) :=
  hR.bind hR.tick fun _ => h _

variable {lower lower' upper upper' : Calc Float}

theorem integrate (name : String) (hl : R lower lower') (hu : R upper upper')
    (h : ∀ x, R (f x) (f' x)) (hg : ∀ x, Gains 1 (f' x)) :
    R (Calc.integrate l name lower upper f) (Calc.integrate l' name lower' upper' f') := by
  refine hR.bind (hR.bound _ hl) fun a => hR.bind (hR.bound _ hu) fun b => ?_
  rw [hR.quadratureSteps]
  refine hR.reserve (hR.simpson (fun x => hR.bind (h x) fun y => ?_) a b _)
    (Gains.simpson (fun x => (hg x).bind_zero fun y => ?_) a b _)
  · split
    · exact hR.pure y
    · exact hR.throw nofun
  · split
    · exact .pure y
    · exact .throw _

theorem iterate (identity : Float) (combine : Float → Float → Float) (hl : R lower lower')
    (hu : R upper upper') (h : ∀ x, R (f x) (f' x)) (hg : ∀ x, Gains 1 (f' x)) :
    R (Calc.iterate l lower upper identity combine f)
      (Calc.iterate l' lower' upper' identity combine f') := by
  refine hR.bind (hR.bound _ hl) fun a => hR.bind (hR.bound _ hu) fun b => ?_
  exact hR.reserve (hR.foldRange h a b identity combine) (Gains.foldRange hg a b identity combine)

theorem differentiateAt {point point' : Calc Float} (hp : R point point')
    (h : ∀ x, R (f x) (f' x)) :
    R (Calc.differentiateAt l point f) (Calc.differentiateAt l' point' f') := by
  refine hR.bind hp fun x => ?_
  rw [hR.derivativeStep]
  exact hR.centralDifference h x _

theorem differentiate (name : String) (h : ∀ x, R (f x) (f' x)) :
    R (Calc.differentiate l name f) (Calc.differentiate l' name f') := by
  unfold Calc.differentiate
  rw [hR.derivativeStep]
  refine hR.bind (hR.constantSlope? h _) fun slope => ?_
  cases slope with
  | none => exact hR.throw nofun
  | some slope => exact hR.pure slope

end Lockstep

/-! ## Steps of the count -/

theorem reserve_run (l : Limits) (count k : Nat) :
    reserve l count k =
      if l.maxIterations < min (k + count) maxCount then
        .error (.iterationLimit l.maxIterations) k
      else .ok () k := by
  show (if l.maxIterations < min (k + count) maxCount then
    (throw (.iterationLimit l.maxIterations) : Calc Unit) else Pure.pure ()) k = _
  split <;> rfl

/-- What is left to do for a body once it fits: it is counted, and the time is looked up. -/
theorem tick_run (l : Limits) (clock : Clock) (k : Nat) :
    tick l clock k =
      if l.maxIterations < min (k + 1) maxCount then
        .error (.iterationLimit l.maxIterations) k
      else match l.timeout with
        | none => .ok () (k + 1)
        | some limit =>
          if limit < clock (k + 1) then .error (.timeout limit) (k + 1) else .ok () (k + 1) := by
  unfold tick
  by_cases h : l.maxIterations < min (k + 1) maxCount
  · rw [bind_of_error (m := k) (e := .iterationLimit l.maxIterations) (by rw [reserve_run, if_pos h]),
      if_pos h]
  · rw [bind_of_ok (m := k) (a := ()) (by rw [reserve_run, if_neg h]), if_neg h]
    cases l.timeout with
    | none => rfl
    | some limit =>
      show (if limit < clock (k + 1) then (throw (.timeout limit) : Calc Unit) else Pure.pure ())
          (k + 1) =
        if limit < clock (k + 1) then .error (.timeout limit) (k + 1) else .ok () (k + 1)
      split <;> rfl

theorem gains_reserve (l : Limits) (n : Nat) : Gains 0 (reserve l n) := by
  constructor
  · intro k _ k' h
    rw [reserve_run] at h
    split at h <;> cases h
    exact Nat.le_refl _
  · intro k e k' h
    rw [reserve_run] at h
    split at h <;> cases h
    exact Nat.le_refl _

/-- A body is counted before it is evaluated. -/
theorem gains_tick (l : Limits) (clock : Clock) : Gains 1 (tick l clock) := by
  constructor
  · intro k _ k' h
    rw [tick_run] at h
    split at h
    · cases h
    · split at h
      · cases h
        exact Nat.le_refl _
      · split at h <;> cases h
        exact Nat.le_refl _
  · intro k e k' h
    rw [tick_run] at h
    split at h
    · cases h
      exact Nat.le_refl _
    · split at h
      · cases h
      · split at h <;> cases h
        exact Nat.le_succ _

end Calc

open Calc

/-- **Evaluations keep in lockstep.** A relation that respects the steps of evaluation holds of the
evaluations of an expression under both limits. -/
theorem Calc.Lockstep.eval {l l' : Limits} {clock clock' : Clock}
    {R : {α : Type} → Calc α → Calc α → Prop} (hR : Lockstep l l' clock clock' R) (e : Expr)
    (scope : Scope) : R (e.eval l clock scope) (e.eval l' clock' scope) := by
  have hbody (name : String) (f : Expr) (ih : ∀ s, R (f.eval l clock s) (f.eval l' clock' s))
      (s : Scope) (x : Float) : Gains 1 (Calc.bodyAt l' clock' name (f.eval l' clock') s x) :=
    (gains_tick l' clock').bind_zero fun _ => hR.gains (ih _)
  induction e generalizing scope with
  | number x => exact hR.pure x
  | ident name =>
    unfold Expr.eval
    split
    · exact hR.pure _
    · exact hR.throw nofun
  | binary op a b iha ihb =>
    exact hR.bind (iha scope) fun _ => hR.bind (ihb scope) fun _ => hR.pure _
  | call name a ih =>
    refine hR.bind (ih scope) fun x => ?_
    split
    · exact hR.pure _
    · exact hR.throw nofun
  | fraction a b iha ihb =>
    exact hR.bind (iha scope) fun _ => hR.bind (ihb scope) fun _ => hR.pure _
  | sqrt a ih => exact hR.bind (ih scope) fun _ => hR.pure _
  | integral name a b f iha ihb ihf =>
    exact hR.integrate name (iha scope) (ihb scope) (hR.bodyAt name ihf scope) (hbody name f ihf scope)
  | sum name a b f iha ihb ihf | product name a b f iha ihb ihf =>
    exact hR.iterate _ _ (iha scope) (ihb scope) (hR.bodyAt name ihf scope) (hbody name f ihf scope)
  | derivative name f ihf => exact hR.differentiate name (hR.bodyAt name ihf scope)
  | derivativeAt name p f ihp ihf =>
    exact hR.differentiateAt (ihp scope) (hR.bodyAt name ihf scope)

/-- Evaluation takes nothing back from the count. -/
theorem gains_eval (l : Limits) (clock : Clock) (e : Expr) (scope : Scope) :
    Gains 0 (e.eval l clock scope) := by
  have hR : Lockstep l l clock clock fun _ x' => Gains 0 x' := {
    quadratureSteps := rfl
    derivativeStep := rfl
    gains := id
    pure := Gains.pure
    throw := fun _ => .throw _
    bind := Gains.bind_zero
    tick := (gains_tick l clock).mono (Nat.zero_le _)
    reserve := fun hx _ => (gains_reserve l _).bind_zero fun _ => hx }
  exact hR.eval e scope

/-- Without a limit on time, evaluation does not depend on the clock. -/
theorem eval_clock {l : Limits} (ht : l.timeout = none) (clock clock' : Clock) (e : Expr)
    (scope : Scope) : e.eval l clock scope = e.eval l clock' scope := by
  have htick : tick l clock = tick l clock' := by
    funext k
    simp only [tick_run, ht]
  have hR : Lockstep l l clock clock' fun x x' => x = x' ∧ Gains 0 x' := {
    quadratureSteps := rfl
    derivativeStep := rfl
    gains := And.right
    pure := fun a => ⟨rfl, .pure a⟩
    throw := fun _ => ⟨rfl, .throw _⟩
    bind := fun hx hf => ⟨by rw [hx.1, funext fun a => (hf a).1],
      hx.2.bind_zero fun a => (hf a).2⟩
    tick := ⟨htick, (gains_tick l clock').mono (Nat.zero_le _)⟩
    reserve := fun hx _ => ⟨by rw [hx.1], (gains_reserve l _).bind_zero fun _ => hx.2⟩ }
  exact (hR.eval e scope).1

end LatexCalc
