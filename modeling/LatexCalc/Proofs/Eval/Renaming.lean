import LatexCalc.Proofs.Eval.Lockstep
import LatexCalc.Proofs.Eval.Variables

/-!
# Renaming bound variables

A sum, product, integral or derivative anywhere in an expression may use another variable
(`eval_rename_bound`). Its name is seen from outside in one place: an integral or a derivative without a
point reports a failure of its own by it. `Binder.run` keeps the name that is reported apart from the
bodies, and `Context.eval` is the evaluation of an expression around such a node, so that what a node
reports can be changed without a change to what it computes.
-/

namespace LatexCalc

open Calc

/-! ## Nodes that bind -/

/-- The nodes with two bounds. -/
inductive Ranged
  | integral
  | sum
  | product

namespace Ranged

def node : Ranged → String → Expr → Expr → Expr → Expr
  | integral => .integral
  | sum => .sum
  | product => .product

/-- What a node makes of its bounds and its bodies. -/
def run (l : Limits) :
    Ranged → String → Calc Float → Calc Float → (Float → Calc Float) → Calc Float
  | integral, name, lower, upper, body => integrate l name lower upper body
  | sum, _, start, stop, body => iterate l start stop 0 (· + ·) body
  | product, _, start, stop, body => iterate l start stop 1 (· * ·) body

theorem eval_node (l : Limits) (clock : Clock) (κ : Ranged) (v : String) (a b f : Expr)
    (s : Scope) : (κ.node v a b f).eval l clock s = κ.run l v (a.eval l clock s) (b.eval l clock s)
      (bodyAt l clock v (f.eval l clock) s) := by
  cases κ <;> rfl

end Ranged

/-- A node that binds a variable, without the variable and the body. -/
inductive Binder
  | ranged (κ : Ranged) (lower upper : Expr)
  | derivative
  | derivativeAt (point : Expr)

namespace Binder

def node : Binder → String → Expr → Expr
  | ranged κ a b, v, f => κ.node v a b f
  | derivative, v, f => .derivative v f
  | derivativeAt p, v, f => .derivativeAt v p f

/-- What a node makes of its bodies. Its own failures report the variable as `name`. -/
def run (l : Limits) (clock : Clock) (s : Scope) (name : String) (body : Float → Calc Float) :
    Binder → Calc Float
  | ranged κ a b => κ.run l name (a.eval l clock s) (b.eval l clock s) body
  | derivative => differentiate l name body
  | derivativeAt p => differentiateAt l (p.eval l clock s) body

theorem eval_node (l : Limits) (clock : Clock) (B : Binder) (v : String) (f : Expr) (s : Scope) :
    (B.node v f).eval l clock s = B.run l clock s v (bodyAt l clock v (f.eval l clock) s) := by
  cases B with
  | ranged κ a b => exact κ.eval_node l clock v a b f s
  | derivative => rfl
  | derivativeAt p => rfl

end Binder

/-! ## Contexts -/

/-- A node with one of its parts left out. -/
inductive Frame
  | left (op : Op) (rhs : Expr)
  | right (op : Op) (lhs : Expr)
  | argument (name : String)
  | numerator (denominator : Expr)
  | denominator (numerator : Expr)
  | radicand
  | lower (κ : Ranged) (name : String) (upper body : Expr)
  | upper (κ : Ranged) (name : String) (lower body : Expr)
  | point (name : String) (function : Expr)
  | body (B : Binder) (name : String)

namespace Frame

/-- The node with an expression as the part that is left out. -/
def fill : Frame → Expr → Expr
  | left op r, e => .binary op e r
  | right op l, e => .binary op l e
  | argument name, e => .call name e
  | numerator d, e => .fraction e d
  | denominator n, e => .fraction n e
  | radicand, e => .sqrt e
  | lower κ v b f, e => κ.node v e b f
  | upper κ v a f, e => κ.node v a e f
  | point v f, e => .derivativeAt v e f
  | body B v, e => B.node v e

/-- What a node makes of the part that is left out. -/
def eval (l : Limits) (clock : Clock) (part : Scope → Calc Float) : Frame → Scope → Calc Float
  | left op r, s => do return op.apply (← part s) (← r.eval l clock s)
  | right op a, s => do return op.apply (← a.eval l clock s) (← part s)
  | argument name, s => do
    let x ← part s
    match knownFunction? name with
    | some f => return f x
    | none => throw (.unknownFunction name)
  | numerator d, s => do return Op.div.apply (← part s) (← d.eval l clock s)
  | denominator n, s => do return Op.div.apply (← n.eval l clock s) (← part s)
  | radicand, s => do return (← part s).sqrt
  | lower κ v b f, s => κ.run l v (part s) (b.eval l clock s) (bodyAt l clock v (f.eval l clock) s)
  | upper κ v a f, s => κ.run l v (a.eval l clock s) (part s) (bodyAt l clock v (f.eval l clock) s)
  | point v f, s => differentiateAt l (part s) (bodyAt l clock v (f.eval l clock) s)
  | body B v, s => B.run l clock s v (bodyAt l clock v part s)

theorem eval_fill (l : Limits) (clock : Clock) (F : Frame) (e : Expr) :
    (F.fill e).eval l clock = F.eval l clock (e.eval l clock) := by
  funext s
  cases F with
  | lower κ v b f => exact κ.eval_node l clock v e b f s
  | upper κ v a f => exact κ.eval_node l clock v a e f s
  | body B v => exact B.eval_node l clock v e s
  | _ => rfl

end Frame

/-- The way from an expression down to a part of it, the outermost node first. -/
abbrev Context := List Frame

namespace Context

/-- The expression with `e` as the part. -/
def fill (C : Context) (e : Expr) : Expr :=
  C.foldr Frame.fill e

/-- What an expression makes of the part. -/
def eval (l : Limits) (clock : Clock) (C : Context) (part : Scope → Calc Float) :
    Scope → Calc Float :=
  C.foldr (fun F x => F.eval l clock x) part

theorem eval_fill (l : Limits) (clock : Clock) (C : Context) (e : Expr) :
    (C.fill e).eval l clock = C.eval l clock (e.eval l clock) := by
  induction C with
  | nil => rfl
  | cons F C ih =>
    show (F.fill (fill C e)).eval l clock = F.eval l clock (eval l clock C (e.eval l clock))
    rw [F.eval_fill, ih]

end Context

/-! ## Contexts in lockstep -/

namespace Calc.Lockstep

variable {l l' : Limits} {clock clock' : Clock} {R : {α : Type} → Calc α → Calc α → Prop}
  (hR : Lockstep l l' clock clock' R)
include hR

theorem ranged (κ : Ranged) (v : String) {lower lower' upper upper' : Calc Float}
    {f f' : Float → Calc Float} (hl : R lower lower') (hu : R upper upper')
    (h : ∀ x, R (f x) (f' x)) (hg : ∀ x, Gains 1 (f' x)) :
    R (κ.run l v lower upper f) (κ.run l' v lower' upper' f') := by
  cases κ with
  | integral => exact hR.integrate v hl hu h hg
  | sum | product => exact hR.iterate _ _ hl hu h hg

variable {part part' : Scope → Calc Float}

theorem frame (h : ∀ s, R (part s) (part' s)) (F : Frame) (s : Scope) :
    R (F.eval l clock part s) (F.eval l' clock' part' s) := by
  have hbody (v : String) {body body' : Scope → Calc Float} (h : ∀ s, R (body s) (body' s))
      (x : Float) : Gains 1 (Calc.bodyAt l' clock' v body' s x) :=
    (gains_tick l' clock').bind_zero fun _ => hR.gains (h _)
  cases F with
  | left op r => exact hR.bind (h s) fun _ => hR.bind (hR.eval r s) fun _ => hR.pure _
  | right op a => exact hR.bind (hR.eval a s) fun _ => hR.bind (h s) fun _ => hR.pure _
  | argument name =>
    refine hR.bind (h s) fun x => ?_
    split
    · exact hR.pure _
    · exact hR.throw nofun
  | numerator d => exact hR.bind (h s) fun _ => hR.bind (hR.eval d s) fun _ => hR.pure _
  | denominator n => exact hR.bind (hR.eval n s) fun _ => hR.bind (h s) fun _ => hR.pure _
  | radicand => exact hR.bind (h s) fun _ => hR.pure _
  | lower κ v b f =>
    exact hR.ranged κ v (h s) (hR.eval b s) (hR.bodyAt v (hR.eval f) s) (hbody v (hR.eval f))
  | upper κ v a f =>
    exact hR.ranged κ v (hR.eval a s) (h s) (hR.bodyAt v (hR.eval f) s) (hbody v (hR.eval f))
  | point v f => exact hR.differentiateAt (h s) (hR.bodyAt v (hR.eval f) s)
  | body B v =>
    cases B with
    | ranged κ a b =>
      exact hR.ranged κ v (hR.eval a s) (hR.eval b s) (hR.bodyAt v h s) (hbody v h)
    | derivative => exact hR.differentiate v (hR.bodyAt v h s)
    | derivativeAt p => exact hR.differentiateAt (hR.eval p s) (hR.bodyAt v h s)

theorem context (h : ∀ s, R (part s) (part' s)) (C : Context) (s : Scope) :
    R (C.eval l clock part s) (C.eval l' clock' part' s) := by
  induction C generalizing s with
  | nil => exact h s
  | cons F C ih => exact hR.frame ih F s

end Calc.Lockstep

/-! ## What a node reports -/

/-- Outcomes that are the same, but that an integral or a derivative reports its variable as `u` in one
of them and as `u'` in the other. -/
inductive SameBut (u u' : String) {α : Type} :
    EStateM.Result EvalError Nat α → EStateM.Result EvalError Nat α → Prop
  | refl (r : EStateM.Result EvalError Nat α) : SameBut u u' r r
  | sample (x y : Float) (k : Nat) :
    SameBut u u' (.error (.nonFiniteSample u x y) k) (.error (.nonFiniteSample u' x y) k)
  | slope (k : Nat) : SameBut u u' (.error (.nonConstant u) k) (.error (.nonConstant u') k)

/-- Computations that differ in what an integral or a derivative reports. -/
structure ReportsAs (u u' : String) {α : Type} (x x' : Calc α) : Prop where
  gains : Gains 0 x'
  sameBut : ∀ k, SameBut u u' (x k) (x' k)

namespace ReportsAs

variable {u u' : String} {α β : Type} {x x' : Calc α}

theorem refl (h : Gains 0 x) : ReportsAs u u' x x :=
  ⟨h, fun k => .refl (x k)⟩

theorem bind {f f' : α → Calc β} (hx : ReportsAs u u' x x')
    (hf : ∀ a, ReportsAs u u' (f a) (f' a)) : ReportsAs u u' (x >>= f) (x' >>= f') where
  gains := hx.gains.bind_zero fun a => (hf a).gains
  sameBut k := by
    show SameBut u u' (EStateM.bind x f k) (EStateM.bind x' f' k)
    unfold EStateM.bind
    have h := hx.sameBut k
    revert h
    generalize x k = r, x' k = r'
    intro h
    cases h with
    | refl =>
      cases r with
      | ok a k' => exact (hf a).sameBut k'
      | error e k' => exact .refl _
    | sample y z k' => exact .sample y z k'
    | slope k' => exact .slope k'

theorem lockstep (l : Limits) (clock : Clock) (u u' : String) :
    Lockstep l l clock clock (ReportsAs u u') where
  quadratureSteps := rfl
  derivativeStep := rfl
  gains := gains
  pure a := .refl (.pure a)
  throw _ := .refl (.throw _)
  bind := bind
  tick := .refl ((gains_tick l clock).mono (Nat.zero_le _))
  reserve hx _ := bind (.refl (gains_reserve l _)) fun _ => hx

variable {l : Limits} {clock : Clock} {f : Float → Calc Float}

theorem integrate {lower upper : Calc Float} (hl : Gains 0 lower) (hu : Gains 0 upper)
    (hf : ∀ x, Gains 0 (f x)) :
    ReportsAs u u' (integrate l u lower upper f) (integrate l u' lower upper f) := by
  have hR := lockstep l .steady u u'
  refine hR.bind (hR.bound _ (.refl hl)) fun a => hR.bind (hR.bound _ (.refl hu)) fun b =>
    hR.bind (.refl (gains_reserve l _)) fun _ =>
      hR.simpson (fun x => hR.bind (.refl (hf x)) fun y => ?_) a b _
  split
  · exact hR.pure y
  · exact ⟨.throw _, fun k => .sample x y k⟩

theorem differentiate (hf : ∀ x, Gains 0 (f x)) :
    ReportsAs u u' (differentiate l u f) (differentiate l u' f) := by
  have hR := lockstep l .steady u u'
  refine hR.bind (hR.constantSlope? (fun y => .refl (hf y)) _) fun slope => ?_
  cases slope with
  | none => exact ⟨.throw _, fun k => .slope k⟩
  | some slope => exact hR.pure slope

/-- The name that a node reports is all that a change of it changes. -/
theorem binder (hf : ∀ x, Gains 1 (f x)) (B : Binder) (s : Scope) :
    ReportsAs u u' (B.run l clock s u f) (B.run l clock s u' f) := by
  have hR := lockstep l clock u u'
  have hrefl (x : Float) : ReportsAs u u' (f x) (f x) := .refl ((hf x).mono (Nat.zero_le _))
  cases B with
  | ranged κ a b =>
    cases κ with
    | integral =>
      exact integrate (gains_eval l clock a s) (gains_eval l clock b s)
        fun x => (hrefl x).gains
    | sum | product => exact hR.iterate _ _ (hR.eval a s) (hR.eval b s) hrefl hf
  | derivative => exact differentiate fun x => (hrefl x).gains
  | derivativeAt p => exact hR.differentiateAt (hR.eval p s) hrefl

end ReportsAs

/-- **Bound variables may be renamed.** Somewhere in an expression, let a node bind the variable `v` in
the body `f`, and let `w` not occur in `f`. Let `run u` be the evaluation of the expression in which this
node reports its own failures with the variable `u`. The expression evaluates to `run v`, and with `w`
for `v` in this node and its body it evaluates to `run w`. No two of these runs, from whatever count,
differ in anything else than the name in a failure: the value or cause and the count are the same. -/
theorem eval_rename_bound {f : Expr} {v w : String} (hw : w ∉ f.names) (C : Context) (B : Binder)
    (l : Limits) (clock : Clock) (scope : Scope) :
    let run (u : String) :=
      C.eval l clock (fun s => B.run l clock s u (bodyAt l clock v (f.eval l clock) s)) scope
    (C.fill (B.node v f)).eval l clock scope = run v ∧
    (C.fill (B.node w (f.rename v w))).eval l clock scope = run w ∧
    ∀ u u' k, SameBut u u' (run u k) (run u' k) := by
  intro run
  have hnode (u : String) (g : Expr) (s : Scope) :
      (B.node u g).eval l clock s = B.run l clock s u (bodyAt l clock u (g.eval l clock) s) :=
    B.eval_node l clock u g s
  have hbody (s : Scope) : bodyAt l clock w ((f.rename v w).eval l clock) s =
      bodyAt l clock v (f.eval l clock) s :=
    bodyAt_congr fun x => eval_rename hw x s
  refine ⟨?_, ?_, fun u u' k => ?_⟩
  · rw [C.eval_fill, funext (hnode v f)]
  · rw [C.eval_fill, funext (hnode w _)]
    simp only [hbody]
    rfl
  · have hgains (s : Scope) (x : Float) : Gains 1 (bodyAt l clock v (f.eval l clock) s x) :=
      (gains_tick l clock).bind_zero fun _ => gains_eval l clock f _
    exact ((ReportsAs.lockstep l clock u u').context
      (fun s => ReportsAs.binder (hgains s) B s) C scope).sameBut k

/-- An integral below a sum that uses the same name. -/
theorem eval_rename_bound_integral :
    let body : Expr := .fraction (.number 1) (.ident "x")
    let B : Binder := .ranged .integral (.number 0) (.ident "x")
    let C : Context := [.body (.ranged .sum (.number 1) (.number 2)) "x"]
    let value (e : Expr) := e.eval { timeout := none } .steady (.global .empty) 0
    let e := C.fill (B.node "x" body)
    let e' := C.fill (B.node "t" (body.rename "x" "t"))
    "t" ∉ body.names ∧
      e' = .sum "x" (.number 1) (.number 2)
        (.integral "t" (.number 0) (.ident "x") (.fraction (.number 1) (.ident "t"))) ∧
      value e = .error (.nonFiniteSample "x" 0 (1 / 0)) 2 ∧
      value e' = .error (.nonFiniteSample "t" 0 (1 / 0)) 2 ∧
      SameBut "x" "t" (value e) (value e') := by
  have hx : (Expr.sum "x" (.number 1) (.number 2) (.integral "x" (.number 0) (.ident "x")
      (.fraction (.number 1) (.ident "x")))).eval { timeout := none } .steady (.global .empty) 0 =
        .error (.nonFiniteSample "x" 0 (1 / 0)) 2 := rfl
  have ht : (Expr.sum "x" (.number 1) (.number 2) (.integral "t" (.number 0) (.ident "x")
      (.fraction (.number 1) (.ident "t")))).eval { timeout := none } .steady (.global .empty) 0 =
        .error (.nonFiniteSample "t" 0 (1 / 0)) 2 := rfl
  intro body B C value e e'
  have hfresh : "t" ∉ body.names := by decide
  obtain ⟨hrun, hrun', hsame⟩ :=
    eval_rename_bound (v := "x") hfresh C B { timeout := none } .steady (.global .empty)
  refine ⟨hfresh, rfl, hx, ht, ?_⟩
  have h := hsame "x" "t" 0
  rwa [← congrFun hrun 0, ← congrFun hrun' 0] at h

end LatexCalc
