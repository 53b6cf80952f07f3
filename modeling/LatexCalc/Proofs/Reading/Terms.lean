import LatexCalc.Proofs.Reading.Precedence
import Mathlib.Data.List.Induction

/-!
# The terms of a chain

Without powers a chain is a sum of terms, and each of them a product of factors (`exists_terms`). Its
conventional reading is that sum, taken from the left, of the products, taken from the left
(`conventional_terms`).
-/

namespace LatexCalc

/-! ## Where a chain is split -/

section

variable {p : Op → Bool} {x : Op × Expr} {links before after : List (Op × Expr)}

theorem splitLast?_eq_none (h : ∀ y ∈ links, p y.1 = false) : splitLast? p links = none := by
  induction links with
  | nil => rfl
  | cons y links ih =>
    rw [List.forall_mem_cons] at h
    rw [splitLast?, ih h.2]
    simp [h.1]

theorem splitLast?_append_cons (hx : p x.1 = true) (hafter : ∀ y ∈ after, p y.1 = false) :
    splitLast? p (before ++ x :: after) = some (before, x, after) := by
  induction before with
  | nil => simp [splitLast?, splitLast?_eq_none hafter, hx]
  | cons y before ih => rw [List.cons_append, splitLast?, ih]

theorem Op.not_isAdditive_of_isMultiplicative {op : Op} (h : op.isMultiplicative = true) :
    op.isAdditive = false := by
  cases op <;> first | rfl | cases h

theorem Op.isMultiplicative_of_ne_pow {op : Op} (hpow : op ≠ .pow) (h : op.isAdditive ≠ true) :
    op.isMultiplicative = true := by
  cases op <;> first | rfl | exact absurd rfl h | exact absurd rfl hpow

/-- The last term is what the others are added to. -/
theorem conventional_append_term (e : Expr) (links : List (Op × Expr)) {op : Op} {e' : Expr}
    (hop : op.isAdditive = true) (hafter : ∀ y ∈ after, y.1.isMultiplicative = true) :
    conventional e (links ++ (op, e') :: after) =
      .binary op (conventional e links) (conventional e' after) := by
  have hsplit : splitLast? Op.isAdditive (links ++ (op, e') :: after) = some (links, (op, e'), after) :=
    splitLast?_append_cons hop fun y hy => Op.not_isAdditive_of_isMultiplicative (hafter y hy)
  rw [conventional]
  split
  · next h =>
    cases hsplit.symm.trans h
    rfl
  · next h => cases hsplit.symm.trans h

/-- The last factor is what the product of the others is multiplied with or divided by. -/
theorem conventional_append_factor (e : Expr) {op : Op} {e' : Expr}
    (hlinks : ∀ y ∈ links, y.1.isMultiplicative = true) (hop : op.isMultiplicative = true) :
    conventional e (links ++ [(op, e')]) = .binary op (conventional e links) e' := by
  have hnone : splitLast? Op.isAdditive (links ++ [(op, e')]) = none := by
    refine splitLast?_eq_none fun y hy => Op.not_isAdditive_of_isMultiplicative ?_
    rcases List.mem_append.1 hy with hy | hy
    · exact hlinks y hy
    · exact (List.mem_singleton.1 hy) ▸ hop
  have hsplit : splitLast? Op.isMultiplicative (links ++ [(op, e')]) = some (links, (op, e'), []) :=
    splitLast?_append_cons hop fun y hy => absurd hy List.not_mem_nil
  rw [conventional]
  split
  · next h => cases hnone.symm.trans h
  · split
    · next h =>
      cases hsplit.symm.trans h
      rw [conventional_nil]
    · next h => cases hsplit.symm.trans h

end

/-! ## Terms -/

variable {α : Type}

/-- A term of a chain that is not the first one: a factor after `+` or `-`, and more factors. -/
structure Term (α : Type) where
  op : Op
  head : α
  factors : List (Op × α)
  additive : op.isAdditive = true
  multiplicative : ∀ m ∈ factors, m.1.isMultiplicative = true

/-- The part of the chain that a term is. -/
def Term.links (t : Term α) : List (Op × α) :=
  (t.op, t.head) :: t.factors

/-- A chain without powers is a sequence of terms. -/
theorem exists_terms {links : List (Op × α)} (h : ∀ y ∈ links, y.1 ≠ .pow) :
    ∃ (ms : List (Op × α)) (ts : List (Term α)),
      (∀ m ∈ ms, m.1.isMultiplicative = true) ∧ links = ms ++ ts.flatMap Term.links := by
  induction links with
  | nil => exact ⟨[], [], by simp, rfl⟩
  | cons y links ih =>
    rw [List.forall_mem_cons] at h
    obtain ⟨ms, ts, hms, rfl⟩ := ih h.2
    by_cases hy : y.1.isAdditive = true
    · exact ⟨[], ⟨y.1, y.2, ms, hy, hms⟩ :: ts, by simp, rfl⟩
    · exact ⟨y :: ms, ts, List.forall_mem_cons.2 ⟨Op.isMultiplicative_of_ne_pow h.1 hy, hms⟩, rfl⟩

/-- The product of `e` and further factors, taken from the left. -/
def productFrom (f : α → Expr) (e : Expr) (ms : List (Op × α)) : Expr :=
  ms.foldl (fun l m => .binary m.1 l (f m.2)) e

/-- The sum of `e` and further terms, taken from the left. -/
def sumFrom (f : α → List (Op × α) → Expr) (e : Expr) (ts : List (Term α)) : Expr :=
  ts.foldl (fun l t => .binary t.op l (f t.head t.factors)) e

theorem conventional_factors (f : α → Expr) (e : Expr) {ms : List (Op × α)}
    (hms : ∀ m ∈ ms, m.1.isMultiplicative = true) :
    conventional e (ms.map fun y => (y.1, f y.2)) = productFrom f e ms := by
  induction ms using List.reverseRecOn with
  | nil => exact conventional_nil e
  | append_singleton ms m ih =>
    have hinit : ∀ y ∈ ms.map (fun y => (y.1, f y.2)), y.1.isMultiplicative = true := by
      rw [List.forall_mem_map]
      exact fun y hy => hms y (List.mem_append_left _ hy)
    have hlast : m.1.isMultiplicative = true := hms m (by simp)
    rw [List.map_append, List.map_singleton, conventional_append_factor e hinit hlast,
      ih fun y hy => hms y (List.mem_append_left _ hy), productFrom, productFrom, List.foldl_append]
    rfl

/-- **The conventional reading** of a chain without powers is a sum of products, both taken from the
left. -/
theorem conventional_terms (f : α → Expr) (e : Expr) {ms : List (Op × α)} (ts : List (Term α))
    (hms : ∀ m ∈ ms, m.1.isMultiplicative = true) :
    conventional e ((ms ++ ts.flatMap Term.links).map fun y => (y.1, f y.2)) =
      sumFrom (fun a => productFrom f (f a)) (productFrom f e ms) ts := by
  induction ts using List.reverseRecOn with
  | nil =>
    rw [List.flatMap_nil, List.append_nil, conventional_factors f e hms]
    rfl
  | append_singleton ts t ih =>
    have hfactors : ∀ y ∈ t.factors.map (fun y => (y.1, f y.2)), y.1.isMultiplicative = true := by
      rw [List.forall_mem_map]
      exact t.multiplicative
    rw [List.flatMap_append, List.flatMap_singleton, ← List.append_assoc, List.map_append, Term.links,
      List.map_cons, conventional_append_term e _ t.additive hfactors, ih,
      conventional_factors f _ t.multiplicative, sumFrom, sumFrom, List.foldl_append]
    rfl

end LatexCalc
