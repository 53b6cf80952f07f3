import LatexCalc.Proofs.Numeric.Double
import LatexCalc.Proofs.Reading.Chain
import LatexCalc.Proofs.Reading.Terms
import LatexCalc.Token.Lexer

/-!
# Signs in chains

A sign takes all that binds at least as tightly as a product: not only its number but the rest of the
term behind it (`SignedNumber.reads`). In front of a term, or behind `*`, that makes no difference to
the value. Behind `/` it does: what should multiply the quotient multiplies the divisor, and the other
way round (`factors?_exchange`). So the value of a chain of signed numbers is the conventional one of the
chain in which `*` and `/` change places behind each signed divisor, up to the next `+` or `-`
(`parse_signed_chain`).
-/

namespace LatexCalc

/-! ## Signed numbers -/

/-- A number with the signs in front of it; `true` is a minus. -/
structure Signed where
  signs : List Bool
  value : Float
  deriving DecidableEq

/-- What signs make of an expression. -/
def signed : List Bool → Expr → Expr
  | [], e => e
  | true :: s, e => .binary .sub (.number 0) (signed s e)
  | false :: s, e => signed s e

/-- A number to which its signs apply. -/
def Signed.tree (a : Signed) : Expr :=
  signed a.signs (.number a.value)

/-- The tokens of a signed number. -/
inductive SignedNumber : List Token → Signed → Prop
  | number {t x} (ht : t.kind = .number) (hx : readFloat? t.text = some x) : SignedNumber [t] ⟨[], x⟩
  | minus {t ts s x} (ht : t.IsOp .sub) (h : SignedNumber ts ⟨s, x⟩) :
      SignedNumber (t :: ts) ⟨true :: s, x⟩
  | plus {t ts s x} (ht : t.IsOp .add) (h : SignedNumber ts ⟨s, x⟩) :
      SignedNumber (t :: ts) ⟨false :: s, x⟩

/-- The tokens of a chain behind its first number: signed numbers, each after `+`, `-`, `*` or `/`. -/
inductive SignedLinks : List Token → List (Op × Signed) → Prop
  | nil : SignedLinks [] []
  | cons {t op us a ts links} (ht : t.IsOp op) (hop : op ≠ .pow) (ha : SignedNumber us a)
      (h : SignedLinks ts links) : SignedLinks (t :: (us ++ ts)) ((op, a) :: links)

/-! ## Reading -/

/-- The term that starts with `e`, as it is read: signs take all of the term behind them. -/
def reach (e : Expr) : List (Op × Signed) → Expr
  | [] => e
  | (op, a) :: ms =>
    if a.signs = [] then reach (.binary op e (.number a.value)) ms
    else .binary op e (signed a.signs (reach (.number a.value) ms))

/-- The term that starts with a signed number, as it is read. -/
def Signed.reach (a : Signed) (ms : List (Op × Signed)) : Expr :=
  signed a.signs (LatexCalc.reach (.number a.value) ms)

variable {op : Op} {a : Signed} {us vs m r : List Token} {e e' : Expr} {q : ℚ}
  {links ms rest : List (Op × Signed)} {ts : List (Term Signed)}

/-- Signs take what is a product. -/
theorem SignedNumber.reads (h : SignedNumber us a)
    (he : Reads (.climb 2 (.number a.value)) false m e r) :
    Reads (.expr 2) false (us ++ m) (signed a.signs e) r := by
  induction h with
  | number ht hx => exact .unsigned (.number ht hx) he
  | minus ht _ ih => exact .minus ht (ih he) (.stop (ih he).stops)
  | plus ht _ ih => exact .plus ht (ih he) (.stop (ih he).stops)

/-- Signs take a product even where a factor is asked for. -/
theorem SignedNumber.reads_factor (h : SignedNumber us a) (hs : a.signs ≠ [])
    (he : Reads (.climb 2 (.number a.value)) false m e r) :
    Reads (.expr 3) false (us ++ m) (signed a.signs e) r := by
  cases h with
  | number => exact absurd rfl hs
  | minus ht h => exact .minus ht (h.reads he) (.stop ((h.reads he).stops.mono (by decide)))
  | plus ht h => exact .plus ht (h.reads he) (.stop ((h.reads he).stops.mono (by decide)))

namespace SignedLinks

theorem ne_pow (h : SignedLinks vs links) : ∀ y ∈ links, y.1 ≠ .pow := by
  induction h with
  | nil => exact fun y hy => absurd hy List.not_mem_nil
  | cons _ hop _ _ ih => exact List.forall_mem_cons.2 ⟨hop, ih⟩

/-- The tokens of a chain are those of its parts. -/
theorem of_append (h : SignedLinks vs (ms ++ rest)) :
    ∃ us ws, vs = us ++ ws ∧ SignedLinks us ms ∧ SignedLinks ws rest := by
  induction ms generalizing vs with
  | nil => exact ⟨[], vs, rfl, .nil, h⟩
  | cons y ms ih =>
    cases h with
    | cons ht hop ha h =>
      obtain ⟨us, ws, rfl, hus, hws⟩ := ih h
      exact ⟨_, ws, by simp, .cons ht hop ha hus, hws⟩

/-- A factor ends before the next link. -/
theorem stops_factor (h : SignedLinks us ms) (hr : Stops 3 false r) : Stops 3 false (us ++ r) := by
  cases h with
  | nil => exact hr
  | @cons t op _ _ _ _ ht hop =>
    refine (stops_operator ht.1).2 ⟨op, ht.2, ?_⟩
    cases op <;> first | decide | exact absurd rfl hop

/-- A term ends before the next one. -/
theorem stops_term (h : SignedLinks vs (ts.flatMap Term.links)) : Stops 2 false vs := by
  cases ts with
  | nil =>
    cases h
    trivial
  | cons t ts =>
    cases h with
    | cons ht =>
      refine (stops_operator ht.1).2 ⟨_, ht.2, ?_⟩
      rw [(Op.precedence_of_isAdditive t.additive).1]
      decide

/-- Climbing over a term. -/
theorem climb_factors (h : SignedLinks us ms) (hms : ∀ y ∈ ms, y.1.isMultiplicative = true)
    (hr : Stops 2 false r) : Reads (.climb 2 e) false (us ++ r) (reach e ms) r := by
  induction h generalizing e with
  | nil => exact .stop hr
  | @cons t op us a ts links ht hop ha h ih =>
    rw [List.forall_mem_cons] at hms
    obtain ⟨hprec, hright⟩ := Op.precedence_of_isMultiplicative hms.1
    rw [List.cons_append, List.append_assoc, reach]
    split
    · next hs =>
      have hstop := h.stops_factor (hr.mono (by decide))
      cases ha with
      | number hk hx =>
        exact .operator ht hprec.ge (hright ▸ .unsigned (.number hk hx) (.stop hstop)) (ih hms.2)
      | minus | plus => cases hs
    · next hs =>
      -- The signs take the rest of the term, and nothing is left to climb over.
      exact .operator ht hprec.ge (hright ▸ ha.reads_factor hs (ih hms.2)) (.stop hr)

/-- Climbing over a sum of terms. -/
theorem climb_terms (h : SignedLinks vs (ts.flatMap Term.links)) :
    Reads (.climb 0 e) false vs (sumFrom Signed.reach e ts) [] := by
  induction ts generalizing vs e with
  | nil =>
    cases h
    exact .stop trivial
  | cons t ts ih =>
    obtain ⟨us, ws, rfl, hus, hws⟩ := of_append h
    cases hus with
    | cons ht _ ha hus =>
      have hright := (Op.precedence_of_isAdditive t.additive).2
      have hterm := ha.reads (hus.climb_factors t.multiplicative hws.stops_term)
      rw [List.cons_append, List.append_assoc]
      exact .operator ht (Nat.zero_le _) (hright ▸ hterm) (ih hws)

end SignedLinks

/-- A chain of signed numbers is read as the sum of its terms, in which signs take what is behind
them. -/
theorem reads_signed_chain (ha : SignedNumber us a) (hms : ∀ y ∈ ms, y.1.isMultiplicative = true)
    (h : SignedLinks vs (ms ++ ts.flatMap Term.links)) :
    Reads (.expr 0) false (us ++ vs) (sumFrom Signed.reach (a.reach ms) ts) [] := by
  obtain ⟨vs, ws, rfl, hvs, hws⟩ := h.of_append
  have hterm := ha.reads (hvs.climb_factors hms hws.stops_term)
  exact hterm.expr_append (by decide) hws.climb_terms

/-! ## Exact values -/

/-- The value of an operator in exact arithmetic, in which nothing is divided by zero. Powers, which
need not be rational, are left out. -/
def Op.rational? : Op → ℚ → ℚ → Option ℚ
  | add, x, y => some (x + y)
  | sub, x, y => some (x - y)
  | mul, x, y => some (x * y)
  | div, x, y => if y = 0 then none else some (x / y)
  | pow, _, _ => none

/-- The value of a tree of numbers in exact arithmetic, if it has one. -/
def Expr.rational? : Expr → Option ℚ
  | .number x => if x.isFinite then some (exactValue x) else none
  | .binary op a b => do op.rational? (← a.rational?) (← b.rational?)
  | _ => none

/-- What a factor multiplies a term with. -/
def Op.factor? : Op → ℚ → Option ℚ
  | div, y => if y = 0 then none else some y⁻¹
  | _, y => some y

/-- A product that has a value if both of its factors have one. -/
def times (x y : Option ℚ) : Option ℚ :=
  Option.map₂ (· * ·) x y

theorem times_assoc (x y z : Option ℚ) : times (times x y) z = times x (times y z) :=
  Option.map₂_assoc mul_assoc

theorem times_eq_some_iff {x y : Option ℚ} {q : ℚ} :
    times x y = some q ↔ ∃ a b, x = some a ∧ y = some b ∧ a * b = q :=
  Option.map₂_eq_some_iff

@[simp] theorem times_some (x y : ℚ) : times (some x) (some y) = some (x * y) :=
  rfl

@[simp] theorem times_one (x : Option ℚ) : times x (some 1) = x := by
  cases x <;> simp [times]

theorem rational?_minus (e : Expr) :
    (Expr.binary .sub (.number 0) e).rational? = e.rational?.map fun x => -x := by
  have hzero : (Expr.number 0).rational? = some 0 := rfl
  show (do Op.sub.rational? (← (Expr.number 0).rational?) (← e.rational?)) = _
  rw [hzero]
  cases e.rational? with
  | none => rfl
  | some x => exact congrArg some (zero_sub x)

theorem rational?_factor (hop : op.isMultiplicative = true) (e e' : Expr) :
    (Expr.binary op e e').rational? = times e.rational? (e'.rational?.bind op.factor?) := by
  rw [Expr.rational?]
  cases he : e.rational? with
  | none => rfl
  | some x =>
    cases he' : e'.rational? with
    | none => rfl
    | some y =>
      cases op with
      | mul => rfl
      | div => by_cases hy : y = 0 <;> simp [Op.rational?, Op.factor?, times, hy, div_eq_mul_inv]
      | add | sub | pow => cases hop

/-- Signs apply to the first factor of a product as well as to all of it. -/
theorem rational?_signed (s : List Bool) {k : Option ℚ} (h : e.rational? = times e'.rational? k) :
    (signed s e).rational? = times (signed s e').rational? k := by
  induction s with
  | nil => exact h
  | cons minus s ih =>
    cases minus with
    | false => exact ih
    | true =>
      rw [signed, signed, rational?_minus, rational?_minus, ih]
      cases (signed s e').rational? <;> cases k <;> simp [times]

/-- What further factors multiply a term with. -/
def factors? (ms : List (Op × Signed)) : Option ℚ :=
  ms.foldr (fun m k => times (m.2.tree.rational?.bind m.1.factor?) k) (some 1)

theorem rational?_productFrom (e : Expr) (hms : ∀ m ∈ ms, m.1.isMultiplicative = true) :
    (productFrom Signed.tree e ms).rational? = times e.rational? (factors? ms) := by
  induction ms generalizing e with
  | nil => exact (times_one _).symm
  | cons m ms ih =>
    rw [List.forall_mem_cons] at hms
    rw [productFrom, List.foldl_cons, ← productFrom, ih _ hms.2, rational?_factor hms.1, times_assoc]
    rfl

/-- A divisor with a sign. -/
def IsSignedDivisor (y : Op × Signed) : Prop :=
  y.1 = .div ∧ y.2.signs ≠ []

instance (y : Op × Signed) : Decidable (IsSignedDivisor y) :=
  inferInstanceAs (Decidable (_ ∧ _))

/-- What further factors multiply a term with as they are read: a signed divisor is the product of all
that is behind it. -/
def reached? : List (Op × Signed) → Option ℚ
  | [] => some 1
  | m :: ms =>
    if IsSignedDivisor m then (times m.2.tree.rational? (reached? ms)).bind m.1.factor?
    else times (m.2.tree.rational?.bind m.1.factor?) (reached? ms)

theorem rational?_reach (e : Expr) (hms : ∀ m ∈ ms, m.1.isMultiplicative = true) :
    (reach e ms).rational? = times e.rational? (reached? ms) := by
  induction ms generalizing e with
  | nil => exact (times_one _).symm
  | cons m ms ih =>
    obtain ⟨op, a⟩ := m
    rw [List.forall_mem_cons] at hms
    have hsigned : (signed a.signs (reach (.number a.value) ms)).rational? =
        times a.tree.rational? (reached? ms) := rational?_signed a.signs (ih _ hms.2)
    rw [reach, reached?]
    by_cases hs : a.signs = []
    · rw [if_pos hs, if_neg (fun h => h.2 hs), ih _ hms.2, rational?_factor hms.1, times_assoc,
        Signed.tree, hs, signed]
    · rw [if_neg hs, rational?_factor hms.1, hsigned]
      by_cases hop : op = .div
      · rw [if_pos ⟨hop, hs⟩]
      · obtain rfl : op = .mul := by cases op <;> first | rfl | exact absurd rfl hop | cases hms.1
        rw [if_neg (fun h => hop h.1)]
        cases a.tree.rational? <;> cases reached? ms <;> rfl

/-! ## Signed divisors -/

/-- What `*` and `/` become when they change places. -/
def Op.inverse : Op → Op
  | mul => div
  | div => mul
  | op => op

theorem Op.isMultiplicative_inverse (hop : op.isMultiplicative = true) :
    op.inverse.isMultiplicative = true := by
  cases op <;> first | rfl | cases hop

theorem Op.factor?_inverse {x y : ℚ} (hop : op.isMultiplicative = true) (h : op.factor? x = some y)
    (hy : y ≠ 0) : op.inverse.factor? x = some y⁻¹ := by
  cases op with
  | mul =>
    cases h
    exact if_neg hy
  | div =>
    obtain ⟨-, rfl⟩ : ¬x = 0 ∧ x⁻¹ = y := by simpa [factor?] using h
    exact congrArg some (inv_inv x).symm
  | add | sub | pow => cases hop

/-- The chain in which `*` and `/` change places behind each signed divisor, up to the next `+` or `-`;
the flag tells whether they have changed places. -/
def exchange : Bool → List (Op × Signed) → List (Op × Signed)
  | _, [] => []
  | flag, (op, a) :: links =>
    if op.isAdditive then (op, a) :: exchange false links
    else (if flag then op.inverse else op, a) ::
      exchange (flag ^^ decide (IsSignedDivisor (op, a))) links

/-- Signed divisors are the last factors of their terms: neither `*` nor `/` directly follows one. -/
def SignedDivisorsLast (links : List (Op × Signed)) : Prop :=
  links.IsChain fun y z => IsSignedDivisor y → z.1.isAdditive = true

theorem reached?_eq_factors? (hms : ∀ m ∈ ms, m.1.isMultiplicative = true)
    (h : SignedDivisorsLast ms) : reached? ms = factors? ms := by
  induction ms with
  | nil => rfl
  | cons m ms ih =>
    rw [List.forall_mem_cons] at hms
    have htail := ih hms.2 (List.IsChain.tail h)
    rw [reached?]
    split
    · next hm =>
      cases ms with
      | nil => cases hx : m.2.tree.rational? <;> simp [reached?, factors?, times, hx]
      | cons z ms =>
        have hz := (List.isChain_cons_cons.1 h).1 hm
        rw [Op.not_isAdditive_of_isMultiplicative (hms.2 z List.mem_cons_self)] at hz
        cases hz
    · rw [htail]
      rfl

theorem exchange_cons (hop : op.isMultiplicative = true) (flag : Bool) (a : Signed)
    (ms : List (Op × Signed)) : exchange flag ((op, a) :: ms) =
      (if flag then op.inverse else op, a) ::
        exchange (flag ^^ decide (IsSignedDivisor (op, a))) ms := by
  rw [exchange, Op.not_isAdditive_of_isMultiplicative hop, if_neg Bool.false_ne_true]

theorem isMultiplicative_of_mem_exchange (hms : ∀ m ∈ ms, m.1.isMultiplicative = true)
    (flag : Bool) : ∀ m ∈ exchange flag ms, m.1.isMultiplicative = true := by
  induction ms generalizing flag with
  | nil => exact hms
  | cons m ms ih =>
    rw [List.forall_mem_cons] at hms
    rw [exchange_cons hms.1]
    refine List.forall_mem_cons.2 ⟨?_, ih hms.2 _⟩
    cases flag with
    | false => exact hms.1
    | true => exact Op.isMultiplicative_inverse hms.1

theorem factors?_cons (m : Op × Signed) (ms : List (Op × Signed)) :
    factors? (m :: ms) = times (m.2.tree.rational?.bind m.1.factor?) (factors? ms) :=
  rfl

/-- What a term is multiplied with as it is read, it is multiplied with conventionally behind the
exchange. -/
theorem factors?_exchange (hms : ∀ m ∈ ms, m.1.isMultiplicative = true) (h : reached? ms = some q) :
    factors? (exchange false ms) = some q ∧ (q ≠ 0 → factors? (exchange true ms) = some q⁻¹) := by
  induction ms generalizing q with
  | nil =>
    cases h
    exact ⟨rfl, fun _ => by simp [exchange, factors?]⟩
  | cons m ms ih =>
    obtain ⟨op, a⟩ := m
    rw [List.forall_mem_cons] at hms
    rw [exchange_cons hms.1, exchange_cons hms.1, factors?_cons, factors?_cons]
    rw [reached?] at h
    split at h
    · next hm =>
      -- The divisor is the product of all that follows, the inverse of which is needed of the rest.
      obtain ⟨rfl, hs⟩ := hm
      obtain ⟨y, hy, hq⟩ := Option.bind_eq_some_iff.1 h
      obtain ⟨x, k, hx, hk, rfl⟩ := times_eq_some_iff.1 hy
      obtain ⟨hne, rfl⟩ : ¬x * k = 0 ∧ (x * k)⁻¹ = q := by simpa [Op.factor?] using hq
      obtain ⟨hfalse, htrue⟩ := ih hms.2 hk
      have hx0 := left_ne_zero_of_mul hne
      have hk0 := right_ne_zero_of_mul hne
      simp [hx, hs, IsSignedDivisor, Op.factor?, Op.inverse, hx0, htrue hk0, hfalse, mul_comm]
    · next hm =>
      obtain ⟨y, k, hy, hk, rfl⟩ := times_eq_some_iff.1 h
      obtain ⟨hfalse, htrue⟩ := ih hms.2 hk
      rw [decide_eq_false hm, Bool.xor_false, Bool.xor_false, if_neg Bool.false_ne_true, if_pos rfl]
      refine ⟨by rw [hy, hfalse, times_some], fun hne => ?_⟩
      obtain ⟨x, hx, hxy⟩ := Option.bind_eq_some_iff.1 hy
      rw [hx, Option.bind_some, Op.factor?_inverse hms.1 hxy (left_ne_zero_of_mul hne),
        htrue (right_ne_zero_of_mul hne), times_some, mul_inv]

/-- The term with `*` and `/` exchanged behind signed divisors. -/
def Term.exchange (t : Term Signed) : Term Signed :=
  { t with
    factors := LatexCalc.exchange false t.factors
    multiplicative := isMultiplicative_of_mem_exchange t.multiplicative false }

/-- Each term is exchanged by itself. -/
theorem exchange_terms (hms : ∀ m ∈ ms, m.1.isMultiplicative = true) (flag : Bool) :
    exchange flag (ms ++ ts.flatMap Term.links) =
      exchange flag ms ++ (ts.map Term.exchange).flatMap Term.links := by
  induction ts generalizing ms flag with
  | nil => simp
  | cons t ts iht =>
    induction ms generalizing flag with
    | nil =>
      have hterm := iht t.multiplicative false
      simp only [List.nil_append, List.flatMap_cons, Term.links, List.cons_append, List.map_cons,
        exchange, t.additive, if_true, Term.exchange] at hterm ⊢
      rw [hterm]
    | cons m ms ihm =>
      rw [List.forall_mem_cons] at hms
      rw [List.cons_append, exchange_cons hms.1, exchange_cons hms.1, ihm hms.2, List.cons_append]

/-! ## Chains -/

/-- The chain in which each sign applies to its own number, read conventionally. -/
def conventionalSigned (a : Signed) (links : List (Op × Signed)) : Expr :=
  conventional a.tree (links.map fun y => (y.1, y.2.tree))

/-- Where an expression has a value, another one has the same. -/
def Refines (e e' : Expr) : Prop :=
  ∀ q, e.rational? = some q → e'.rational? = some q

theorem Refines.binary {l l' : Expr} (hl : Refines l l') (he : Refines e e') :
    Refines (.binary op l e) (.binary op l' e') := by
  intro q h
  obtain ⟨x, hx, h⟩ := Option.bind_eq_some_iff.1 h
  obtain ⟨y, hy, h⟩ := Option.bind_eq_some_iff.1 h
  rw [Expr.rational?, hl x hx, he y hy]
  exact h

theorem Refines.sumFrom {f g : Signed → List (Op × Signed) → Expr} (he : Refines e e')
    (h : ∀ t ∈ ts, Refines (f t.head t.factors) (g t.head t.factors)) :
    Refines (sumFrom f e ts) (sumFrom g e' ts) := by
  induction ts generalizing e e' with
  | nil => exact he
  | cons t ts ih =>
    rw [List.forall_mem_cons] at h
    exact ih (he.binary h.1) h.2

theorem Refines.of_eq (h : e.rational? = e'.rational?) : Refines e e' :=
  fun _ hq => h ▸ hq

theorem rational?_sumFrom {f g : Signed → List (Op × Signed) → Expr} (he : e.rational? = e'.rational?)
    (h : ∀ t ∈ ts, (f t.head t.factors).rational? = (g t.head t.factors).rational?) :
    (sumFrom f e ts).rational? = (sumFrom g e' ts).rational? :=
  Option.ext fun q => ⟨(Refines.of_eq he).sumFrom (fun t ht => .of_eq (h t ht)) q,
    (Refines.of_eq he.symm).sumFrom (fun t ht => .of_eq (h t ht).symm) q⟩

theorem Signed.rational?_reach (a : Signed) (hms : ∀ m ∈ ms, m.1.isMultiplicative = true) :
    (a.reach ms).rational? = times a.tree.rational? (reached? ms) :=
  rational?_signed a.signs (LatexCalc.rational?_reach _ hms)

/-- As it is read, a term has the value of the exchanged one. -/
theorem Signed.refines_exchange (a : Signed) (hms : ∀ m ∈ ms, m.1.isMultiplicative = true) :
    Refines (a.reach ms) (productFrom Signed.tree a.tree (exchange false ms)) := by
  intro q h
  rw [a.rational?_reach hms] at h
  obtain ⟨x, k, hx, hk, rfl⟩ := times_eq_some_iff.1 h
  rw [rational?_productFrom _ (isMultiplicative_of_mem_exchange hms false), hx,
    (factors?_exchange hms hk).1, times_some]

/-- Unless `*` or `/` follows a signed divisor, a term has the value that it has conventionally. -/
theorem Signed.rational?_reach_eq (a : Signed) (hms : ∀ m ∈ ms, m.1.isMultiplicative = true)
    (h : SignedDivisorsLast ms) :
    (a.reach ms).rational? = (productFrom Signed.tree a.tree ms).rational? := by
  rw [a.rational?_reach hms, rational?_productFrom _ hms, reached?_eq_factors? hms h]

theorem conventionalSigned_terms (a : Signed) (ts : List (Term Signed))
    (hms : ∀ m ∈ ms, m.1.isMultiplicative = true) :
    conventionalSigned a (ms ++ ts.flatMap Term.links) =
      sumFrom (fun a => productFrom Signed.tree a.tree) (productFrom Signed.tree a.tree ms) ts :=
  conventional_terms Signed.tree a.tree ts hms

theorem sumFrom_exchange (f : Signed → List (Op × Signed) → Expr) (e : Expr)
    (ts : List (Term Signed)) :
    sumFrom f e (ts.map Term.exchange) = sumFrom (fun a ms => f a (exchange false ms)) e ts := by
  rw [sumFrom, sumFrom, List.foldl_map]
  rfl

theorem SignedDivisorsLast.terms (h : SignedDivisorsLast (ms ++ ts.flatMap Term.links)) :
    SignedDivisorsLast ms ∧ ∀ t ∈ ts, SignedDivisorsLast t.factors := by
  obtain ⟨hms, hts, -⟩ := List.isChain_append.1 h
  refine ⟨hms, fun t ht => ?_⟩
  obtain ⟨before, after, rfl⟩ := List.append_of_mem ht
  exact hts.infix
    ⟨before.flatMap Term.links ++ [(t.op, t.head)], after.flatMap Term.links, by simp [Term.links]⟩

/-- **The value of a chain of signed numbers** that is parsed is that of its conventional reading after
`*` and `/` have changed places behind each signed divisor, up to the next `+` or `-`. If no `*` or `/`
directly follows a signed divisor, it is the value of the conventional reading itself. -/
theorem parse_signed_chain {line : String} (ha : SignedNumber us a) (h : SignedLinks vs links) :
    ∃ e, parse line (us ++ vs) = .ok e ∧
      (∀ q, e.rational? = some q → (conventionalSigned a (exchange false links)).rational? = some q) ∧
      (SignedDivisorsLast links → e.rational? = (conventionalSigned a links).rational?) := by
  obtain ⟨ms, ts, hms, rfl⟩ := exists_terms h.ne_pow
  refine ⟨_, parse_eq_ok_iff.2 (reads_signed_chain ha hms h), ?_, fun hlast => ?_⟩
  · rw [exchange_terms hms, conventionalSigned_terms a _ (isMultiplicative_of_mem_exchange hms false),
      sumFrom_exchange]
    exact (a.refines_exchange hms).sumFrom fun t _ => t.head.refines_exchange t.multiplicative
  · obtain ⟨hfirst, hterms⟩ := hlast.terms
    have hterm (t) (ht : t ∈ ts) := t.head.rational?_reach_eq t.multiplicative (hterms t ht)
    rw [conventionalSigned_terms a ts hms]
    exact rational?_sumFrom (a.rational?_reach_eq hms hfirst) hterm

/-- The line `8/+2+3*-4`. -/
theorem parse_signed_chain_two_terms :
    let line := "8/+2+3*-4"
    let us : List Token := [⟨.number, "8", 0⟩]
    let vs : List Token := [⟨.operator, "/", 1⟩, ⟨.operator, "+", 2⟩, ⟨.number, "2", 3⟩,
      ⟨.operator, "+", 4⟩, ⟨.number, "3", 5⟩, ⟨.operator, "*", 6⟩, ⟨.operator, "-", 7⟩,
      ⟨.number, "4", 8⟩]
    let links : List (Op × Signed) := [(.div, ⟨[false], 2⟩), (.add, ⟨[], 3⟩), (.mul, ⟨[true], 4⟩)]
    SignedNumber us ⟨[], 8⟩ ∧ SignedLinks vs links ∧ SignedDivisorsLast links ∧
      ∃ e, parse line (us ++ vs) = .ok e ∧ e.rational? = some (-8) := by
  intro line us vs links
  have ha : SignedNumber us ⟨[], 8⟩ := .number rfl rfl
  have hlinks : SignedLinks vs links :=
    .cons ⟨rfl, rfl⟩ (by decide) (.plus ⟨rfl, rfl⟩ (.number rfl rfl)) <|
      .cons ⟨rfl, rfl⟩ (by decide) (.number rfl rfl) <|
        .cons ⟨rfl, rfl⟩ (by decide) (.minus ⟨rfl, rfl⟩ (.number rfl rfl)) .nil
  have hlast : SignedDivisorsLast links := by
    simp [SignedDivisorsLast, links, IsSignedDivisor, Op.isAdditive]
  obtain ⟨e, he, -, hvalue⟩ : ∃ e, parse line (us ++ vs) = .ok e ∧ _ ∧ _ :=
    parse_signed_chain ha hlinks
  have htree : conventionalSigned ⟨[], 8⟩ links = .binary .add (.binary .div (.number 8) (.number 2))
      (.binary .mul (.number 3) (.binary .sub (.number 0) (.number 4))) := by
    simp [conventionalSigned, links, conventional, splitLast?, Op.isAdditive, Op.isMultiplicative,
      Signed.tree, signed]
  refine ⟨ha, hlinks, hlast, e, he, (hvalue hlast).trans ?_⟩
  rw [htree]
  decide +kernel

/-- In the line `8/+2*2` the sign takes the product behind it, so that the value is 2 and not 8. -/
theorem parse_signed_chain_divisor :
    let line := "8/+2*2"
    let tokens : List Token := [⟨.number, "8", 0⟩, ⟨.operator, "/", 1⟩, ⟨.operator, "+", 2⟩,
      ⟨.number, "2", 3⟩, ⟨.operator, "*", 4⟩, ⟨.number, "2", 5⟩]
    let e : Expr := .binary .div (.number 8) (.binary .mul (.number 2) (.number 2))
    tokenize line = .ok tokens ∧ parse line tokens = .ok e ∧ e.rational? = some 2 ∧
      (conventionalSigned ⟨[], 8⟩ [(.div, ⟨[false], 2⟩), (.mul, ⟨[], 2⟩)]).rational? = some 8 := by
  intro line tokens e
  have htree : conventionalSigned ⟨[], 8⟩ [(.div, ⟨[false], 2⟩), (.mul, ⟨[], 2⟩)] =
      .binary .mul (.binary .div (.number 8) (.number 2)) (.number 2) := by
    simp [conventionalSigned, conventional, splitLast?, Op.isAdditive, Op.isMultiplicative, Signed.tree,
      signed]
  refine ⟨by cbv, rfl, by decide +kernel, ?_⟩
  rw [htree]
  decide +kernel

end LatexCalc
