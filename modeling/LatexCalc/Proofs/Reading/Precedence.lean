import LatexCalc.Proofs.Reading.Enclosed
import LatexCalc.Proofs.Reading.Run

/-!
# The conventional reading of a chain

A chain of operands, with operators or nothing between them, is usually read from the outside: it is
a sum or difference of what stands on both sides of its last `+` or `-`; without one, a product or
quotient at its last `*`, `/` or pair of neighbours; and without one of these a power at its first `^`
(`conventional`). Climbing goes from left to right and looks for no place to split at. It gives the
same tree (`parse_chain`).

What both have in common is `conventional_split`: to the right of the link at which a chain is split
all links bind tightly enough for its right operand, and to the left no right operand reaches as far
as that link.
-/

namespace LatexCalc

/-! ## Chains -/

/-- Tokens in brackets that are parsed as `e` by themselves. -/
def Grouped (line : String) (κ : Bracket) (ts : List Token) (e : Expr) : Prop :=
  ∃ o us c, ts = o :: (us ++ [c]) ∧ o.kind = κ.opening ∧ c.kind = κ.closing ∧ parse line us = .ok e

/-- An operand that ends by itself: a number, a name, a constant, a group, or a command with its
groups. Sums, products, integrals and derivatives are none of these. -/
inductive ClosedOperand (line : String) : List Token → Expr → Prop
  | number {t x} (ht : t.kind = .number) (hx : readFloat? t.text = some x) :
      ClosedOperand line [t] (.number x)
  | name {t} (ht : t.kind = .identifier) : ClosedOperand line [t] (.ident t.text)
  | constant {t x} (ht : t.kind = .function) (hx : constant? t.command = some x) :
      ClosedOperand line [t] (.number x)
  | group {κ ts e} (h : Grouped line κ ts e) : ClosedOperand line ts e
  | fraction {t ns ds n d} (ht : t.IsCommand "frac") (hn : Grouped line .brace ns n)
      (hd : Grouped line .brace ds d) (hv : derivativeVariable? (ns ++ ds) = none) :
      ClosedOperand line (t :: (ns ++ ds)) (.fraction n d)
  | sqrt {t ts e} (ht : t.IsCommand "sqrt") (h : Grouped line .brace ts e) :
      ClosedOperand line (t :: ts) (.sqrt e)
  | call {κ t ts e} (ht : t.kind = .function) (hn : t.command ∉ headedCommands)
      (h : Grouped line κ ts e) : ClosedOperand line (t :: ts) (.call t.command e)

/-- What follows the first operand of a chain: further operands, each after an operator or after
nothing, which stands for a product. -/
inductive Links (line : String) : List Token → List (Op × Expr) → Prop
  | nil : Links line [] []
  | operator {t op us e ts links} (ht : t.IsOp op) (he : ClosedOperand line us e)
      (h : Links line ts links) : Links line (t :: (us ++ ts)) ((op, e) :: links)
  | neighbour {us e ts links} (he : ClosedOperand line us e) (h : Links line ts links) :
      Links line (us ++ ts) ((.mul, e) :: links)

/-! ## The conventional reading -/

/-- Whether an operator makes sums or differences. -/
def Op.isAdditive (op : Op) : Bool :=
  op = add || op = sub

/-- Whether an operator makes products or quotients. -/
def Op.isMultiplicative (op : Op) : Bool :=
  op = mul || op = div

/-- The last link whose operator satisfies `p`, between the links before it and those after it. -/
def splitLast? (p : Op → Bool) :
    List (Op × Expr) → Option (List (Op × Expr) × (Op × Expr) × List (Op × Expr))
  | [] => none
  | x :: links =>
    match splitLast? p links with
    | some (before, y, after) => some (x :: before, y, after)
    | none => if p x.1 then some ([], x, links) else none

section

variable {p : Op → Bool} {x : Op × Expr} {links before after : List (Op × Expr)}

theorem forall_of_splitLast?_eq_none (h : splitLast? p links = none) :
    ∀ y ∈ links, p y.1 = false := by
  induction links with
  | nil => exact fun y hy => absurd hy List.not_mem_nil
  | cons x links ih =>
    unfold splitLast? at h
    split at h
    · cases h
    · next hnone =>
      split at h
      · cases h
      · next hx =>
        rintro y (_ | ⟨_, hy⟩)
        · exact Bool.not_eq_true _ ▸ hx
        · exact ih hnone y hy

theorem eq_append_of_splitLast? (h : splitLast? p links = some (before, x, after)) :
    links = before ++ x :: after ∧ p x.1 = true ∧ ∀ y ∈ after, p y.1 = false := by
  induction links generalizing before with
  | nil => cases h
  | cons y links ih =>
    unfold splitLast? at h
    split at h
    · next b z a hsome =>
      cases h
      obtain ⟨rfl, hz, ha⟩ := ih hsome
      exact ⟨rfl, hz, ha⟩
    · next hnone =>
      split at h
      · next hy =>
        cases h
        exact ⟨rfl, hy, forall_of_splitLast?_eq_none hnone⟩
      · cases h

theorem length_of_splitLast? (h : splitLast? p links = some (before, x, after)) :
    before.length < links.length ∧ after.length < links.length := by
  obtain ⟨rfl, -⟩ := eq_append_of_splitLast? h
  simp only [List.length_append, List.length_cons]
  omega

end

/-- The tree of a chain, found by splitting it at one of its links. -/
def conventional (first : Expr) (links : List (Op × Expr)) : Expr :=
  match h : splitLast? Op.isAdditive links with
  | some (before, (op, e), after) =>
    have := length_of_splitLast? h
    .binary op (conventional first before) (conventional e after)
  | none =>
    match h : splitLast? Op.isMultiplicative links with
    | some (before, (op, e), after) =>
      have := length_of_splitLast? h
      .binary op (conventional first before) (conventional e after)
    | none =>
      match links with
      | [] => first
      | (op, e) :: after => .binary op first (conventional e after)
termination_by links.length

@[simp] theorem conventional_nil (first : Expr) : conventional first [] = first := by
  rw [conventional]
  rfl

theorem Op.precedence_of_isAdditive {op : Op} (h : op.isAdditive = true) :
    op.precedence = 1 ∧ op.rightPrecedence = 2 := by
  cases op <;> first | decide | cases h

theorem Op.precedence_of_not_isAdditive {op : Op} (h : op.isAdditive = false) :
    2 ≤ op.precedence ∧ op.rightPrecedence = 3 := by
  cases op <;> first | decide | cases h

theorem Op.one_lt_rightPrecedence (op : Op) : 1 < op.rightPrecedence := by
  cases op <;> decide

theorem Op.precedence_of_isMultiplicative {op : Op} (h : op.isMultiplicative = true) :
    op.precedence = 2 ∧ op.rightPrecedence = 3 := by
  cases op <;> first | decide | cases h

theorem Op.eq_pow {op : Op} (h : op.isAdditive = false) (h' : op.isMultiplicative = false) :
    op = .pow := by
  cases op with
  | pow => rfl
  | add | sub => cases h
  | mul | div => cases h'

/-- **Where a chain is split.** The right operand of the link takes all links after it, and the right
operands of the links before it do not reach as far as the link. -/
theorem conventional_split (first : Expr) (links : List (Op × Expr)) :
    links = [] ∨
      ∃ before op e after, links = before ++ (op, e) :: after ∧
        conventional first links =
          .binary op (conventional first before) (conventional e after) ∧
        (∀ y ∈ before, op.precedence < y.1.rightPrecedence) ∧
        ∀ y ∈ after, op.rightPrecedence ≤ y.1.precedence := by
  rw [conventional]
  split
  · next before op e after h =>
    obtain ⟨rfl, hop, hafter⟩ := eq_append_of_splitLast? h
    obtain ⟨hone, htwo⟩ := Op.precedence_of_isAdditive hop
    refine .inr ⟨before, op, e, after, rfl, rfl, fun y _ => ?_, fun y hy => ?_⟩
    · exact hone ▸ y.1.one_lt_rightPrecedence
    · exact htwo ▸ (Op.precedence_of_not_isAdditive (hafter y hy)).1
  · next hnone =>
    have hadd := forall_of_splitLast?_eq_none hnone
    split
    · next before op e after h =>
      obtain ⟨rfl, hop, hafter⟩ := eq_append_of_splitLast? h
      obtain ⟨htwo, hthree⟩ : op.precedence = 2 ∧ op.rightPrecedence = 3 :=
        Op.precedence_of_isMultiplicative hop
      refine .inr ⟨before, op, e, after, rfl, rfl, fun y hy => ?_, fun y hy => ?_⟩
      · have hy' := (Op.precedence_of_not_isAdditive (hadd y (by simp [hy]))).2
        omega
      · have hpow := Op.eq_pow (hadd y (by simp [hy])) (hafter y hy)
        rw [hthree, hpow]
        decide
    · next hnone' =>
      have hmul := forall_of_splitLast?_eq_none hnone'
      split
      · exact .inl rfl
      · next op e after _ _ =>
        have hpow : ∀ y ∈ (op, e) :: after, y.1 = .pow := fun y hy =>
          Op.eq_pow (hadd y hy) (hmul y hy)
        refine .inr ⟨[], op, e, after, rfl, by rw [conventional_nil], fun y hy => ?_, fun y hy => ?_⟩
        · cases hy
        · have hop : op = .pow := hpow (op, e) List.mem_cons_self
          rw [hop, hpow y (List.mem_cons_of_mem _ hy)]
          decide

/-! ## Chains are read conventionally -/

variable {line : String} {κ : Bracket} {ts : List Token} {e : Expr}

theorem Grouped.reads (h : Grouped line κ ts e) (s : List Token) :
    Reads (.bracketed κ) false (ts ++ s) e s := by
  obtain ⟨o, us, c, rfl, ho, hc, hus⟩ := h
  have hread := (parse_eq_ok_iff.1 hus).bracketed_of_whole ho hc s
  simpa using hread

theorem Grouped.length_le (h : Grouped line κ ts e) : 3 ≤ ts.length := by
  have hlen := (h.reads []).length_bracketed
  simpa using hlen

/-- An operand that ends by itself is read as one, whatever follows. -/
theorem ClosedOperand.reads (h : ClosedOperand line ts e) (s : List Token) :
    Reads .operand false (ts ++ s) e s := by
  cases h with
  | number ht hx => exact .number ht hx
  | name ht => exact .name ht
  | constant ht hx => exact .constant ht hx
  | group h => exact .brackets (h.reads s)
  | @fraction t ns ds n d ht hn hd hv =>
    have hnl := hn.length_le
    have hdl := hd.length_le
    have hlen : 6 ≤ (ns ++ ds).length := by
      rw [List.length_append]
      omega
    rw [← derivativeVariable?_append hlen s, List.append_assoc] at hv
    have hread := Reads.fraction ht hv (hn.reads (ds ++ s)) (hd.reads s)
    simpa using hread
  | sqrt ht h => exact .sqrt ht (h.reads s)
  | call ht hn h => exact .call ht hn (h.reads s)

namespace Links

variable {p q : Nat} {op : Op} {first l y : Expr} {m r : List Token} {links after : List (Op × Expr)}

/-- A right operand ends before a link that binds less tightly than it asks for. -/
theorem stops (h : Links line ts ((op, e) :: links)) (hq : op.precedence < q) (m : List Token) :
    Stops q false (ts ++ m) := by
  cases h with
  | operator ht => exact (stops_operator ht.1).2 ⟨op, ht.2, hq⟩
  | @neighbour us _ ts _ he =>
    obtain ⟨t, s, hts, ht⟩ := (he.reads (ts ++ m)).startsOperand
    rw [List.append_assoc, hts, stops_of_ne_operator (ne_operator_of_startsOperand ht)]
    exact fun hle => Nat.not_le.2 hq hle.1

/-- The tokens of a chain are those of its parts. -/
theorem of_append {before : List (Op × Expr)} (h : Links line ts (before ++ after)) :
    ∃ us vs, ts = us ++ vs ∧ Links line us before ∧ Links line vs after := by
  induction before generalizing ts with
  | nil => exact ⟨[], ts, rfl, .nil, h⟩
  | cons x before ih =>
    cases h with
    | operator ht he h =>
      obtain ⟨us, vs, rfl, hus, hvs⟩ := ih h
      exact ⟨_, vs, by simp, .operator ht he hus, hvs⟩
    | neighbour he h =>
      obtain ⟨us, vs, rfl, hus, hvs⟩ := ih h
      exact ⟨_, vs, by simp, .neighbour he hus, hvs⟩

/-- Climbing over a link, the right operand of which takes the links `after` it. -/
theorem climb_link (h : Links line ts ((op, e) :: after)) (hp : p ≤ op.precedence)
    (hy : ∀ vs, Links line vs after → Reads (.climb op.rightPrecedence e) false (vs ++ m) y m)
    (hl : Reads (.climb p (.binary op l y)) false m first r) :
    Reads (.climb p l) false (ts ++ m) first r := by
  cases h with
  | @operator t _ us _ vs _ ht he hvs =>
    have hright := Reads.unsigned (he.reads (vs ++ m)) (hy vs hvs)
    simpa using Reads.operator ht hp hright hl
  | @neighbour us _ vs _ he hvs =>
    have hright := Reads.unsigned (he.reads (vs ++ m)) (hy vs hvs)
    have hj : juxtaposes false (us ++ (vs ++ m)) = true := by
      obtain ⟨t, s, hts, ht⟩ := (he.reads (vs ++ m)).startsOperand
      simp [juxtaposes, hts, ht]
    rw [List.append_assoc]
    exact .factor hp hj hright hl

/-- **Climbing over a chain** makes the conventional tree of it, if the links bind tightly enough and
their right operands end before what follows the chain. -/
theorem climb (h : Links line ts links) (hp : ∀ y ∈ links, p ≤ y.1.precedence)
    (hm : ∀ y ∈ links, Stops y.1.rightPrecedence false m)
    (hl : Reads (.climb p (conventional first links)) false m e r) :
    Reads (.climb p first) false (ts ++ m) e r := by
  induction hn : links.length using Nat.strongRecOn generalizing links ts first p m e r with
  | _ n ih =>
    rcases conventional_split first links with
      rfl | ⟨before, op, x, after, rfl, htree, hbefore, hafter⟩
    · cases h
      rwa [conventional_nil] at hl
    · obtain ⟨us, vs, rfl, hus, hvs⟩ := h.of_append
      rw [htree] at hl
      simp only [List.mem_append, List.mem_cons] at hp hm
      have hlink : Reads (.climb p (conventional first before)) false (vs ++ m) e r := by
        refine hvs.climb_link (hp _ (.inr (.inl rfl))) (fun ws hws => ?_) hl
        exact ih _ (by simp at hn; omega) hws hafter (fun y hy => hm y (.inr (.inr hy)))
          (.stop (hm _ (.inr (.inl rfl)))) rfl
      rw [List.append_assoc]
      exact ih _ (by simp at hn; omega) hus (fun y hy => hp y (.inl hy))
        (fun y hy => hvs.stops (hbefore y hy) m) hlink rfl

end Links

/-- **Precedence climbing gives the conventional reading.** A chain of operands that end by
themselves, with operators or nothing between them, is parsed as the tree that splitting it gives. -/
theorem parse_chain {us : List Token} {first : Expr} {links : List (Op × Expr)}
    (hfirst : ClosedOperand line us first) (hlinks : Links line ts links) :
    parse line (us ++ ts) = .ok (conventional first links) := by
  rw [parse_eq_ok_iff]
  have hrest : Reads (.climb 0 first) false (ts ++ []) (conventional first links) [] :=
    hlinks.climb (fun _ _ => Nat.zero_le _) (fun _ _ => trivial) (.stop trivial)
  rw [List.append_nil] at hrest
  exact .unsigned (hfirst.reads ts) hrest

/-- The line `8-2x^2^3/4`, in which every way to split a chain occurs. -/
theorem parse_chain_mixed :
    let line := "8-2x^2^3/4"
    let us : List Token := [⟨.number, "8", 0⟩]
    let ts : List Token := [⟨.operator, "-", 1⟩, ⟨.number, "2", 2⟩, ⟨.identifier, "x", 3⟩,
      ⟨.operator, "^", 4⟩, ⟨.number, "2", 5⟩, ⟨.operator, "^", 6⟩, ⟨.number, "3", 7⟩,
      ⟨.operator, "/", 8⟩, ⟨.number, "4", 9⟩]
    let links : List (Op × Expr) :=
      [(.sub, .number 2), (.mul, .ident "x"), (.pow, .number 2), (.pow, .number 3), (.div, .number 4)]
    ClosedOperand line us (.number 8) ∧ Links line ts links ∧
      parse line (us ++ ts) = .ok (.binary .sub (.number 8) (.binary .div
        (.binary .mul (.number 2) (.binary .pow (.ident "x") (.binary .pow (.number 2) (.number 3))))
        (.number 4))) := by
  intro line us ts links
  have hfirst : ClosedOperand line us (.number 8) := .number rfl rfl
  have hlinks : Links line ts links :=
    .operator ⟨rfl, rfl⟩ (.number rfl rfl) <| .neighbour (.name rfl) <|
      .operator ⟨rfl, rfl⟩ (.number rfl rfl) <| .operator ⟨rfl, rfl⟩ (.number rfl rfl) <|
        .operator ⟨rfl, rfl⟩ (.number rfl rfl) .nil
  refine ⟨hfirst, hlinks, (parse_chain hfirst hlinks).trans ?_⟩
  simp [links, conventional, splitLast?, Op.isAdditive, Op.isMultiplicative]

end LatexCalc
