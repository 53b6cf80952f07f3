import LatexCalc.Proofs.Reading.Balance
import LatexCalc.Proofs.Reading.Juxtaposition

/-!
# Bounds in braces and bounds as scripts

The bounds of a sum, a product or an integral are written in braces or as scripts, and scripts may be
braces themselves (`TwoForms`); wherever a header in braces is read, it has a second form
(`exists_twoForms`). A group is read as what it contains is read by itself, up to the brace that closes
it (`InBraces.reads_iff`), so both forms of a header are read in the same way (`TwoForms.operand_iff`).
In front of the command nobody sees what follows it (`Reads.replace_command`). So the two forms may be
exchanged wherever they occur (`parse_scripts`).
-/

namespace LatexCalc

variable {b : Bool} {t u p : Token} {ts us gs k m r : List Token} {e x : Expr}

/-! ## Groups -/

/-- The tokens `gs` are the tokens `ts` in braces. -/
def InBraces (ts gs : List Token) : Prop :=
  ∃ o c, gs = o :: (ts ++ [c]) ∧ o.kind = .braceOpen ∧ c.kind = .braceClose

/-- **Up to the brace that closes them** balanced tokens are read as they are read by themselves. -/
theorem Reads.closed_iff {c : Token} (hts : Balanced ts) (hc : c.kind = .braceClose) :
    (∃ c', c'.kind = .braceClose ∧ Reads (.expr 0) b (ts ++ c :: k) x (c' :: m)) ↔
      Reads (.expr 0) b ts x [] ∧ m = k := by
  constructor
  · rintro ⟨c', hc', h⟩
    obtain ⟨u, hu, hbalanced⟩ :=
      Reading.Holds.balanced (Z := ⟨.expr 0, b, ts ++ c :: k, x, c' :: m⟩) h
    have hclosing : c.kind = Bracket.brace.closing := hc
    have hclosing' : c'.kind = Bracket.brace.closing := hc'
    obtain ⟨-, rfl, rfl⟩ := eq_of_balanced hu hts hbalanced hclosing hclosing'
    exact ⟨h.alone hclosing, rfl⟩
  · rintro ⟨h, rfl⟩
    exact ⟨c, hc, h.enclosed (κ := .brace) hc m⟩

namespace InBraces

theorem head (h : InBraces ts gs) (k : List Token) :
    ∃ o s, gs ++ k = o :: s ∧ o.kind = .braceOpen := by
  obtain ⟨o, c, rfl, ho, -⟩ := h
  exact ⟨o, _, rfl, ho⟩

/-- **A group is read as what it contains.** -/
theorem reads_iff (h : InBraces ts gs) (hts : Balanced ts) :
    Reads (.bracketed .brace) b (gs ++ k) x m ↔ Reads (.expr 0) b ts x [] ∧ m = k := by
  obtain ⟨o, c, rfl, ho, hc⟩ := h
  have htokens : o :: (ts ++ [c]) ++ k = o :: (ts ++ c :: k) := by simp
  rw [htokens, ← Reads.closed_iff hts hc]
  constructor
  · exact fun h => h.of_bracketed
  · rintro ⟨c', hc', h⟩
    exact .bracketed ho h hc'

theorem operand_iff (h : InBraces ts gs) (hts : Balanced ts) :
    Reads .operand b (gs ++ k) x m ↔ Reads (.expr 0) b ts x [] ∧ m = k := by
  rw [← h.reads_iff hts]
  obtain ⟨o, s, hgs, ho⟩ := h.head k
  rw [hgs]
  exact ⟨fun h => h.of_brackets (κ := .brace) ho, .brackets⟩

end InBraces

/-! ## Headers -/

/-- The header of a sum, a product or an integral in its two forms: with its bounds in braces, and with
the same bounds in braces as scripts. The bounds are balanced, as all that is read
(`Reading.Holds.balanced`), and so each brace is closed where the parser closes it. -/
inductive TwoForms : List Token → List Token → Prop
  | integral {t u p A B as as' bs bs'} (ht : t.IsCommand "int") (hu : u.kind = .underscore)
      (hp : p.IsOp .pow) (hA : Balanced A) (hB : Balanced B) (has : InBraces A as)
      (has' : InBraces A as') (hbs : InBraces B bs) (hbs' : InBraces B bs') :
      TwoForms (t :: (as ++ bs)) (t :: u :: (as' ++ p :: bs'))
  | iteration {t make v q u p A B vs as vas bs bs'} (ht : t.kind = .function)
      (hm : iteration? t.command = some make) (hv : v.kind = .identifier) (hq : q.kind = .equal)
      (hu : u.kind = .underscore) (hp : p.IsOp .pow) (hA : Balanced A) (hB : Balanced B)
      (hvs : InBraces [v] vs) (has : InBraces A as) (hvas : InBraces (v :: q :: A) vas)
      (hbs : InBraces B bs) (hbs' : InBraces B bs') :
      TwoForms (t :: (vs ++ (as ++ bs))) (t :: u :: (vas ++ p :: bs'))

/-- What is read as a group is balanced tokens in braces. -/
theorem Reads.exists_inBraces (h : Reads (.bracketed .brace) b ts x r) :
    ∃ A as, Balanced A ∧ InBraces A as ∧ ts = as ++ r := by
  obtain ⟨o, us, rfl, ho⟩ := h.head_bracketed
  obtain ⟨c, hc, hx⟩ := h.of_bracketed
  obtain ⟨A, hA, hbalanced⟩ := Reading.Holds.balanced (Z := ⟨.expr 0, b, us, x, c :: r⟩) hx
  have hus : us = A ++ c :: r := hA
  exact ⟨A, o :: (A ++ [c]), hbalanced, ⟨o, c, rfl, ho, hc⟩, by simp [hus]⟩

/-- **Each header in braces that is read has two forms.** -/
theorem Reads.exists_twoForms {o : Token} (h : Reads .operand b (t :: o :: us) e r)
    (ht : t.kind = .function) (hname : t.command ∈ ["int", "sum", "prod"])
    (ho : o.kind = .braceOpen) : ∃ hs ss k, TwoForms hs ss ∧ t :: o :: us = hs ++ k := by
  have hu : (⟨.underscore, "_", 0⟩ : Token).kind = .underscore := rfl
  have hp : (⟨.operator, "^", 0⟩ : Token).IsOp .pow := ⟨rfl, rfl⟩
  have hq : (⟨.equal, "=", 0⟩ : Token).kind = .equal := rfl
  have hbraces (ts : List Token) :
      InBraces ts (⟨.braceOpen, "\x7b", 0⟩ :: (ts ++ [⟨.braceClose, "\x7d", 0⟩])) :=
    ⟨_, _, rfl, rfl, rfl⟩
  cases h with
  | @integral _ _ _ _ _ _ k _ _ _ _ ht hx hy =>
    obtain ⟨A, as, hA, has, hts⟩ := hx.exists_inBraces
    obtain ⟨B, bs, hB, hbs, rfl⟩ := hy.exists_inBraces
    exact ⟨_, _, k, .integral ht hu hp hA hB has has hbs hbs, by simp [hts]⟩
  | @iteration _ _ _ _ v _ _ _ _ _ k _ _ _ hm _ hv hc hx hy =>
    obtain ⟨A, as, hA, has, rfl⟩ := hx.exists_inBraces
    obtain ⟨B, bs, hB, hbs, rfl⟩ := hy.exists_inBraces
    have hvs : InBraces [v] [o, v, _] := ⟨_, _, rfl, ho, hc⟩
    exact ⟨_, _, k, .iteration ht hm hv hq hu hp hA hB hvs has (hbraces _) hbs hbs, by simp⟩
  | integralScripts _ hu | iterationScripts _ _ hu => cases hu.symm.trans ho
  | brackets hx => exact absurd hx (not_bracketed ht)
  | _ =>
    simp only [List.mem_cons, List.not_mem_nil, or_false] at hname
    rcases hname with hn | hn | hn <;>
      simp_all [Token.IsCommand, constant?, headedCommands]

section

variable {A B as bs : List Token}

/-- What an integral is read as. -/
def IntegralOf (b : Bool) (A B k : List Token) (e : Expr) (r : List Token) : Prop :=
  ∃ v x y f d, e = .integral v x y f ∧ Reads (.expr 0) b A x [] ∧ Reads (.expr 0) b B y [] ∧
    Reads (.expr 0) true k f (d :: r) ∧ startsDifferential (d :: r) = true ∧ d.differential? = some v

/-- What a sum or product is read as. -/
def IterationOf (b : Bool) (make : String → Expr → Expr → Expr → Expr) (v : String)
    (A B k : List Token) (e : Expr) (r : List Token) : Prop :=
  ∃ x y f, e = make v x y f ∧ Reads (.expr 0) b A x [] ∧ Reads (.expr 0) b B y [] ∧
    Reads (.expr 0) b k f r

variable (hA : Balanced A) (hB : Balanced B) (hbs : InBraces B bs)

include hA hB hbs

theorem reads_integral_iff (ht : t.IsCommand "int") (has : InBraces A as) :
    Reads .operand b (t :: (as ++ (bs ++ k))) e r ↔ IntegralOf b A B k e r := by
  constructor
  · intro h
    obtain ⟨o, s, hos, ho⟩ := has.head (bs ++ k)
    rw [hos] at h
    obtain ⟨v, x, y, f, m, k', d, he, hx, hy, hf, hd, hv⟩ := h.of_integral ht ho
    rw [← hos] at hx
    obtain ⟨hx', rfl⟩ := (has.reads_iff hA).1 hx
    obtain ⟨hy', rfl⟩ := (hbs.reads_iff hB).1 hy
    exact ⟨v, x, y, f, d, he, hx', hy', hf, hd, hv⟩
  · rintro ⟨v, x, y, f, d, rfl, hx, hy, hf, hd, hv⟩
    exact .integral ht ((has.reads_iff hA).2 ⟨hx, rfl⟩) ((hbs.reads_iff hB).2 ⟨hy, rfl⟩) hf hd hv

theorem reads_integralScripts_iff (ht : t.IsCommand "int") (hu : u.kind = .underscore)
    (hp : p.IsOp .pow) (has : InBraces A as) :
    Reads .operand b (t :: u :: (as ++ p :: (bs ++ k))) e r ↔ IntegralOf b A B k e r := by
  constructor
  · intro h
    obtain ⟨v, x, y, f, c, m, k', d, he, hx, -, hy, hf, hd, hv⟩ := h.of_integralScripts ht hu
    obtain ⟨hx', hm⟩ := (has.operand_iff hA).1 hx
    cases hm
    obtain ⟨hy', rfl⟩ := (hbs.operand_iff hB).1 hy
    exact ⟨v, x, y, f, d, he, hx', hy', hf, hd, hv⟩
  · rintro ⟨v, x, y, f, d, rfl, hx, hy, hf, hd, hv⟩
    exact .integralScripts ht hu ((has.operand_iff hA).2 ⟨hx, rfl⟩) hp
      ((hbs.operand_iff hB).2 ⟨hy, rfl⟩) hf hd hv

variable {make : String → Expr → Expr → Expr → Expr} {v q : Token}

theorem reads_iteration_iff {vs : List Token} (ht : t.kind = .function)
    (hm : iteration? t.command = some make) (hv : v.kind = .identifier) (hvs : InBraces [v] vs)
    (has : InBraces A as) :
    Reads .operand b (t :: (vs ++ (as ++ (bs ++ k)))) e r ↔ IterationOf b make v.text A B k e r := by
  obtain ⟨o, c, rfl, ho, hc⟩ := hvs
  constructor
  · intro h
    obtain ⟨x, y, f, m, k', he, hx, hy, hf⟩ := h.of_iteration ht hm ho
    obtain ⟨hx', rfl⟩ := (has.reads_iff hA).1 hx
    obtain ⟨hy', rfl⟩ := (hbs.reads_iff hB).1 hy
    exact ⟨x, y, f, he, hx', hy', hf⟩
  · rintro ⟨x, y, f, rfl, hx, hy, hf⟩
    exact .iteration ht hm ho hv hc ((has.reads_iff hA).2 ⟨hx, rfl⟩) ((hbs.reads_iff hB).2 ⟨hy, rfl⟩) hf

theorem reads_iterationScripts_iff {vas : List Token} (ht : t.kind = .function)
    (hm : iteration? t.command = some make) (hv : v.kind = .identifier) (hq : q.kind = .equal)
    (hu : u.kind = .underscore) (hp : p.IsOp .pow) (hvas : InBraces (v :: q :: A) vas) :
    Reads .operand b (t :: u :: (vas ++ p :: (bs ++ k))) e r ↔
      IterationOf b make v.text A B k e r := by
  obtain ⟨o, c, rfl, ho, hc⟩ := hvas
  have htokens : t :: u :: (o :: (v :: q :: A ++ [c]) ++ p :: (bs ++ k)) =
      t :: u :: o :: v :: q :: (A ++ c :: p :: (bs ++ k)) := by simp
  rw [htokens]
  constructor
  · intro h
    obtain ⟨x, y, f, c', p', m, k', he, hx, hc', hy, hf⟩ := h.of_iterationScripts ht hm hu
    obtain ⟨hx', hm'⟩ := (Reads.closed_iff hA hc).1 ⟨_, hc', hx⟩
    cases hm'
    obtain ⟨hy', rfl⟩ := (hbs.operand_iff hB).1 hy
    exact ⟨x, y, f, he, hx', hy', hf⟩
  · rintro ⟨x, y, f, rfl, hx, hy, hf⟩
    exact .iterationScripts ht hm hu ho hv hq (hx.enclosed (κ := .brace) hc _) hc hp
      ((hbs.operand_iff hB).2 ⟨hy, rfl⟩) hf

end

/-- **The two forms of a header are read in the same way**, with whatever follows. -/
theorem TwoForms.operand_iff {hs ss : List Token} (h : TwoForms hs ss) :
    Reads .operand b (hs ++ k) e r ↔ Reads .operand b (ss ++ k) e r := by
  cases h with
  | @integral t u p A B as as' bs bs' ht hu hp hA hB has has' hbs hbs' =>
    simp only [List.cons_append, List.append_assoc]
    rw [reads_integral_iff hA hB hbs ht has, reads_integralScripts_iff hA hB hbs' ht hu hp has']
  | @iteration t make v q u p A B vs as vas bs bs' ht hm hv hq hu hp hA hB hvs has hvas hbs hbs' =>
    simp only [List.cons_append, List.append_assoc]
    rw [reads_iteration_iff hA hB hbs ht hm hv hvs has,
      reads_iterationScripts_iff hA hB hbs' ht hm hv hq hu hp hvas]

theorem TwoForms.command {hs ss : List Token} (h : TwoForms hs ss) :
    ∃ t us vs, t.kind = .function ∧ hs = t :: us ∧ ss = t :: vs := by
  cases h with
  | integral ht => exact ⟨_, _, _, ht.1, rfl, rfl⟩
  | iteration ht => exact ⟨_, _, _, ht, rfl, rfl⟩

/-! ## In front of a command -/

theorem juxtaposes_command (ht : t.kind = .function) (b : Bool) (ts : List Token) :
    juxtaposes b (t :: ts) = true := by
  simp [juxtaposes, startsDifferential_cons, ht, TokenKind.startsOperand]

/-- The tokens in front of a command do not see what follows it. -/
theorem ahead_command (ht : t.kind = .function) (b : Bool) (us ts ts' : List Token) :
    Ahead b us (t :: ts) (t :: ts') where
  header _ _ hnone := derivativeVariable?_append_cons (.inr ht) hnone
  differential _ w _ _ := startsDifferential_append_cons (by simp [startsDifferential, ht]) w ts ts'
  stops p hs := by
    have hk : t.kind ≠ .operator := by simp [ht]
    rw [stops_of_ne_operator hk, juxtaposes_command ht] at hs ⊢
    exact hs

/-- A command among tokens that are all read starts an operand. -/
theorem Reads.exists_part {front s : List Token} (ht : t.kind = .function)
    (h : Reads (.expr 0) false (front ++ t :: s) e []) :
    ∃ b x r, Reading.Part ⟨.operand, b, t :: s, x, r⟩ ⟨.expr 0, false, front ++ t :: s, e, []⟩ := by
  obtain ⟨X, hX, hphase, htokens⟩ :=
    Reading.Holds.exists_operand (Z := ⟨.expr 0, false, front ++ t :: s, e, []⟩) h ht
      (List.suffix_append front (t :: s)) (Nat.zero_le _)
  obtain ⟨ph, b, ts, x, r⟩ := X
  cases hphase
  cases htokens
  exact ⟨b, x, r, hX⟩

/-- **What follows a command can be replaced** by tokens that are read in the same way behind it. -/
theorem Reads.replace_command {front s s' : List Token} (ht : t.kind = .function)
    (h : Reads (.expr 0) false (front ++ t :: s) e [])
    (hs : ∀ b x r, Reads .operand b (t :: s) x r → Reads .operand b (t :: s') x r) :
    Reads (.expr 0) false (front ++ t :: s') e [] := by
  obtain ⟨c, x, r, hX⟩ := h.exists_part ht
  obtain ⟨w, hw⟩ := hX.context
  have hfront : front = w := List.append_cancel_right hw.tokens
  have hallows : Reading.Allows ⟨.operand, c, t :: s, x, r⟩ (t :: s') :=
    ⟨hs c x r hX.holds_part, fun _ _ => juxtaposes_command ht c s'⟩
  rw [hfront]
  exact (hw.fill _ (ahead_command ht _ w s s') (ahead_command ht _ w s s') hallows).reads

section

variable {line line' : String} {front hs ss back : List Token}

/-- A header with bounds in braces has two forms wherever it occurs among tokens that are parsed. -/
theorem exists_twoForms {o : Token} (he : parse line (front ++ t :: o :: us) = .ok e)
    (ht : t.kind = .function) (hname : t.command ∈ ["int", "sum", "prod"]) (ho : o.kind = .braceOpen) :
    ∃ hs ss back, TwoForms hs ss ∧ t :: o :: us = hs ++ back := by
  obtain ⟨b, x, r, hX⟩ := (parse_eq_ok_iff.1 he).exists_part ht
  exact hX.holds_part.exists_twoForms ht hname ho

/-- **Bounds in braces and bounds as scripts mean the same.** Where one form of a header occurs among
tokens that are parsed as `e`, the tokens with the other form are parsed as `e`, too. -/
theorem parse_scripts (h : TwoForms hs ss) :
    parse line (front ++ (hs ++ back)) = .ok e ↔ parse line' (front ++ (ss ++ back)) = .ok e := by
  have hiff {b : Bool} {x : Expr} {r : List Token} := h.operand_iff (b := b) (k := back) (e := x) (r := r)
  obtain ⟨t, us, vs, ht, rfl, rfl⟩ := h.command
  rw [parse_eq_ok_iff, parse_eq_ok_iff]
  exact ⟨fun hr => hr.replace_command ht fun _ _ _ => hiff.1,
    fun hr => hr.replace_command ht fun _ _ _ => hiff.2⟩

/-- The tokens of `2\sum{i}{1}{3}i` and of `2\sum_{i=1}^{3}i`. -/
theorem parse_scripts_sum :
    let inBraces (ts : List Token) : List Token :=
      ⟨.braceOpen, "\x7b", 0⟩ :: (ts ++ [⟨.braceClose, "\x7d", 0⟩])
    let one : List Token := [⟨.number, "1", 9⟩]
    let three : List Token := [⟨.number, "3", 12⟩]
    let hs := ⟨.function, "\\sum", 1⟩ ::
      (inBraces [⟨.identifier, "i", 6⟩] ++ (inBraces one ++ inBraces three))
    let ss := ⟨.function, "\\sum", 1⟩ :: ⟨.underscore, "_", 5⟩ ::
      (inBraces (⟨.identifier, "i", 6⟩ :: ⟨.equal, "=", 8⟩ :: one) ++
        ⟨.operator, "^", 11⟩ :: inBraces three)
    let front : List Token := [⟨.number, "2", 0⟩]
    let back : List Token := [⟨.identifier, "i", 15⟩]
    let e : Expr := .binary .mul (.number 2) (.sum "i" (.number 1) (.number 3) (.ident "i"))
    TwoForms hs ss ∧ parse "" (front ++ (hs ++ back)) = .ok e ∧
      parse "" (front ++ (ss ++ back)) = .ok e := by
  intro inBraces one three hs ss front back e
  have hbraces (ts : List Token) : InBraces ts (inBraces ts) := ⟨_, _, rfl, rfl, rfl⟩
  have hmake : iteration? (⟨.function, "\\sum", 1⟩ : Token).command = some .sum := rfl
  have hforms : TwoForms hs ss :=
    .iteration rfl hmake rfl rfl rfl ⟨rfl, rfl⟩ (A := one) (fun _ => rfl) (fun _ => rfl)
      (hbraces _) (hbraces _) (hbraces _) (hbraces three) (hbraces three)
  have he : parse "" (front ++ (hs ++ back)) = .ok e := rfl
  exact ⟨hforms, he, (parse_scripts hforms).1 he⟩

end

end LatexCalc
