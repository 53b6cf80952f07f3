import LatexCalc.Proofs.Reading.Lookahead
import LatexCalc.Proofs.Reading.Precedence

/-!
# Nested integrals

The differentials behind nested integrals belong to them from the inside out. Each one is recognised
by looking ahead along all those behind it, the last of which stands in front of no factor. So an
operand that is read in front of everything that starts no factor (`IsIntegrand`) is one again with an
integral around it (`Layer.isIntegrand`), and so are any number of integrals, one in the other
(`isIntegrand_foldl`). Innermost are tokens among whose names there is no differential: they are read
in integrands as outside (`Reads.integrand`).
-/

namespace LatexCalc

variable {κ : Bracket} {line : String} {ph : Phase} {b : Bool} {ts us r : List Token} {e : Expr}

/-! ## Tokens without differentials -/

/-- No name among the tokens is a `d` with more behind it. -/
def NoDifferential (ts : List Token) : Prop :=
  ∀ t ∈ ts, t.kind = .identifier → t.differential? = none

instance : Decidable (NoDifferential ts) :=
  inferInstanceAs (Decidable (∀ t ∈ ts, t.kind = .identifier → t.differential? = none))

namespace NoDifferential

theorem of_suffix (h : NoDifferential ts) (hs : us <:+ ts) : NoDifferential us :=
  fun t ht => h t (hs.subset ht)

theorem rest (h : NoDifferential ts) (hts : Reads ph b ts e r) : NoDifferential r :=
  h.of_suffix hts.suffix

theorem tail {t : Token} (h : NoDifferential (t :: ts)) : NoDifferential ts :=
  h.of_suffix (List.suffix_cons t ts)

theorem startsDifferential_eq_false (h : NoDifferential ts) : startsDifferential ts = false := by
  cases ts with
  | nil => rfl
  | cons t ts =>
    rw [startsDifferential_cons]
    by_cases ht : t.kind = .identifier
    · simp [h t List.mem_cons_self ht]
    · simp [ht]

theorem juxtaposes_eq (h : NoDifferential ts) (b b' : Bool) : juxtaposes b ts = juxtaposes b' ts := by
  simp [juxtaposes, h.startsDifferential_eq_false]

theorem stops {p : Nat} (h : NoDifferential ts) (hs : Stops p b ts) (b' : Bool) : Stops p b' ts := by
  cases ts with
  | nil => trivial
  | cons t ts =>
    by_cases ht : t.kind = .operator
    · exact (stops_operator ht).2 ((stops_operator ht).1 hs)
    · rw [stops_of_ne_operator ht, h.juxtaposes_eq b' b]
      exact (stops_of_ne_operator ht).1 hs

end NoDifferential

/-- **Tokens without differentials** are read in integrands as outside. -/
theorem Reads.integrand (h : Reads ph b ts e r) (hts : NoDifferential ts) (b' : Bool) :
    Reads ph b' ts e r := by
  induction h with
  | minus ht hx _ ihx ihe => exact .minus ht (ihx hts.tail) (ihe (hts.tail.rest hx))
  | plus ht hx _ ihx ihe => exact .plus ht (ihx hts.tail) (ihe (hts.tail.rest hx))
  | unsigned hx _ ihx ihe => exact .unsigned (ihx hts) (ihe (hts.rest hx))
  | stop hs => exact .stop (hts.stops hs b')
  | operator ht hl hx _ ihx ihe => exact .operator ht hl (ihx hts.tail) (ihe (hts.tail.rest hx))
  | factor hl hj hx _ ihx ihe =>
    exact .factor hl ((hts.juxtaposes_eq b' _).trans hj) (ihx hts) (ihe (hts.rest hx))
  | bracketed ho _ hc ihx => exact .bracketed ho (ihx hts.tail) hc
  | number ht hx => exact .number ht hx
  | name ht => exact .name ht
  | constant ht hx => exact .constant ht hx
  | brackets _ ihx => exact .brackets (ihx hts)
  | fraction ht hd hx _ ihx ihy => exact .fraction ht hd (ihx hts.tail) (ihy (hts.tail.rest hx))
  | sqrt ht _ ihx => exact .sqrt ht (ihx hts.tail)
  | call ht hn _ ihx => exact .call ht hn (ihx hts.tail)
  | integral _ hx hy hf hd =>
    -- an integral would have a differential
    have hdr := ((hts.tail.rest hx).rest hy).rest hf
    exact absurd hd (Bool.eq_false_iff.1 hdr.startsDifferential_eq_false)
  | integralScripts _ _ hx _ hy hf hd =>
    have hdr := ((hts.tail.tail.rest hx).tail.rest hy).rest hf
    exact absurd hd (Bool.eq_false_iff.1 hdr.startsDifferential_eq_false)
  | iteration ht hm ho hv hc hx hy _ ihx ihy ihf =>
    have hgroups := hts.tail.tail.tail.tail
    exact .iteration ht hm ho hv hc (ihx hgroups) (ihy (hgroups.rest hx))
      (ihf ((hgroups.rest hx).rest hy))
  | iterationScripts ht hm hu ho hv hq hx hc hp hy _ ihx ihy ihf =>
    have hlower := hts.tail.tail.tail.tail.tail
    have hupper := (hlower.rest hx).tail.tail
    exact .iterationScripts ht hm hu ho hv hq (ihx hlower) hc hp (ihy hupper) (ihf (hupper.rest hy))
  | derivative ht hd _ ihf =>
    exact .derivative ht hd (ihf (hts.tail.of_suffix (List.drop_suffix 6 _)))
  | derivativeAt ht hd hs hp hu ho hn hnv hq hx hc _ ihx ihf =>
    have hpoint := (hs ▸ hts.tail.of_suffix (List.drop_suffix 6 _)).tail.tail.tail.tail.tail
    exact .derivativeAt ht hd hs hp hu ho hn hnv hq (ihx hpoint) hc (ihf (hpoint.rest hx).tail)

theorem Grouped.reads_integrand (h : Grouped line κ ts e) (hts : NoDifferential ts) (b : Bool)
    (s : List Token) : Reads (.bracketed κ) b (ts ++ s) e s := by
  obtain ⟨o, us, c, rfl, ho, hc, hus⟩ := h
  have hplain : NoDifferential us := fun t ht => hts t (by simp [ht])
  have hread := ((parse_eq_ok_iff.1 hus).integrand hplain b).bracketed_of_whole ho hc s
  simpa using hread

/-! ## One integral -/

theorem Token.differential?_of_text {t : Token} {v : String} (ht : t.text = "d" ++ v) (hv : v ≠ "") :
    t.differential? = some v := by
  obtain ⟨c, cs, hcs⟩ := List.exists_cons_of_ne_nil (mt String.toList_eq_nil_iff.1 hv)
  have htext : t.text.toList = 'd' :: c :: cs := by rw [ht, String.toList_append, hcs]; rfl
  rw [Token.differential?, htext]
  exact congrArg some (by rw [← hcs, String.ofList_toList])

/-- What an integral over the variable `name` puts around its integrand: in front of it the command and
the bounds in braces, behind it the differential. -/
structure Layer (line : String) where
  command : Token
  lowerTokens : List Token
  upperTokens : List Token
  differential : Token
  lower : Expr
  upper : Expr
  name : String
  isCommand : command.IsCommand "int"
  grouped_lower : Grouped line .brace lowerTokens lower
  grouped_upper : Grouped line .brace upperTokens upper
  noDifferential_lower : NoDifferential lowerTokens
  noDifferential_upper : NoDifferential upperTokens
  kind_differential : differential.kind = .identifier
  text_differential : differential.text = "d" ++ name
  name_ne : name ≠ ""

/-- The tokens are an operand in front of everything that starts no factor, in integrands as well. -/
def IsIntegrand (ts : List Token) (e : Expr) : Prop :=
  ∀ b s, juxtaposes true s = false → Reads .operand b (ts ++ s) e s

namespace Layer

variable (l : Layer line)

/-- The tokens in front of the integrand. -/
def header : List Token :=
  l.command :: (l.lowerTokens ++ l.upperTokens)

/-- The integral of an integrand. -/
def integral (e : Expr) : Expr :=
  .integral l.name l.lower l.upper e

theorem differential?_eq : l.differential.differential? = some l.name :=
  Token.differential?_of_text l.text_differential l.name_ne

/-- A differential is one in front of everything that starts no factor. -/
theorem startsDifferential {s : List Token} (hs : juxtaposes true s = false) :
    startsDifferential (l.differential :: s) = true := by
  rw [startsDifferential_cons, l.kind_differential, l.differential?_eq, hs]
  rfl

/-- **An integral around an integrand is an integrand.** -/
theorem isIntegrand (h : IsIntegrand ts e) :
    IsIntegrand (l.header ++ (ts ++ [l.differential])) (l.integral e) := by
  intro b s hs
  have hd := l.startsDifferential hs
  have hends : juxtaposes true (l.differential :: s) = false := by simp [juxtaposes, hd]
  have hintegrand : Reads (.expr 0) true (ts ++ l.differential :: s) e (l.differential :: s) :=
    .unsigned (h true _ hends) (.stop (stops_differential hd 0))
  have hlower := l.grouped_lower.reads_integrand l.noDifferential_lower b
  have hupper := l.grouped_upper.reads_integrand l.noDifferential_upper b
  have hread := Reads.integral l.isCommand (hlower _) (hupper _) hintegrand hd l.differential?_eq
  simpa [header, integral] using hread

end Layer

/-! ## Several integrals -/

/-- Integrals one in the other, the innermost of them first, around an integrand. -/
theorem isIntegrand_foldl (layers : List (Layer line)) (h : IsIntegrand ts e) :
    IsIntegrand (layers.reverse.flatMap Layer.header ++ (ts ++ layers.map Layer.differential))
      (layers.foldl (fun e l => l.integral e) e) := by
  induction layers generalizing ts e with
  | nil => simpa using h
  | cons l layers ih => simpa using ih (l.isIntegrand h)

/-- **Nested integrals match their differentials from the inside out.** Let a group in brackets have
no differential among its names, nor the bounds of integrals. Then the headers of the integrals, the
outermost first, the group, and the differentials, the innermost first, are parsed as the integrals one
in the other around the tree of the group: the k-th one from the inside has the k-th differential. -/
theorem parse_nested_integrals {line' : String} (layers : List (Layer line))
    (h : Grouped line κ ts e) (hts : NoDifferential ts) :
    parse line' (layers.reverse.flatMap Layer.header ++ (ts ++ layers.map Layer.differential)) =
      .ok (layers.foldl (fun e l => .integral l.name l.lower l.upper e) e) := by
  have hbody : IsIntegrand ts e := fun b s _ => .brackets (h.reads_integrand hts b s)
  have hread := isIntegrand_foldl layers hbody false [] rfl
  rw [List.append_nil] at hread
  exact parse_eq_ok_iff.2 (.unsigned hread (.stop trivial))

/-- The tokens of `\int{0}{1}\int{0}{1}{xy}dx dy`. -/
theorem parse_nested_integrals_two :
    let zero : List Token := [⟨.braceOpen, "\x7b", 4⟩, ⟨.number, "0", 5⟩, ⟨.braceClose, "\x7d", 6⟩]
    let one : List Token := [⟨.braceOpen, "\x7b", 7⟩, ⟨.number, "1", 8⟩, ⟨.braceClose, "\x7d", 9⟩]
    let header : List Token := ⟨.function, "\\int", 0⟩ :: (zero ++ one)
    let body : List Token := [⟨.braceOpen, "\x7b", 20⟩, ⟨.identifier, "x", 21⟩, ⟨.identifier, "y", 22⟩,
      ⟨.braceClose, "\x7d", 23⟩]
    let e : Expr := .binary .mul (.ident "x") (.ident "y")
    Grouped "" .brace body e ∧ NoDifferential body ∧
      parse "" (header ++ header ++ (body ++ [⟨.identifier, "dx", 24⟩, ⟨.identifier, "dy", 27⟩])) =
        .ok (.integral "y" (.number 0) (.number 1) (.integral "x" (.number 0) (.number 1) e)) := by
  intro zero one header body e
  have hbody : Grouped "" .brace body e := ⟨_, [_, _], _, rfl, rfl, rfl, rfl⟩
  have hplain : NoDifferential body := by decide
  let layer (name : String) (offset : Nat) (hname : name ≠ "") : Layer "" :=
    { command := ⟨.function, "\\int", 0⟩
      lowerTokens := zero
      upperTokens := one
      differential := ⟨.identifier, "d" ++ name, offset⟩
      lower := .number 0
      upper := .number 1
      name := name
      isCommand := ⟨rfl, rfl⟩
      grouped_lower := ⟨_, [_], _, rfl, rfl, rfl, rfl⟩
      grouped_upper := ⟨_, [_], _, rfl, rfl, rfl, rfl⟩
      noDifferential_lower := by decide
      noDifferential_upper := by decide
      kind_differential := rfl
      text_differential := rfl
      name_ne := hname }
  have hx : "x" ≠ "" := by decide
  have hy : "y" ≠ "" := by decide
  exact ⟨hbody, hplain, parse_nested_integrals [layer "x" 24 hx, layer "y" 27 hy] hbody hplain⟩

end LatexCalc
