import LatexCalc.Proofs.Decimal.Digits
import LatexCalc.Proofs.Reading.Run
import LatexCalc.Proofs.Session.Line
import LatexCalc.Proofs.Token.Cutting

/-!
# Writing trees as lines

`Expr.surface` writes a tree in the notation of lines, each part in braces. The line is read as the
tree again (`Renders`, `Expr.renders_surface`): braces end every part, so that neither a product is
read into it nor a name taken for a differential. What can be written are the trees with the names and
numbers of that notation (`Expr.IsWritten`).
-/

namespace LatexCalc

/-- The names of commands that are not names of functions. -/
def reservedNames : List String :=
  headedCommands ++ productCommands ++ sizingCommands

namespace Expr

/-- A tree whose variables are words, whose calls are of functions, and whose numbers satisfy `P`. -/
def IsWritten (P : Float → Prop) : Expr → Prop
  | number x => P x
  | ident name => IsWord name.toList
  | binary _ l r => l.IsWritten P ∧ r.IsWritten P
  | call name a => (∀ c ∈ name.toList, c.isAlpha = true) ∧ name ∉ reservedNames ∧ a.IsWritten P
  | fraction n d => n.IsWritten P ∧ d.IsWritten P
  | sqrt e => e.IsWritten P
  | integral v a b f | sum v a b f | product v a b f =>
    IsWord v.toList ∧ a.IsWritten P ∧ b.IsWritten P ∧ f.IsWritten P
  | derivative v f => IsWord v.toList ∧ f.IsWritten P
  | derivativeAt v p f => IsWord v.toList ∧ p.IsWritten P ∧ f.IsWritten P

/-- The numbers of a tree. -/
def numbers : Expr → List Float
  | number x => [x]
  | ident _ => []
  | call _ a | sqrt a | derivative _ a => a.numbers
  | binary _ l r | fraction l r | derivativeAt _ l r => l.numbers ++ r.numbers
  | integral _ a b f | sum _ a b f | product _ a b f => a.numbers ++ b.numbers ++ f.numbers

/-- A text in braces. -/
def braced (s : String) : String :=
  "\x7b" ++ s ++ "\x7d"

/-- A tree in the notation of lines. -/
def surface : Expr → String
  | number x => floatText x
  | ident name => name
  | binary op l r => braced l.surface ++ op.text ++ braced r.surface
  | call name a => "\\" ++ name ++ braced a.surface
  | fraction n d => "\\frac" ++ braced (braced n.surface) ++ braced (braced d.surface)
  | sqrt e => "\\sqrt" ++ braced e.surface
  | integral v a b f =>
    "\\int" ++ braced a.surface ++ braced b.surface ++ braced f.surface ++ " d" ++ v
  | sum v a b f => "\\sum" ++ braced v ++ braced a.surface ++ braced b.surface ++ braced f.surface
  | product v a b f =>
    "\\prod" ++ braced v ++ braced a.surface ++ braced b.surface ++ braced f.surface
  | derivative v f => "\\frac" ++ braced "d" ++ braced ("d" ++ v) ++ braced f.surface
  | derivativeAt v p f =>
    "\\frac" ++ braced "d" ++ braced ("d" ++ v) ++ "|_" ++ braced (v ++ "=" ++ p.surface) ++
      braced f.surface

end Expr

/-! ## Stretches that are read -/

/-- Nothing follows, or a closing brace. -/
def Closes (r : List Token) : Prop :=
  ∀ t ∈ r.head?, t.kind = .braceClose

theorem Closes.stops {r : List Token} (h : Closes r) (p : Nat) (b : Bool) : Stops p b r := by
  cases r with
  | nil => trivial
  | cons t r =>
    have ht : t.kind = Bracket.brace.closing := h t rfl
    exact stops_closing ht p b r

/-- Tokens that are read as an expression where nothing or a closing brace follows. -/
def ReadsWhole (e : Expr) (ts : List Token) : Prop :=
  ∀ b r, Closes r → Reads (.expr 0) b (ts ++ r) e r

/-- Tokens that are read as an expression in braces. -/
def ReadsGroup (e : Expr) (ts : List Token) : Prop :=
  ∀ b r, Reads (.bracketed .brace) b (ts ++ r) e r

/-- Characters that are read as an expression. -/
def Renders (cs : List Char) (e : Expr) : Prop :=
  ∀ rest, Apart rest → CutsInto (ReadsWhole e) cs rest

/-- Characters that are read as an expression in braces. -/
def RendersGroup (cs : List Char) (e : Expr) : Prop :=
  ∀ rest, CutsInto (ReadsGroup e) cs rest

theorem apart_brace (rest : List Char) : Apart ('{' :: rest) ∧ Apart ('}' :: rest) :=
  ⟨apart_cons rest (by decide), apart_cons rest (by decide)⟩

/-- An operand that nothing follows is an expression. -/
theorem readsWhole_of_operand {e : Expr} {ts : List Token}
    (h : ∀ b r, Closes r → Reads .operand b (ts ++ r) e r) : ReadsWhole e ts :=
  fun b r hr => .unsigned (h b r hr) (.stop (hr.stops 0 b))

/-- An expression in braces is one by itself, up to where an expression can end. -/
theorem ReadsGroup.expr {e : Expr} {ts r : List Token} {p : Nat} {b : Bool} (h : ReadsGroup e ts)
    (hr : Stops p b r) : Reads (.expr p) b (ts ++ r) e r :=
  .unsigned (.brackets (h b r)) (.stop hr)

/-- Braces make an expression one in braces. -/
theorem ReadsWhole.group {e : Expr} {o c : Token} {ts : List Token} (h : ReadsWhole e ts)
    (ho : o.kind = .braceOpen) (hc : c.kind = .braceClose) : ReadsGroup e (o :: (ts ++ [c])) := by
  intro b r
  have hr : Closes (c :: r) := by simp [Closes, hc]
  have hread : Reads (.bracketed .brace) b (o :: (ts ++ c :: r)) e r := .bracketed ho (h b _ hr) hc
  simpa using hread

/-- Characters in braces are cut into the tokens of the characters and those of the braces. -/
theorem cutsInto_braced {P : List Token → Prop} {cs rest : List Char}
    (h : CutsInto P cs ('}' :: rest)) :
    CutsInto (fun ts => ∃ o us c, ts = o :: (us ++ [c]) ∧ o.kind = .braceOpen ∧ P us ∧
      c.kind = .braceClose) (['{'] ++ (cs ++ ['}'])) rest := by
  have hopen := cutsInto_symbol '{' .braceOpen rfl (cs ++ ['}'] ++ rest)
  have hinner := h.append (cutsInto_symbol '}' .braceClose rfl rest)
  refine (hopen.append hinner).mono ?_
  rintro _ ⟨_, _, rfl, ⟨i, rfl⟩, us, _, rfl, hus, j, rfl⟩
  exact ⟨_, us, _, rfl, rfl, hus, rfl⟩

/-- **Braces.** What is read as an expression is one in braces, whatever follows. -/
theorem Renders.braced {cs : List Char} {e : Expr} (h : Renders cs e) :
    RendersGroup (['{'] ++ (cs ++ ['}'])) e := by
  intro rest
  refine (cutsInto_braced (h ('}' :: rest) (apart_brace rest).2)).mono ?_
  rintro _ ⟨o, ts, c, rfl, ho, hts, hc⟩
  exact hts.group ho hc

/-- **Braces in braces** start with two opening ones. -/
theorem Renders.doubled {cs : List Char} {e : Expr} (h : Renders cs e) (rest : List Char) :
    CutsInto (fun ts => ReadsGroup e ts ∧ ∃ o o' us, ts = o :: o' :: us ∧ o'.kind = .braceOpen)
      (['{'] ++ ((['{'] ++ (cs ++ ['}'])) ++ ['}'])) rest := by
  refine (cutsInto_braced (h.braced ('}' :: rest))).mono ?_
  rintro _ ⟨o, ts, c, rfl, ho, hts, hc⟩
  obtain ⟨o', us, hus, ho'⟩ := (hts false []).head_bracketed
  rw [List.append_nil] at hus
  have hwhole : ReadsWhole e ts := readsWhole_of_operand fun b r _ => .brackets (hts b r)
  exact ⟨hwhole.group ho hc, o, o', us ++ [c], by rw [hus]; rfl, ho'⟩

/-! ## One lemma for each form of tree -/

theorem command_ofList {name : List Char} (h : ∀ c ∈ name, c.isAlpha = true) (o : Nat) :
    Token.command ⟨.function, String.ofList ('\\' :: name), o⟩ = String.ofList name := by
  unfold Token.command
  cases name with
  | nil => simp
  | cons c name =>
    have hc : c ≠ '\\' := by
      rintro rfl
      exact absurd (h _ List.mem_cons_self) (by decide)
    simp [hc]

/-- A command with a name is cut out as one. -/
theorem cutsInto_named {name : String} {rest : List Char} (h : IsCommandName name.toList)
    (hrest : Apart rest) :
    CutsInto (fun ts => ∃ t : Token, ts = [t] ∧ t.IsCommand name) ('\\' :: name.toList) rest := by
  refine (cutsInto_command h hrest).mono ?_
  rintro _ ⟨i, rfl⟩
  have hcommand := command_ofList h.1 i
  rw [String.ofList_toList] at hcommand
  exact ⟨_, rfl, rfl, hcommand⟩

theorem isCommandName_of_headed : ∀ name ∈ headedCommands, IsCommandName name.toList := by
  decide

/-- A word in braces is cut into three tokens. -/
theorem cutsInto_bracedWord {v : List Char} (hv : IsWord v) (rest : List Char) :
    CutsInto (fun ts => ∃ o n c : Token, ts = [o, n, c] ∧ o.kind = .braceOpen ∧
      (n.kind = .identifier ∧ n.text = String.ofList v) ∧ c.kind = .braceClose)
      (['{'] ++ (v ++ ['}'])) rest := by
  refine (cutsInto_braced (cutsInto_word hv (apart_brace rest).2)).mono ?_
  rintro _ ⟨o, _, c, rfl, ho, ⟨i, rfl⟩, hc⟩
  exact ⟨o, _, c, rfl, ho, ⟨rfl, rfl⟩, hc⟩

theorem renders_number {x : Float} (hfin : x.isFinite = true) (hx : IsUnsigned x)
    (hread : readFloat? (floatText x) = some x) : Renders (floatText x).toList (.number x) := by
  intro rest hrest
  refine (cutsInto_numeral (isNumeral_floatText hfin hx) hrest).mono ?_
  rintro _ ⟨i, rfl⟩
  exact readsWhole_of_operand fun b r _ => .number rfl (by simpa using hread)

theorem renders_ident {name : String} (h : IsWord name.toList) :
    Renders name.toList (.ident name) := by
  intro rest hrest
  refine (cutsInto_word h hrest).mono ?_
  rintro _ ⟨i, rfl⟩
  have hread : ReadsWhole (.ident (String.ofList name.toList))
      [⟨.identifier, String.ofList name.toList, i⟩] := readsWhole_of_operand fun b r _ => .name rfl
  rwa [String.ofList_toList] at hread ⊢

theorem Op.text_symbol (op : Op) :
    ∃ c, op.text.toList = [c] ∧ symbolKind? c = some .operator := by
  cases op <;> exact ⟨_, rfl, rfl⟩

theorem renders_binary (op : Op) {cs ds : List Char} {l r : Expr} (hl : RendersGroup cs l)
    (hr : RendersGroup ds r) : Renders (cs ++ (op.text.toList ++ ds)) (.binary op l r) := by
  intro rest _
  obtain ⟨c, hc, hk⟩ := op.text_symbol
  have hop : Op.ofText? (String.ofList [c]) = some op := by
    rw [← hc, String.ofList_toList, Op.ofText?_text]
  rw [hc]
  refine ((hl _).append ((cutsInto_symbol c .operator hk _).append (hr rest))).mono ?_
  rintro _ ⟨ts, _, rfl, hts, _, us, rfl, ⟨i, rfl⟩, hus⟩ b r' hr'
  have hright : Reads (.expr op.rightPrecedence) b (us ++ r') r r' := hus.expr (hr'.stops _ b)
  have hread : Reads (.expr 0) b (ts ++ (⟨.operator, String.ofList [c], i⟩ :: (us ++ r')))
      (.binary op l r) r' :=
    .unsigned (.brackets (hts b _))
      (.operator ⟨rfl, hop⟩ (Nat.zero_le _) hright (.stop (hr'.stops 0 b)))
  simpa using hread

variable {cs ds fs : List Char} {x y f : Expr}

theorem renders_call {name : String} (hname : ∀ c ∈ name.toList, c.isAlpha = true)
    (hres : name ∉ reservedNames) (hx : RendersGroup (['{'] ++ cs) x) :
    Renders ('\\' :: name.toList ++ (['{'] ++ cs)) (.call name x) := by
  intro rest _
  simp only [reservedNames, List.mem_append, not_or] at hres
  obtain ⟨⟨hheaded, hproduct⟩, hsizing⟩ := hres
  have hcommand : IsCommandName name.toList :=
    ⟨hname, by simpa using hsizing, by simpa using hproduct⟩
  refine ((cutsInto_named hcommand (apart_brace _).1).append (hx rest)).mono ?_
  rintro _ ⟨_, ts, rfl, ⟨t, rfl, ht, rfl⟩, hts⟩
  exact readsWhole_of_operand fun b r _ => .call ht hheaded (hts b r)

theorem renders_sqrt (hx : RendersGroup (['{'] ++ cs) x) :
    Renders ('\\' :: "sqrt".toList ++ (['{'] ++ cs)) (.sqrt x) := by
  intro rest _
  have hcommand := isCommandName_of_headed "sqrt" (by decide)
  refine ((cutsInto_named hcommand (apart_brace _).1).append (hx rest)).mono ?_
  rintro _ ⟨_, ts, rfl, ⟨t, rfl, ht⟩, hts⟩
  exact readsWhole_of_operand fun b r _ => .sqrt ht (hts b r)

/-- Two opening braces do not start the header of a derivative. -/
theorem derivativeVariable?_doubled {o o' : Token} (ho' : o'.kind = .braceOpen) (ts : List Token) :
    derivativeVariable? (o :: o' :: ts) = none := by
  unfold derivativeVariable?
  split
  · next heq =>
    cases heq
    simp [ho']
  · rfl

theorem renders_fraction (hx : Renders cs x) (hy : Renders ds y) :
    Renders ('\\' :: "frac".toList ++ ((['{'] ++ ((['{'] ++ (cs ++ ['}'])) ++ ['}'])) ++
      (['{'] ++ ((['{'] ++ (ds ++ ['}'])) ++ ['}'])))) (.fraction x y) := by
  intro rest _
  have hcommand := isCommandName_of_headed "frac" (by decide)
  refine ((cutsInto_named hcommand (apart_brace _).1).append
    ((hx.doubled _).append (hy.doubled rest))).mono ?_
  rintro _ ⟨_, _, rfl, ⟨t, rfl, ht⟩, _, us, rfl, ⟨hts, o, o', ts, rfl, ho'⟩, hus, -⟩
  refine readsWhole_of_operand fun b r _ => ?_
  have hread := Reads.fraction ht (derivativeVariable?_doubled ho' _) (hts b _) (hus b r)
  simpa using hread

theorem renders_iteration {name v : String} {make : String → Expr → Expr → Expr → Expr}
    (hname : name ∈ headedCommands) (hmake : iteration? name = some make) (hv : IsWord v.toList)
    (hx : RendersGroup cs x) (hy : RendersGroup ds y) (hf : RendersGroup fs f) :
    Renders ('\\' :: name.toList ++ ((['{'] ++ (v.toList ++ ['}'])) ++ (cs ++ (ds ++ fs))))
      (make v x y f) := by
  intro rest _
  have hcommand := isCommandName_of_headed name hname
  refine ((cutsInto_named hcommand (apart_brace _).1).append ((cutsInto_bracedWord hv _).append
    ((hx _).append ((hy _).append (hf rest))))).mono ?_
  rintro _ ⟨_, _, rfl, ⟨t, rfl, ht, rfl⟩, _, _, rfl, ⟨o, n, c, rfl, ho, ⟨hn, hnv⟩, hc⟩, ts, _, rfl,
    hts, us, ws, rfl, hus, hws⟩
  refine readsWhole_of_operand fun b r hr => ?_
  have hread := Reads.iteration ht hmake ho hn hc (hts b _) (hus b _) (hws.expr (hr.stops 0 b))
  rw [hnv, String.ofList_toList] at hread
  simpa using hread

/-- The word of a differential. -/
theorem isWord_differential {v : List Char} (hv : IsWord v) : IsWord ('d' :: v) := by
  refine ⟨List.cons_ne_nil _ _, fun c hc => ?_⟩
  rcases List.mem_cons.1 hc with rfl | hc
  · decide
  · exact hv.2 c hc

/-- A differential is cut out as one token. -/
theorem cutsInto_differential {v : String} {rest : List Char} (hv : IsWord v.toList)
    (hrest : Apart rest) :
    CutsInto (fun ts => ∃ t : Token, ts = [t] ∧ t.kind = .identifier ∧ t.differential? = some v)
      ('d' :: v.toList) rest := by
  refine (cutsInto_word (isWord_differential hv) hrest).mono ?_
  rintro _ ⟨i, rfl⟩
  refine ⟨_, rfl, rfl, ?_⟩
  obtain ⟨c, cs, hcs⟩ := List.exists_cons_of_ne_nil hv.1
  unfold Token.differential?
  rw [String.toList_ofList, hcs]
  show some (String.ofList (c :: cs)) = some v
  rw [← hcs, String.ofList_toList]

theorem Closes.startsDifferential {v : String} {t : Token} {r : List Token} (hr : Closes r)
    (ht : t.kind = .identifier) (hd : t.differential? = some v) :
    startsDifferential (t :: r) = true := by
  cases r with
  | nil => simp [LatexCalc.startsDifferential, ht, hd]
  | cons u r =>
    have hu : u.kind = .braceClose := hr u rfl
    simp [LatexCalc.startsDifferential, ht, hd, hu]

theorem renders_integral {v : String} (hv : IsWord v.toList) (hx : RendersGroup (['{'] ++ cs) x)
    (hy : RendersGroup ds y) (hf : RendersGroup fs f) :
    Renders ('\\' :: "int".toList ++ (['{'] ++ cs ++ (ds ++ (fs ++ ([' '] ++ 'd' :: v.toList)))))
      (.integral v x y f) := by
  intro rest hrest
  have hcommand := isCommandName_of_headed "int" (by decide)
  refine ((cutsInto_named hcommand (apart_brace _).1).append ((hx _).append ((hy _).append
    ((hf _).append ((cutsInto_space _).append (cutsInto_differential hv hrest)))))).mono ?_
  rintro _ ⟨_, _, rfl, ⟨t, rfl, ht⟩, ts, _, rfl, hts, us, _, rfl, hus, ws, _, rfl, hws, _, _, rfl, rfl,
    d, rfl, hk, hd⟩
  refine readsWhole_of_operand fun b r hr => ?_
  have hstart := hr.startsDifferential hk hd
  have hbody : Reads (.expr 0) true (ws ++ d :: r) f (d :: r) :=
    hws.expr (stops_differential hstart 0)
  have hread := Reads.integral ht (hts b _) (hus b _) hbody hstart hd
  simpa using hread

/-- The header of a derivative. -/
theorem cutsInto_header {v : String} (hv : IsWord v.toList) (rest : List Char) :
    CutsInto (fun ts => ts.length = 6 ∧ ∀ r, derivativeVariable? (ts ++ r) = some v)
      ((['{'] ++ (['d'] ++ ['}'])) ++ (['{'] ++ (('d' :: v.toList) ++ ['}']))) rest := by
  have hd : IsWord ['d'] := by decide
  have hdx := cutsInto_braced (cutsInto_differential hv (apart_brace rest).2)
  refine ((cutsInto_bracedWord hd _).append hdx).mono ?_
  rintro _ ⟨_, _, rfl, ⟨o, n, c, rfl, ho, ⟨hn, hnd⟩, hc⟩, o', _, c', rfl, ho', ⟨t, rfl, ht, hv⟩, hc'⟩
  refine ⟨rfl, fun r => ?_⟩
  have hnd' : n.text = "d" := hnd
  simp [derivativeVariable?, ho, hn, hnd', hc, ho', ht, hv, hc']

theorem renders_derivative {v : String} (hv : IsWord v.toList) (hf : RendersGroup fs f) :
    Renders ('\\' :: "frac".toList ++ (((['{'] ++ (['d'] ++ ['}'])) ++
      (['{'] ++ (('d' :: v.toList) ++ ['}']))) ++ fs)) (.derivative v f) := by
  intro rest _
  have hcommand := isCommandName_of_headed "frac" (by decide)
  refine ((cutsInto_named hcommand (apart_brace _).1).append
    ((cutsInto_header hv _).append (hf rest))).mono ?_
  rintro _ ⟨_, _, rfl, ⟨t, rfl, ht⟩, hs, ws, rfl, ⟨hlen, hd⟩, hws⟩
  refine readsWhole_of_operand fun b r hr => ?_
  have hdrop : (hs ++ (ws ++ r)).drop 6 = ws ++ r := by rw [← hlen, List.drop_left]
  have hbody : Reads (.expr 0) b ((hs ++ (ws ++ r)).drop 6) f r := by
    rw [hdrop]
    exact hws.expr (hr.stops 0 b)
  have hread := Reads.derivative ht (hd _) hbody
  simpa using hread

theorem renders_derivativeAt {v : String} (hv : IsWord v.toList) (hx : Renders cs x)
    (hf : RendersGroup fs f) :
    Renders ('\\' :: "frac".toList ++ (((['{'] ++ (['d'] ++ ['}'])) ++
      (['{'] ++ (('d' :: v.toList) ++ ['}']))) ++ (['|'] ++ (['_'] ++ (['{'] ++ (v.toList ++ (['='] ++
      (cs ++ (['}'] ++ fs))))))))) (.derivativeAt v x f) := by
  intro rest _
  have hcommand := isCommandName_of_headed "frac" (by decide)
  refine ((cutsInto_named hcommand (apart_brace _).1).append ((cutsInto_header hv _).append
    ((cutsInto_symbol _ .pipe rfl _).append ((cutsInto_symbol _ .underscore rfl _).append
    ((cutsInto_symbol _ .braceOpen rfl _).append
    ((cutsInto_word hv (apart_cons _ (by decide))).append
    ((cutsInto_symbol _ .equal rfl _).append ((hx _ (apart_brace _).2).append
    ((cutsInto_symbol _ .braceClose rfl _).append (hf rest)))))))))).mono ?_
  rintro _ ⟨_, _, rfl, ⟨t, rfl, ht⟩, hs, _, rfl, ⟨hlen, hd⟩, _, _, rfl, ⟨i₁, rfl⟩, _, _, rfl,
    ⟨i₂, rfl⟩, _, _, rfl, ⟨i₃, rfl⟩, _, _, rfl, ⟨i₄, rfl⟩, _, _, rfl, ⟨i₅, rfl⟩, ts, _, rfl, hts,
    _, ws, rfl, ⟨i₆, rfl⟩, hws⟩
  refine readsWhole_of_operand fun b r hr => ?_
  have hdrop (us : List Token) : (hs ++ us).drop 6 = us := by rw [← hlen, List.drop_left]
  have hclose : Closes (⟨.braceClose, String.ofList ['}'], i₆⟩ :: (ws ++ r)) := by simp [Closes]
  have hread := Reads.derivativeAt ht (hd _) (hdrop (⟨.pipe, String.ofList ['|'], i₁⟩ ::
    ⟨.underscore, String.ofList ['_'], i₂⟩ :: ⟨.braceOpen, String.ofList ['{'], i₃⟩ ::
    ⟨.identifier, String.ofList v.toList, i₄⟩ :: ⟨.equal, String.ofList ['='], i₅⟩ ::
    (ts ++ ⟨.braceClose, String.ofList ['}'], i₆⟩ :: (ws ++ r)))) rfl rfl rfl rfl
    String.ofList_toList rfl (hts b _ hclose) rfl
    (hws.expr (hr.stops 0 b))
  simpa using hread

namespace Expr

theorem toList_braced (s : String) : (braced s).toList = ['{'] ++ (s.toList ++ ['}']) := by
  simp [braced]

/-- **A tree that can be written is read from its notation**, if its numbers are read from their text. -/
theorem renders_surface (e : Expr) (hw : e.IsWritten fun x => x.isFinite = true ∧ IsUnsigned x)
    (hread : ∀ x ∈ e.numbers, readFloat? (floatText x) = some x) : Renders e.surface.toList e := by
  induction e with
  | number x => exact renders_number hw.1 hw.2 (hread x List.mem_cons_self)
  | ident name => exact renders_ident hw
  | binary op l r ihl ihr =>
    simp only [numbers, List.forall_mem_append] at hread
    have h := renders_binary op (ihl hw.1 hread.1).braced (ihr hw.2 hread.2).braced
    simpa [surface, toList_braced] using h
  | call name a ih =>
    have h := renders_call hw.1 hw.2.1 (ih hw.2.2 hread).braced
    simpa [surface, toList_braced] using h
  | fraction n d ihn ihd =>
    simp only [numbers, List.forall_mem_append] at hread
    have h := renders_fraction (ihn hw.1 hread.1) (ihd hw.2 hread.2)
    simpa [surface, toList_braced] using h
  | sqrt e ih =>
    have h := renders_sqrt (ih hw hread).braced
    simpa [surface, toList_braced] using h
  | integral v a b f iha ihb ihf =>
    simp only [numbers, List.forall_mem_append] at hread
    obtain ⟨hv, ha, hb, hf⟩ := hw
    have h := renders_integral hv (iha ha hread.1.1).braced (ihb hb hread.1.2).braced
      (ihf hf hread.2).braced
    simpa [surface, toList_braced] using h
  | sum v a b f iha ihb ihf =>
    simp only [numbers, List.forall_mem_append] at hread
    obtain ⟨hv, ha, hb, hf⟩ := hw
    have hname : "sum" ∈ headedCommands := by decide
    have h := renders_iteration hname rfl hv (iha ha hread.1.1).braced (ihb hb hread.1.2).braced
      (ihf hf hread.2).braced
    simpa [surface, toList_braced] using h
  | product v a b f iha ihb ihf =>
    simp only [numbers, List.forall_mem_append] at hread
    obtain ⟨hv, ha, hb, hf⟩ := hw
    have hname : "prod" ∈ headedCommands := by decide
    have h := renders_iteration hname rfl hv (iha ha hread.1.1).braced (ihb hb hread.1.2).braced
      (ihf hf hread.2).braced
    simpa [surface, toList_braced] using h
  | derivative v f ihf =>
    have h := renders_derivative hw.1 (ihf hw.2 hread).braced
    simpa [surface, toList_braced] using h
  | derivativeAt v p f ihp ihf =>
    simp only [numbers, List.forall_mem_append] at hread
    have h := renders_derivativeAt hw.1 (ihp hw.2.1 hread.1) (ihf hw.2.2 hread.2).braced
    simpa [surface, toList_braced] using h

/-- The line that a tree is written as is a statement of that tree. -/
theorem parseLine_surface (e : Expr) (hw : e.IsWritten fun x => x.isFinite = true ∧ IsUnsigned x)
    (hread : ∀ x ∈ e.numbers, readFloat? (floatText x) = some x) :
    parseLine e.surface = .ok (.expr e) := by
  obtain ⟨ts, o, hi, hts⟩ := e.renders_surface hw hread [] apart_nil 0
  have hitems : items e.surface = ts.map .ok := by
    rw [List.append_nil] at hi
    rw [items, hi, itemsFrom, List.append_nil]
  have hempty : Closes [] := by simp [Closes]
  have hread := hts false [] hempty
  rw [List.append_nil] at hread
  exact parseLine_eq_ok_iff.2
    ⟨ts, tokenize_eq_ok_iff.2 hitems, parseStatement_eq_expr_iff.2 hread⟩

end Expr

end LatexCalc
