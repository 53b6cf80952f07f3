import LatexCalc.Proofs.Surface.Correspondence

/-!
# Trees with operators in front

`Expr.text` and `Statement.text` write a node as its head and its parts in parentheses, with a space in
front of each part and without any marks around names. Such a text is that of one structure of
parentheses (`Sexp.chars_append_inj`), and the head of a node together with the number of its parts
tells what the node is (`Expr.tree_sexp`). So the text of a line determines the tree that the line
stands for, except that a number too great is written like the variable `inf`
(`statement_text_eq_iff`).
-/

namespace LatexCalc

/-- Names, and lists of a head and parts. -/
inductive Sexp
  | atom (text : String)
  | node (head : String) (parts : List Sexp)

/-! ## Structures and their texts -/

/-- Characters other than those that mark where parts begin and end. -/
def isBare (c : Char) : Bool :=
  !(c = ' ' || c = '(' || c = ')')

namespace Sexp

mutual

/-- The text of a structure. -/
def chars : Sexp → List Char
  | atom s => s.toList
  | node h as => '(' :: (h.toList ++ closeParts as)

/-- The text of the parts of a node, up to its end. -/
def closeParts : List Sexp → List Char
  | [] => [')']
  | a :: as => ' ' :: (a.chars ++ closeParts as)

end

/-- A structure of names and heads without marks in them. Names are not empty. -/
inductive Plain : Sexp → Prop
  | atom {s : String} (hne : s.toList ≠ []) (hs : ∀ c ∈ s.toList, isBare c = true) : Plain (atom s)
  | node {h : String} {as : List Sexp} (hh : ∀ c ∈ h.toList, isBare c = true)
    (has : ∀ a ∈ as, Plain a) : Plain (node h as)

/-- Nothing follows, or a mark. -/
def Ends (r : List Char) : Prop :=
  ∀ c ∈ r.head?, isBare c = false

theorem ends_closeParts (as : List Sexp) (r : List Char) : Ends (closeParts as ++ r) := by
  cases as <;> simp [Ends, closeParts, isBare]

/-- Where characters without marks end can be seen. -/
theorem bare_append_inj {cs cs' r r' : List Char} (hcs : ∀ c ∈ cs, isBare c = true)
    (hcs' : ∀ c ∈ cs', isBare c = true) (hr : Ends r) (hr' : Ends r') (h : cs ++ r = cs' ++ r') :
    cs = cs' ∧ r = r' := by
  obtain ⟨htake, hdrop⟩ := take_drop_while_append hcs hr
  obtain ⟨htake', hdrop'⟩ := take_drop_while_append hcs' hr'
  rw [h] at htake hdrop
  exact ⟨htake.symm.trans htake', hdrop.symm.trans hdrop'⟩

/-- A name is not the text of a node. -/
theorem bare_append_ne_open {cs r r' : List Char} (hne : cs ≠ [])
    (hcs : ∀ c ∈ cs, isBare c = true) : cs ++ r ≠ '(' :: r' := by
  cases cs with
  | nil => exact absurd rfl hne
  | cons c cs =>
    intro h
    have hc := hcs c List.mem_cons_self
    rw [(List.cons.inj h).1] at hc
    cases hc

mutual

/-- **A text is that of one structure**, and where it ends can be seen. -/
theorem chars_append_inj {s s' : Sexp} {r r' : List Char} (hs : s.Plain) (hs' : s'.Plain)
    (hr : Ends r) (hr' : Ends r') (h : s.chars ++ r = s'.chars ++ r') : s = s' ∧ r = r' := by
  match s, s', hs, hs' with
  | .atom a, .atom a', .atom hne ha, .atom hne' ha' =>
    obtain ⟨hchars, hrest⟩ := bare_append_inj ha ha' hr hr' h
    exact ⟨by rw [String.toList_inj.1 hchars], hrest⟩
  | .atom a, .node f' as', .atom hne ha, .node _ _ =>
    exact absurd h (bare_append_ne_open hne ha)
  | .node f as, .atom a', .node _ _, .atom hne ha =>
    exact absurd h.symm (bare_append_ne_open hne ha)
  | .node f as, .node f' as', .node hf has, .node hf' has' =>
    simp only [chars, List.cons_append, List.append_assoc, List.cons.injEq, true_and] at h
    obtain ⟨hhead, hparts⟩ :=
      bare_append_inj hf hf' (ends_closeParts as r) (ends_closeParts as' r') h
    obtain ⟨rfl, hrest⟩ := closeParts_append_inj has has' hparts
    exact ⟨by rw [String.toList_inj.1 hhead], hrest⟩

theorem closeParts_append_inj {as as' : List Sexp} {r r' : List Char} (has : ∀ a ∈ as, a.Plain)
    (has' : ∀ a ∈ as', a.Plain) (h : closeParts as ++ r = closeParts as' ++ r') :
    as = as' ∧ r = r' := by
  match as, as' with
  | [], [] => exact ⟨rfl, by simpa [closeParts] using h⟩
  | [], a' :: as' => simp [closeParts] at h
  | a :: as, [] => simp [closeParts] at h
  | a :: as, a' :: as' =>
    simp only [closeParts, List.cons_append, List.append_assoc, List.cons.injEq, true_and] at h
    obtain ⟨hfirst, hmore⟩ := List.forall_mem_cons.1 has
    obtain ⟨hfirst', hmore'⟩ := List.forall_mem_cons.1 has'
    obtain ⟨rfl, hparts⟩ :=
      chars_append_inj hfirst hfirst' (ends_closeParts as r) (ends_closeParts as' r') h
    obtain ⟨rfl, hrest⟩ := closeParts_append_inj hmore hmore' hparts
    exact ⟨rfl, hrest⟩

end

end Sexp

/-! ## Trees as structures -/

namespace Expr

/-- The structure of a tree's text. -/
def sexp : Expr → Sexp
  | number x => .atom (floatText x)
  | ident name => .atom name
  | binary op l r => .node op.text [l.sexp, r.sexp]
  | call name a => .node name [a.sexp]
  | fraction n d => .node "frac" [n.sexp, d.sexp]
  | sqrt e => .node "sqrt" [e.sexp]
  | integral v a b f => .node "int" [.atom v, a.sexp, b.sexp, f.sexp]
  | sum v a b f => .node "sum" [.atom v, a.sexp, b.sexp, f.sexp]
  | product v a b f => .node "prod" [.atom v, a.sexp, b.sexp, f.sexp]
  | derivative v f => .node ("d/d" ++ v) [f.sexp]
  | derivativeAt v p f => .node ("d/d" ++ v) [f.sexp, .atom "at", p.sexp]

/-- A tree with the variable `inf` for each number that is too great. -/
def nameInfinity : Expr → Expr
  | number x =>
    match x.toModel.unpack with
    | .infinity .positive => ident "inf"
    | _ => number x
  | ident name => ident name
  | binary op l r => binary op l.nameInfinity r.nameInfinity
  | call name a => call name a.nameInfinity
  | fraction n d => fraction n.nameInfinity d.nameInfinity
  | sqrt e => sqrt e.nameInfinity
  | integral v a b f => integral v a.nameInfinity b.nameInfinity f.nameInfinity
  | sum v a b f => sum v a.nameInfinity b.nameInfinity f.nameInfinity
  | product v a b f => product v a.nameInfinity b.nameInfinity f.nameInfinity
  | derivative v f => derivative v f.nameInfinity
  | derivativeAt v p f => derivativeAt v p.nameInfinity f.nameInfinity

/-- The text of a tree is that of its structure. -/
theorem toList_text (e : Expr) : e.text.toList = e.sexp.chars := by
  induction e with
  | number x => rfl
  | ident name => rfl
  | binary op l r ihl ihr | fraction l r ihl ihr =>
    simp [text, sexp, Sexp.chars, Sexp.closeParts, ihl, ihr]
  | call name a ih | sqrt a ih =>
    simp [text, sexp, Sexp.chars, Sexp.closeParts, ih]
  | integral v a b f iha ihb ihf | sum v a b f iha ihb ihf | product v a b f iha ihb ihf =>
    simp [text, sexp, Sexp.chars, Sexp.closeParts, iha, ihb, ihf]
  | derivative v f ihf => simp [text, sexp, Sexp.chars, Sexp.closeParts, ihf]
  | derivativeAt v p f ihp ihf => simp [text, sexp, Sexp.chars, Sexp.closeParts, ihp, ihf]

/-- An infinite number has the text of the variable. -/
theorem text_nameInfinity (e : Expr) : e.nameInfinity.text = e.text := by
  induction e with
  | number x =>
    unfold nameInfinity
    split
    · next h => simp [text, floatText, h, signText]
    · rfl
  | ident name => rfl
  | binary op l r ihl ihr | fraction l r ihl ihr => simp only [nameInfinity, text, ihl, ihr]
  | call name a ih | sqrt a ih => simp only [nameInfinity, text, ih]
  | integral v a b f iha ihb ihf | sum v a b f iha ihb ihf | product v a b f iha ihb ihf =>
    simp only [nameInfinity, text, iha, ihb, ihf]
  | derivative v f ihf => simp only [nameInfinity, text, ihf]
  | derivativeAt v p f ihp ihf => simp only [nameInfinity, text, ihp, ihf]

end Expr

example : (Expr.number (1 / 0)).text = (Expr.ident "inf").text := by decide +kernel

theorem isBare_of_isAlpha {c : Char} (h : c.isAlpha = true) : isBare c = true := by
  have hne (m : Char) (hm : m.isAlpha = false) : c ≠ m := by
    rintro rfl
    rw [hm] at h
    cases h
  simp [isBare, hne ' ' rfl, hne '(' rfl, hne ')' rfl]

theorem isBare_of_isDigit {c : Char} (h : c.isDigit = true) : isBare c = true := by
  have hne (m : Char) (hm : m.isDigit = false) : c ≠ m := by
    rintro rfl
    rw [hm] at h
    cases h
  simp [isBare, hne ' ' rfl, hne '(' rfl, hne ')' rfl]

theorem Sexp.plain_of_isWord {s : String} (h : IsWord s.toList) : (atom s).Plain :=
  .atom h.1 fun c hc => isBare_of_isAlpha (h.2 c hc)

theorem Sexp.plain_of_isNumeral {s : String} (h : IsNumeral s.toList) : (atom s).Plain := by
  rcases h with hdigits | ⟨whole, fraction, hw, hf, hs⟩
  · exact .atom hdigits.1 fun c hc => isBare_of_isDigit (hdigits.2 c hc)
  · refine .atom (by simp [hs]) fun c hc => ?_
    simp only [hs, List.mem_append, List.mem_cons] at hc
    rcases hc with hc | rfl | hc
    · exact isBare_of_isDigit (hw.2 c hc)
    · rfl
    · exact isBare_of_isDigit (hf.2 c hc)

/-- A name is not a numeral. -/
theorem IsNumeral.not_isWord {cs : List Char} (h : IsNumeral cs) : ¬ IsWord cs := by
  have hdigit {whole rest : List Char} (hw : IsDigits whole) : ¬ IsWord (whole ++ rest) := by
    cases whole with
    | nil => exact absurd rfl hw.1
    | cons c whole =>
      intro hword
      have hc := hw.2 c List.mem_cons_self
      have hc' := hword.2 c (by simp)
      simp only [Char.isDigit, Char.isAlpha, Char.isUpper, Char.isLower, Bool.and_eq_true,
        Bool.or_eq_true, decide_eq_true_eq, ge_iff_le, UInt32.le_iff_toNat_le] at hc hc'
      change 48 ≤ c.toNat ∧ c.toNat ≤ 57 at hc
      change 65 ≤ c.toNat ∧ c.toNat ≤ 90 ∨ 97 ≤ c.toNat ∧ c.toNat ≤ 122 at hc'
      omega
  rcases h with hdigits | ⟨whole, fraction, hw, -, rfl⟩
  · have hnot : ¬ IsWord (cs ++ []) := hdigit hdigits
    rwa [List.append_nil] at hnot
  · exact hdigit hw

/-- The text of a number without a sign is a numeral, or the number is infinite. -/
theorem IsUnsigned.cases {x : Float} (hx : IsUnsigned x) :
    (x.isFinite = true ∧ IsNumeral (floatText x).toList ∧
      (Expr.number x).nameInfinity = .number x) ∨
    (x.isFinite = false ∧ floatText x = "inf" ∧ (Expr.number x).nameInfinity = .ident "inf") := by
  cases h : x.toModel.unpack with
  | notANumber =>
    rw [IsUnsigned, h] at hx
    exact hx.elim
  | infinity s =>
    rw [IsUnsigned, h] at hx
    cases hx
    refine .inr ⟨?_, by simp [floatText, h, signText], by simp [Expr.nameInfinity, h]⟩
    show x.toModel.unpack.isFinite = false
    rw [h]
    rfl
  | zero s | finite s m q hm =>
    have hfin : x.isFinite = true := by
      show x.toModel.unpack.isFinite = true
      rw [h]
      rfl
    exact .inl ⟨hfin, isNumeral_floatText hfin hx, by simp [Expr.nameInfinity, h]⟩

/-- Names and heads of trees that are written have no marks in them. -/
theorem Expr.plain_sexp {e : Expr} (h : e.IsWritten IsUnsigned) : e.sexp.Plain := by
  have hhead (s : String) (hs : s.toList.all isBare = true) : ∀ c ∈ s.toList, isBare c = true :=
    List.all_eq_true.1 hs
  have hslope {v : String} (hv : IsWord v.toList) : ∀ c ∈ ("d/d" ++ v).toList, isBare c = true := by
    intro c hc
    rw [String.toList_append, List.mem_append] at hc
    rcases hc with hc | hc
    · exact hhead "d/d" rfl c hc
    · exact isBare_of_isAlpha (hv.2 c hc)
  induction e with
  | number x =>
    rcases IsUnsigned.cases h with ⟨-, hnumeral, -⟩ | ⟨-, hinf, -⟩
    · exact Sexp.plain_of_isNumeral hnumeral
    · rw [sexp, hinf]
      exact Sexp.plain_of_isWord (by decide)
  | ident name => exact Sexp.plain_of_isWord h
  | binary op l r ihl ihr =>
    exact .node (hhead op.text (by cases op <;> rfl)) (by simp [ihl h.1, ihr h.2])
  | call name a ih =>
    exact .node (fun c hc => isBare_of_isAlpha (h.1 c hc)) (by simp [ih h.2.2])
  | fraction n d ihn ihd => exact .node (hhead "frac" rfl) (by simp [ihn h.1, ihd h.2])
  | sqrt e ih => exact .node (hhead "sqrt" rfl) (by simp [ih h])
  | integral v a b f iha ihb ihf | sum v a b f iha ihb ihf | product v a b f iha ihb ihf =>
    exact .node (hhead _ rfl)
      (by simp [Sexp.plain_of_isWord h.1, iha h.2.1, ihb h.2.2.1, ihf h.2.2.2])
  | derivative v f ihf => exact .node (hslope h.1) (by simp [ihf h.2])
  | derivativeAt v p f ihp ihf =>
    have hat : (Sexp.atom "at").Plain := Sexp.plain_of_isWord (by decide)
    exact .node (hslope h.1) (by simp [hat, ihp h.2.1, ihf h.2.2])

/-! ## Reading structures as trees -/

/-- The tree that a structure is the text of. What is the text of one of `xs` is this number, and other
names are variables. The head and the number of parts tell what a node is. -/
def Sexp.tree? (xs : List Float) : Sexp → Option Expr
  | atom s =>
    match xs.find? fun x => floatText x = s with
    | some x => some (.number x)
    | none => some (.ident s)
  | node h [a] => do
    let x ← a.tree? xs
    if h = "sqrt" then return .sqrt x
    match h.toList with
    | 'd' :: '/' :: 'd' :: v => return .derivative (String.ofList v) x
    | _ => return .call h x
  | node h [a, b] => do
    let x ← a.tree? xs
    let y ← b.tree? xs
    if h = "frac" then return .fraction x y
    return .binary (← Op.ofText? h) x y
  | node h [f, _, p] => do
    return .derivativeAt (String.ofList (h.toList.drop 3)) (← p.tree? xs) (← f.tree? xs)
  | node h [atom v, a, b, f] => do
    let x ← a.tree? xs
    let y ← b.tree? xs
    let z ← f.tree? xs
    match h with
    | "int" => return .integral v x y z
    | "sum" => return .sum v x y z
    | "prod" => return .product v x y z
    | _ => none
  | _ => none

/-- **The structure of a tree's text tells the tree**, if the texts of its finite numbers tell those. -/
theorem Expr.tree_sexp {xs : List Float} {e : Expr} (h : e.IsWritten IsUnsigned)
    (hinj : Set.InjOn floatText {x | x ∈ xs})
    (hxs : ∀ x ∈ xs, IsUnsigned x ∧ x.isFinite = true)
    (hmem : ∀ x ∈ e.numbers, x.isFinite = true → x ∈ xs) :
    e.sexp.tree? xs = some e.nameInfinity := by
  have hword {s : String} (hs : IsWord s.toList) : (Sexp.atom s).tree? xs = some (.ident s) := by
    have hnone : (xs.find? fun x => floatText x = s) = none := by
      refine List.find?_eq_none.2 fun x hx => ?_
      have ⟨hunsigned, hfin⟩ := hxs x hx
      have hne : floatText x ≠ s := fun heq =>
        (isNumeral_floatText hfin hunsigned).not_isWord (heq ▸ hs)
      simpa using hne
    rw [Sexp.tree?, hnone]
  induction e with
  | number x =>
    rcases IsUnsigned.cases h with ⟨hfin, -, hname⟩ | ⟨-, hinf, hname⟩
    · have hx : x ∈ xs := hmem x (by simp [numbers]) hfin
      cases hfind : xs.find? fun y => floatText y = floatText x with
      | none =>
        have hnot := List.find?_eq_none.1 hfind x hx
        simp at hnot
      | some y =>
        have htext : floatText y = floatText x := by simpa using List.find?_some hfind
        rw [sexp, Sexp.tree?, hfind, hname, hinj (List.mem_of_find?_eq_some hfind) hx htext]
    · rw [sexp, hinf, hname]
      exact hword (by decide)
  | ident name => exact hword h
  | binary op l r ihl ihr =>
    simp only [numbers, List.forall_mem_append] at hmem
    have hop : op.text ≠ "frac" := by cases op <;> decide
    simp [sexp, Sexp.tree?, nameInfinity, ihl h.1 hmem.1, ihr h.2 hmem.2, hop]
  | call name a ih =>
    obtain ⟨hletters, hreserved, ha⟩ := h
    have hsqrt : name ≠ "sqrt" := fun heq => hreserved (heq ▸ by decide)
    simp only [sexp, Sexp.tree?, nameInfinity, ih ha hmem, hsqrt, Option.bind_eq_bind,
      Option.bind_some, if_false]
    split
    · next v hname =>
      -- The head of a derivative has a slash in it.
      have hslash : '/'.isAlpha = true := hletters '/' (by simp [hname])
      cases hslash
    · rfl
  | fraction l r ihl ihr =>
    simp only [numbers, List.forall_mem_append] at hmem
    simp [sexp, Sexp.tree?, nameInfinity, ihl h.1 hmem.1, ihr h.2 hmem.2]
  | sqrt e ih => simp [sexp, Sexp.tree?, nameInfinity, ih h hmem]
  | integral v a b f iha ihb ihf | sum v a b f iha ihb ihf | product v a b f iha ihb ihf =>
    simp only [numbers, List.forall_mem_append] at hmem
    simp [sexp, Sexp.tree?, nameInfinity, iha h.2.1 hmem.1.1, ihb h.2.2.1 hmem.1.2,
      ihf h.2.2.2 hmem.2]
  | derivative v f ihf =>
    have hhead : "d/d" ++ v ≠ "sqrt" := by
      intro heq
      have hchars := congrArg String.toList heq
      simp at hchars
    simp [sexp, Sexp.tree?, nameInfinity, ihf h.2 hmem, hhead]
  | derivativeAt v p f ihp ihf =>
    simp only [numbers, List.forall_mem_append] at hmem
    simp [sexp, Sexp.tree?, nameInfinity, ihp h.2.1 hmem.1, ihf h.2.2 hmem.2]

/-! ## Lines -/

namespace Statement

/-- The expression of a line. -/
def value : Statement → Expr
  | expr e => e
  | assign _ e => e

/-- A line with the variable `inf` for each number that is too great. -/
def nameInfinity : Statement → Statement
  | expr e => expr e.nameInfinity
  | assign name e => assign name e.nameInfinity

/-- The structure of a line's text. -/
def sexp : Statement → Sexp
  | expr e => e.sexp
  | assign name e => .node "define" [.atom name, e.sexp]

theorem toList_text (st : Statement) : st.text.toList = st.sexp.chars := by
  cases st with
  | expr e => exact e.toList_text
  | assign name e => simp [text, sexp, Sexp.chars, Sexp.closeParts, e.toList_text]

theorem text_nameInfinity (st : Statement) : st.nameInfinity.text = st.text := by
  cases st with
  | expr e => exact e.text_nameInfinity
  | assign name e => simp only [nameInfinity, text, e.text_nameInfinity]

end Statement

/-- The line that a structure is the text of. -/
def Sexp.statement? (xs : List Float) : Sexp → Option Statement
  | node "define" [atom name, s] => (s.tree? xs).map (.assign name)
  | s => (s.tree? xs).map .expr

/-- An assignment is not written like an expression: no node of two parts is called like it. -/
theorem Expr.statement_sexp (xs : List Float) (e : Expr) :
    e.sexp.statement? xs = (e.sexp.tree? xs).map .expr := by
  unfold Sexp.statement?
  split
  · next name s heq =>
    cases e with
    | binary op l r => cases op <;> simp [sexp, Op.text] at heq
    | _ => simp [sexp] at heq
  · rfl

theorem Expr.IsWritten.of_mem_numbers {P : Float → Prop} {e : Expr} (h : e.IsWritten P) :
    ∀ x ∈ e.numbers, P x := by
  induction e with
  | number x => exact List.forall_mem_singleton.2 h
  | ident => simp [numbers]
  | binary _ _ _ ihl ihr | fraction _ _ ihl ihr =>
    exact List.forall_mem_append.2 ⟨ihl h.1, ihr h.2⟩
  | call _ _ ih => exact ih h.2.2
  | sqrt _ ih => exact ih h
  | integral _ _ _ _ iha ihb ihf | sum _ _ _ _ iha ihb ihf | product _ _ _ _ iha ihb ihf =>
    have hab := List.forall_mem_append.2 ⟨iha h.2.1, ihb h.2.2.1⟩
    exact List.forall_mem_append.2 ⟨hab, ihf h.2.2.2⟩
  | derivative _ _ ihf => exact ihf h.2
  | derivativeAt _ _ _ ihp ihf => exact List.forall_mem_append.2 ⟨ihp h.2.1, ihf h.2.2⟩

/-- What lines stand for can be written, and its text has no marks but those of its structure. -/
theorem written_of_parseLine {line : String} {st : Statement} (h : parseLine line = .ok st) :
    st.value.IsWritten IsUnsigned ∧ st.sexp.Plain := by
  obtain ⟨ts, hts, hst⟩ := parseLine_eq_ok_iff.1 h
  have hspelled := tokenize_spelled hts
  cases st with
  | expr e =>
    have hw : e.IsWritten IsUnsigned := (parseStatement_eq_expr_iff.1 hst).written hspelled
    exact ⟨hw, e.plain_sexp hw⟩
  | assign name e =>
    obtain ⟨n, q, s, rfl, hn, -, hname, hr⟩ := parseStatement_eq_assign_iff.1 hst
    simp only [List.forall_mem_cons] at hspelled
    have hw : e.IsWritten IsUnsigned := hr.written hspelled.2.2
    have hword : IsWord name.toList := hname ▸ isWord_of_identifier hspelled.1 hn
    refine ⟨hw, .node (List.all_eq_true.1 rfl) ?_⟩
    simp [Sexp.plain_of_isWord hword, e.plain_sexp hw]

/-- A line is read off the structure of its text. -/
theorem Statement.statement_sexp {xs : List Float} {st : Statement}
    (h : st.value.IsWritten IsUnsigned) (hinj : Set.InjOn floatText {x | x ∈ xs})
    (hxs : ∀ x ∈ xs, IsUnsigned x ∧ x.isFinite = true)
    (hmem : ∀ x ∈ st.value.numbers, x.isFinite = true → x ∈ xs) :
    st.sexp.statement? xs = some st.nameInfinity := by
  have htree := st.value.tree_sexp h hinj hxs hmem
  cases st with
  | expr e =>
    show e.sexp.statement? xs = _
    rw [e.statement_sexp, show e.sexp.tree? xs = _ from htree]
    rfl
  | assign name e =>
    show (e.sexp.tree? xs).map (assign name) = _
    rw [show e.sexp.tree? xs = _ from htree]
    rfl

/-- **The text of a line tells what it stands for.** Two lines have the same text in front notation just
if what they stand for is the same but for numbers that are too great, which are written like the
variable `inf`. That finite numbers are told by their texts is assumed of those in the lines. -/
theorem statement_text_eq_iff {l₁ l₂ : String} {s₁ s₂ : Statement} (h₁ : parseLine l₁ = .ok s₁)
    (h₂ : parseLine l₂ = .ok s₂)
    (hinj : Set.InjOn floatText {x | x ∈ s₁.value.numbers ++ s₂.value.numbers ∧ x.isFinite = true}) :
    s₁.text = s₂.text ↔ s₁.nameInfinity = s₂.nameInfinity := by
  obtain ⟨hw₁, hplain₁⟩ := written_of_parseLine h₁
  obtain ⟨hw₂, hplain₂⟩ := written_of_parseLine h₂
  refine ⟨fun htext => ?_, fun h => by rw [← s₁.text_nameInfinity, h, s₂.text_nameInfinity]⟩
  -- The finite numbers of both lines are what names in the texts may be.
  let xs := (s₁.value.numbers ++ s₂.value.numbers).filter Float.isFinite
  have hmem (x : Float) :
      x ∈ xs ↔ x ∈ s₁.value.numbers ++ s₂.value.numbers ∧ x.isFinite = true := List.mem_filter
  have hinj' : Set.InjOn floatText {x | x ∈ xs} := by simpa only [hmem] using hinj
  have hxs : ∀ x ∈ xs, IsUnsigned x ∧ x.isFinite = true := fun x hx =>
    ⟨List.forall_mem_append.2 ⟨hw₁.of_mem_numbers, hw₂.of_mem_numbers⟩ x ((hmem x).1 hx).1,
      ((hmem x).1 hx).2⟩
  have hsexp : s₁.sexp = s₂.sexp := by
    have hends : Sexp.Ends [] := by simp [Sexp.Ends]
    have hchars : s₁.sexp.chars ++ [] = s₂.sexp.chars ++ [] := by
      rw [← s₁.toList_text, ← s₂.toList_text, htext]
    exact (Sexp.chars_append_inj hplain₁ hplain₂ hends hends hchars).1
  have hread₁ := s₁.statement_sexp hw₁ hinj' hxs fun x hx hfin =>
    (hmem x).2 ⟨List.mem_append_left _ hx, hfin⟩
  have hread₂ := s₂.statement_sexp hw₂ hinj' hxs fun x hx hfin =>
    (hmem x).2 ⟨List.mem_append_right _ hx, hfin⟩
  rw [hsexp, hread₂] at hread₁
  exact (Option.some.inj hread₁).symm

/-- A variable called like the word in front of a point, and a derivative at a point. -/
theorem statement_text_eq_iff_point :
    let s₁ : Statement := .expr (.derivative "x" (.binary .mul (.ident "at") (.number 1.5)))
    let s₂ : Statement := .expr (.derivativeAt "x" (.number 1.5) (.ident "at"))
    parseLine "\\frac\x7bd\x7d\x7bdx\x7d at 1.5" = .ok s₁ ∧
      parseLine "\\frac\x7bd\x7d\x7bdx\x7d|_\x7bx=1.5\x7d at" = .ok s₂ ∧
      Set.InjOn floatText {x | x ∈ s₁.value.numbers ++ s₂.value.numbers ∧ x.isFinite = true} ∧
      s₁.nameInfinity ≠ s₂.nameInfinity ∧ s₁.text ≠ s₂.text := by
  intro s₁ s₂
  have h₁ : parseLine "\\frac\x7bd\x7d\x7bdx\x7d at 1.5" = .ok s₁ := by decide +kernel
  have h₂ : parseLine "\\frac\x7bd\x7d\x7bdx\x7d|_\x7bx=1.5\x7d at" = .ok s₂ := by decide +kernel
  have hinj : Set.InjOn floatText
      {x | x ∈ s₁.value.numbers ++ s₂.value.numbers ∧ x.isFinite = true} := by
    intro x hx y hy _
    have hx' : x = 1.5 := by simpa [s₁, s₂, Statement.value, Expr.numbers] using hx.1
    have hy' : y = 1.5 := by simpa [s₁, s₂, Statement.value, Expr.numbers] using hy.1
    rw [hx', hy']
  have hne : s₁.nameInfinity ≠ s₂.nameInfinity := by
    rintro ⟨⟩
  exact ⟨h₁, h₂, hinj, hne, mt (statement_text_eq_iff h₁ h₂ hinj).1 hne⟩

end LatexCalc
