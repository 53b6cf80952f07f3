import LatexCalc.Proofs.Reading.Lookahead
import LatexCalc.Proofs.Surface.Rendering

/-!
# Lines and trees

What is read from the tokens of a line is a tree that can be written as one (`Reads.written`), apart
from numbers that are too great: they are read as infinite. Together with the writing of trees this
says which trees lines stand for (`surface_correspondence`).
-/

namespace LatexCalc

/-! ## Parts of trees that tokens name -/

theorem isUnsigned_of_number {t : Token} {x : Float} (hs : t.IsSpelled) (ht : t.kind = .number)
    (hx : readFloat? t.text = some x) : IsUnsigned x := by
  rw [Token.IsSpelled, ht] at hs
  obtain ⟨y, hy, hunsigned⟩ := readFloat?_numeral hs
  rw [String.ofList_toList, hx] at hy
  cases hy
  exact hunsigned

theorem isUnsigned_of_constant {name : String} {x : Float} (h : constant? name = some x) :
    IsUnsigned x := by
  unfold constant? at h
  split at h
  · cases h
    exact isUnsigned_ofScientific _ _ _
  · cases h
    exact isUnsigned_ofScientific _ _ _
  · cases h

/-- The name of a command that is none of those with a meaning of their own. -/
theorem isFunction_of_command {t : Token} (hs : t.IsSpelled) (ht : t.kind = .function)
    (hn : t.command ∉ headedCommands) :
    (∀ c ∈ t.command.toList, c.isAlpha = true) ∧ t.command ∉ reservedNames := by
  rw [Token.IsSpelled, ht] at hs
  obtain ⟨name, ⟨hletters, hsizing, hproduct⟩, htext⟩ := hs
  have hcommand : t.command = String.ofList name := by
    rw [← command_ofList hletters 0]
    simp only [Token.command, htext, String.toList_ofList]
  rw [hcommand] at hn ⊢
  refine ⟨by rwa [String.toList_ofList], ?_⟩
  simp only [reservedNames, List.mem_append, not_or]
  exact ⟨⟨hn, hproduct⟩, hsizing⟩

theorem isWritten_iteration {P : Float → Prop} {name v : String} {x y f : Expr}
    {make : String → Expr → Expr → Expr → Expr} (hm : iteration? name = some make)
    (hv : IsWord v.toList) (hx : x.IsWritten P) (hy : y.IsWritten P) (hf : f.IsWritten P) :
    (make v x y f).IsWritten P := by
  unfold iteration? at hm
  split at hm
  · cases hm
    exact ⟨hv, hx, hy, hf⟩
  · cases hm
    exact ⟨hv, hx, hy, hf⟩
  · cases hm

/-! ## Readings of spelled tokens -/

variable {ph : Phase} {b : Bool} {ts r : List Token} {e : Expr}

/-- What a reading leaves is spelled if all of it was. -/
theorem Reads.spelled (h : Reads ph b ts e r) (hs : ∀ t ∈ ts, t.IsSpelled) : ∀ t ∈ r, t.IsSpelled :=
  fun t ht => hs t (h.suffix.subset ht)

/-- What a phase of reading makes of trees that can be written. -/
def Phase.Written : Phase → Expr → Prop
  | .climb _ lhs, e => lhs.IsWritten IsUnsigned → e.IsWritten IsUnsigned
  | .expr _, e | .operand, e | .bracketed _, e => e.IsWritten IsUnsigned

/-- **What is read can be written.** -/
theorem Reads.written (h : Reads ph b ts e r) (hs : ∀ t ∈ ts, t.IsSpelled) : ph.Written e := by
  have hzero : IsUnsigned 0 := isUnsigned_ofScientific 0 false 0
  induction h with
  | minus _ hx _ ihx ihe =>
    have hts := (List.forall_mem_cons.1 hs).2
    exact ihe (hx.spelled hts) ⟨hzero, ihx hts⟩
  | plus _ hx _ ihx ihe =>
    have hts := (List.forall_mem_cons.1 hs).2
    exact ihe (hx.spelled hts) (ihx hts)
  | unsigned hx _ ihx ihe => exact ihe (hx.spelled hs) (ihx hs)
  | stop => exact id
  | operator _ _ hx _ ihx ihe =>
    intro hlhs
    have hts := (List.forall_mem_cons.1 hs).2
    exact ihe (hx.spelled hts) ⟨hlhs, ihx hts⟩
  | factor _ _ hx _ ihx ihe =>
    intro hlhs
    exact ihe (hx.spelled hs) ⟨hlhs, ihx hs⟩
  | bracketed _ _ _ ihx => exact ihx (List.forall_mem_cons.1 hs).2
  | number ht hx => exact isUnsigned_of_number (hs _ List.mem_cons_self) ht hx
  | name ht => exact isWord_of_identifier (hs _ List.mem_cons_self) ht
  | constant _ hx => exact isUnsigned_of_constant hx
  | brackets _ ihx => exact ihx hs
  | fraction _ _ hx _ ihx ihy =>
    have hts := (List.forall_mem_cons.1 hs).2
    exact ⟨ihx hts, ihy (hx.spelled hts)⟩
  | sqrt _ _ ihx => exact ihx (List.forall_mem_cons.1 hs).2
  | call ht hn _ ihx =>
    have ⟨htok, hts⟩ := List.forall_mem_cons.1 hs
    have hfunction := isFunction_of_command htok ht hn
    exact ⟨hfunction.1, hfunction.2, ihx hts⟩
  | integral _ hx hy hf hd hv ihx ihy ihf =>
    have hts := (List.forall_mem_cons.1 hs).2
    have hm := hx.spelled hts
    have hk := hy.spelled hm
    have hword := isWord_of_differential (hf.spelled hk _ List.mem_cons_self)
      (kind_of_startsDifferential hd) hv
    exact ⟨hword, ihx hts, ihy hm, ihf hk⟩
  | integralScripts _ _ hx _ hy hf hd hv ihx ihy ihf =>
    have hts := (List.forall_mem_cons.1 (List.forall_mem_cons.1 hs).2).2
    have hm := (List.forall_mem_cons.1 (hx.spelled hts)).2
    have hk := hy.spelled hm
    have hword := isWord_of_differential (hf.spelled hk _ List.mem_cons_self)
      (kind_of_startsDifferential hd) hv
    exact ⟨hword, ihx hts, ihy hm, ihf hk⟩
  | iteration _ hm _ hv _ hx hy _ ihx ihy ihf =>
    simp only [List.forall_mem_cons] at hs
    obtain ⟨-, -, hvs, -, hts⟩ := hs
    have hk := hy.spelled (hx.spelled hts)
    exact isWritten_iteration hm (isWord_of_identifier hvs hv) (ihx hts) (ihy (hx.spelled hts)) (ihf hk)
  | iterationScripts _ hm _ _ hv _ hx _ _ hy _ ihx ihy ihf =>
    simp only [List.forall_mem_cons] at hs
    obtain ⟨-, -, -, hvs, -, hts⟩ := hs
    have hrest := hx.spelled hts
    simp only [List.forall_mem_cons] at hrest
    have hk := hy.spelled hrest.2.2
    exact isWritten_iteration hm (isWord_of_identifier hvs hv) (ihx hts) (ihy hrest.2.2) (ihf hk)
  | derivative _ hd _ ihf =>
    have hts := (List.forall_mem_cons.1 hs).2
    exact ⟨isWord_of_derivativeVariable hts hd, ihf fun t ht => hts t (List.mem_of_mem_drop ht)⟩
  | derivativeAt _ hd hdrop _ _ _ _ _ _ hx _ _ ihx ihf =>
    have hts := (List.forall_mem_cons.1 hs).2
    have hbelow (t : Token) (ht : t ∈ List.drop 6 _) : t.IsSpelled := hts t (List.mem_of_mem_drop ht)
    rw [hdrop] at hbelow
    simp only [List.forall_mem_cons] at hbelow
    obtain ⟨-, -, -, -, -, hk⟩ := hbelow
    have hm := (List.forall_mem_cons.1 (hx.spelled hk)).2
    exact ⟨isWord_of_derivativeVariable hts hd, ihx hk, ihf hm⟩

/-! ## Lines -/

/-- A numeral is read as a finite number, or as infinite. -/
theorem IsUnsigned.isFinite_or_isInf {x : Float} (h : IsUnsigned x) :
    (x.isFinite = true ∨ x.isInf = true) ∧ IsUnsigned x := by
  refine ⟨?_, h⟩
  show x.toModel.unpack.isFinite = true ∨ x.toModel.unpack.isInf = true
  unfold IsUnsigned at h
  cases hx : x.toModel.unpack with
  | notANumber =>
    rw [hx] at h
    exact h.elim
  | infinity s => exact .inr rfl
  | zero s | finite s m e hm => exact .inl rfl

theorem Expr.IsWritten.mono {P Q : Float → Prop} (hPQ : ∀ x, P x → Q x) {e : Expr}
    (h : e.IsWritten P) : e.IsWritten Q := by
  induction e with
  | number x => exact hPQ x h
  | ident => exact h
  | binary _ _ _ ihl ihr => exact ⟨ihl h.1, ihr h.2⟩
  | call _ _ ih => exact ⟨h.1, h.2.1, ih h.2.2⟩
  | fraction _ _ ihl ihr => exact ⟨ihl h.1, ihr h.2⟩
  | sqrt _ ih => exact ih h
  | integral _ _ _ _ iha ihb ihf | sum _ _ _ _ iha ihb ihf | product _ _ _ _ iha ihb ihf =>
    exact ⟨h.1, iha h.2.1, ihb h.2.2.1, ihf h.2.2.2⟩
  | derivative _ _ ihf => exact ⟨h.1, ihf h.2⟩
  | derivativeAt _ _ _ ihp ihf => exact ⟨h.1, ihp h.2.1, ihf h.2.2⟩

/-- **Lines and trees correspond.** Take the trees whose variables are words of letters, whose calls
are of functions, and whose numbers have a clear sign bit. Such a tree, if its numbers are finite and
are what their text is read as, is what the line that writes it stands for; and each tree that a line
stands for, by itself or as the value of an assignment, is such a tree, its numbers being finite or
infinite. -/
theorem surface_correspondence :
    (∀ e : Expr, (e.IsWritten fun x => x.isFinite = true ∧ IsUnsigned x) →
      (∀ x ∈ e.numbers, readFloat? (floatText x) = some x) →
      parseLine e.surface = .ok (.expr e)) ∧
    ∀ line e, (parseLine line = .ok (.expr e) ∨ ∃ name, parseLine line = .ok (.assign name e)) →
      e.IsWritten fun x => (x.isFinite = true ∨ x.isInf = true) ∧ IsUnsigned x := by
  refine ⟨fun e => e.parseLine_surface, fun line e h => ?_⟩
  have hwritten {ts s : List Token} (hts : tokenize line = .ok ts) (hs : s <:+ ts)
      (hr : Reads (.expr 0) false s e []) : e.IsWritten IsUnsigned :=
    hr.written fun t ht => tokenize_spelled hts t (hs.subset ht)
  refine Expr.IsWritten.mono (fun x => IsUnsigned.isFinite_or_isInf) ?_
  rcases h with h | ⟨name, h⟩
  · obtain ⟨ts, hts, hst⟩ := parseLine_eq_ok_iff.1 h
    exact hwritten hts (List.suffix_refl ts) (parseStatement_eq_expr_iff.1 hst)
  · obtain ⟨ts, hts, hst⟩ := parseLine_eq_ok_iff.1 h
    obtain ⟨n, q, s, rfl, -, -, -, hr⟩ := parseStatement_eq_assign_iff.1 hst
    exact hwritten hts (List.suffix_append [n, q] s) hr

/-- A product, from its tree to a line and back. -/
theorem surface_correspondence_product :
    let e : Expr := .binary .mul (.number 1.5) (.ident "x")
    (e.IsWritten fun x => x.isFinite = true ∧ IsUnsigned x) ∧
      (∀ x ∈ e.numbers, readFloat? (floatText x) = some x) ∧ parseLine e.surface = .ok (.expr e) ∧
      e.IsWritten fun x => (x.isFinite = true ∨ x.isInf = true) ∧ IsUnsigned x := by
  intro e
  have hw : e.IsWritten fun x => x.isFinite = true ∧ IsUnsigned x := by
    have hx : IsWord ['x'] := by decide
    exact ⟨⟨by decide, isUnsigned_ofScientific _ _ _⟩, hx⟩
  have hread : ∀ x ∈ e.numbers, readFloat? (floatText x) = some x := by decide +kernel
  have hline := surface_correspondence.1 e hw hread
  exact ⟨hw, hread, hline, surface_correspondence.2 _ e (.inl hline)⟩

end LatexCalc
