import LatexCalc.Proofs.Decimal.Unsigned
import LatexCalc.Proofs.Reading.Cuts
import LatexCalc.Proofs.Reading.State
import LatexCalc.Proofs.Session.Line
import LatexCalc.Proofs.Token.Tiling
import LatexCalc.Proofs.Token.Truncation

/-!
# What lines fail for

A line that stands for no statement fails for something that stands in it: a character, a token, or its
end (`parseLine_label`). A token is refused for its kind or for what it says, never because it says
nothing: the operators of a line all have a meaning, and its numbers can be read
(`parseLine_possible`).
-/

namespace LatexCalc

/-! ## Items in a line -/

/-- Where an item says it stands in a line, there are its characters. -/
theorem exists_of_mem_items {line : String} {i : Item} (h : i ∈ items line) :
    ∃ before behind, line = before ++ String.ofList i.chars ++ behind ∧
      before.utf8ByteSize = i.offset := by
  obtain ⟨rest, ⟨before, hline, hoffset⟩, -⟩ := (tiles_itemsFrom 0 line.toList).located i h
  refine ⟨String.ofList before, String.ofList rest, ?_, by rw [hoffset, Nat.zero_add]; rfl⟩
  rw [← String.ofList_append, ← String.ofList_append, List.append_assoc, ← hline, String.ofList_toList]

theorem mem_of_mapM_id_eq_error {ε α : Type} {xs : List (Except ε α)} {e : ε}
    (h : xs.mapM id = .error e) : .error e ∈ xs := by
  induction xs with
  | nil => cases h
  | cons x xs ih =>
    rw [List.mapM_cons] at h
    cases x with
    | error e' =>
      cases h
      exact List.mem_cons_self
    | ok a =>
      cases hxs : xs.mapM id with
      | error e' =>
        simp only [hxs, id_eq, bind, Except.bind] at h
        cases h
        exact List.mem_cons_of_mem _ (ih hxs)
      | ok ys =>
        simp only [hxs, id_eq, bind, Except.bind] at h
        cases h

/-! ## Failures of statements -/

namespace Parser

open Parse

/-- A step that fails has a ground. -/
theorem hasGround_of_run {p : Parser} {α : Type} {step : (n : Nat) → Parse n α} {e : ParseError}
    {ts : List Token} (hstep : ∀ n, (step n).Grounded ts) (hts : p.cursor.rest ⊆ ts)
    (h : (p.run step).1 = .error e) : e.HasGround ts (p.run step).2.cursor := by
  have hground := hstep (p.cursor.rest.length + 1) ⟨p.cursor, Nat.lt_succ_self _⟩ hts
  unfold run at h ⊢
  cases hr : step (p.cursor.rest.length + 1) ⟨p.cursor, Nat.lt_succ_self _⟩ with
  | ok a d =>
    rw [hr] at h
    cases h
  | error e' d =>
    rw [hr] at h hground
    cases h
    cases hground with
    | error hd he => exact he

end Parser

/-- **Statements fail for a token or at the end**: because tokens are left, or with a ground. -/
theorem hasGround_of_parseStatement {line : String} {ts : List Token} {e : ParseError}
    (h : parseStatement line ts = .error e) :
    (∃ t ∈ ts, e = .trailingInput t) ∨
      e.HasGround ts (Parser.ofTokens line ts).statement.2.cursor := by
  let p := Parser.ofTokens line ts
  obtain ⟨step, hstatement, hstep⟩ := p.exists_statement_eq
  have hgoes : p.cursor.Reaches p.statement.2.cursor := (p.goesOn_after .statement).2
  have hfinishing : Parser.finishing p.statement = .error e := h
  cases houtcome : p.statement.1 with
  | error e' =>
    rw [Parser.finishing, houtcome] at hfinishing
    cases hfinishing
    rw [hstatement] at houtcome ⊢
    exact .inr (Parser.hasGround_of_run (fun n => hstep n ts) (List.Subset.refl ts) houtcome)
  | ok st =>
    rw [Parser.finishing, houtcome] at hfinishing
    cases hrest : p.statement.2.cursor.rest with
    | nil =>
      simp only [Parser.finish, hrest, bind, Except.bind, pure, Except.pure] at hfinishing
      cases hfinishing
    | cons t us =>
      simp only [Parser.finish, hrest, bind, Except.bind] at hfinishing
      cases hfinishing
      exact .inl ⟨t, hgoes.suffix.subset (hrest ▸ List.mem_cons_self), rfl⟩

/-- Where the end comes too early, it is the end of the line, and all tokens are taken. -/
theorem end_of_parseStatement {line : String} {ts : List Token} {x : Expectation} {o : Nat}
    (h : parseStatement line ts = .error (.unexpectedEnd x o)) :
    o = line.utf8ByteSize ∧ (Parser.ofTokens line ts).statement.2.cursor.index = ts.length := by
  have hgoes : (Parser.ofTokens line ts).cursor.Reaches (Parser.ofTokens line ts).statement.2.cursor :=
    ((Parser.ofTokens line ts).goesOn_after .statement).2
  rcases hasGround_of_parseStatement h with ⟨t, -, heq⟩ | hground
  · cases heq
  · cases hground with
    | ending x hrest =>
      have hindex := hgoes.index_add
      rw [hrest] at hindex
      exact ⟨hgoes.size_eq, hindex.trans (Nat.zero_add _)⟩

/-- The token that a failure is about. -/
def ParseError.found? : ParseError → Option Token
  | unexpectedToken _ t | trailingInput t | mismatchedVariable _ t => some t
  | unexpectedEnd _ _ => none

/-- A failure that is about a token is about one of those that are there. -/
theorem mem_of_parseStatement {line : String} {ts : List Token} {e : ParseError} {t : Token}
    (h : parseStatement line ts = .error e) (ht : e.found? = some t) : t ∈ ts := by
  rcases hasGround_of_parseStatement h with ⟨u, hu, rfl⟩ | hground
  · cases ht
    exact hu
  · cases hground with
    | token hu _ _ =>
      cases ht
      exact hu
    | ending x _ => cases ht
    | mismatched v hu =>
      cases ht
      exact hu

/-! ## Remarks on lines -/

/-- The remark is on a text where it stands in the line. -/
def Label.IsOn (l : Label) (line text : String) : Prop :=
  ∃ before behind, line = before ++ text ++ behind ∧ before.utf8ByteSize = l.offset ∧
    text.utf8ByteSize = l.length

/-- The remark is on a token of the line, and on all of it. -/
def Label.IsOnToken (l : Label) (line : String) (t : Token) : Prop :=
  (∃ ts, tokenize line = .ok ts ∧ t ∈ ts) ∧ l.offset = t.offset ∧ l.length = t.size ∧
    0 < l.length ∧ l.IsOn line t.text

/-- What the remark on a line that stands for no statement is on: the character that fits nowhere, the
token that is named, or the end of the line, to which all tokens were taken. -/
def LineError.IsMarked (line : String) (l : Label) : LineError → Prop
  | lex e => l.IsOn line (String.singleton e.char)
  | parse (.unexpectedToken _ t) | parse (.trailingInput t) | parse (.mismatchedVariable _ t) =>
    l.IsOnToken line t
  | parse (.unexpectedEnd _ _) => l.offset = line.utf8ByteSize ∧ l.length = 0 ∧
    ∃ ts, tokenize line = .ok ts ∧ (Parser.ofTokens line ts).statement.2.cursor.index = ts.length
  | eval _ | limits _ => False

section

variable {line : String} {ts : List Token}

theorem isOn_stray {e : LexError} (h : tokenize line = .error e) (text : String) :
    Label.IsOn ⟨text, e.offset, e.char.utf8Size⟩ line (String.singleton e.char) := by
  obtain ⟨before, behind, hline, hoffset⟩ := exists_of_mem_items (mem_of_mapM_id_eq_error h)
  exact ⟨before, behind, hline, hoffset, String.utf8ByteSize_singleton⟩

theorem isOnToken_labelAt {t : Token} (hts : tokenize line = .ok ts) (ht : t ∈ ts) (text : String) :
    (ParseError.labelAt t text).IsOnToken line t := by
  have hmem : .ok t ∈ items line := by
    rw [tokenize_eq_ok_iff.1 hts]
    exact List.mem_map_of_mem ht
  obtain ⟨before, behind, hline, hoffset⟩ := exists_of_mem_items hmem
  have hchars : String.ofList (Item.chars (.ok t)) = t.text := String.ofList_toList
  rw [hchars] at hline
  refine ⟨⟨ts, hts, ht⟩, rfl, rfl, ?_, before, behind, hline, hoffset, rfl⟩
  have hpos := byteSize_pos (tokenize_spelled hts t ht).ne_nil
  rwa [byteSize, String.ofList_toList] at hpos

/-- A line that stands for no statement has no tokens, or tokens that are no statement. -/
theorem cause_of_parseLine {cause : LineError} (h : parseLine line = .error cause) :
    (∃ e, cause = .lex e ∧ tokenize line = .error e) ∨
      ∃ e ts, cause = .parse e ∧ tokenize line = .ok ts ∧ parseStatement line ts = .error e := by
  unfold parseLine at h
  cases htokens : tokenize line with
  | error e =>
    rw [htokens] at h
    cases h
    exact .inl ⟨e, rfl, rfl⟩
  | ok ts =>
    rw [htokens] at h
    cases hst : parseStatement line ts with
    | ok st =>
      simp only [Except.mapError, bind, Except.bind, hst] at h
      cases h
    | error e =>
      simp only [Except.mapError, bind, Except.bind, hst] at h
      cases h
      exact .inr ⟨e, ts, rfl, rfl, hst⟩

/-- **The remark on a failed line is on what it names.** -/
theorem parseLine_label {cause : LineError} (h : parseLine line = .error cause) :
    ∃ l, cause.diagnostic.labels = [l] ∧ cause.IsMarked line l := by
  rcases cause_of_parseLine h with ⟨e, rfl, hlex⟩ | ⟨e, ts, rfl, hts, hst⟩
  · exact ⟨_, rfl, isOn_stray hlex _⟩
  · cases e with
    | unexpectedToken x t =>
      exact ⟨_, rfl, isOnToken_labelAt hts (mem_of_parseStatement hst rfl) _⟩
    | unexpectedEnd x o =>
      obtain ⟨ho, hindex⟩ := end_of_parseStatement hst
      exact ⟨_, rfl, ho, rfl, ts, hts, hindex⟩
    | trailingInput t =>
      exact ⟨_, rfl, isOnToken_labelAt hts (mem_of_parseStatement hst rfl) _⟩
    | mismatchedVariable v t =>
      exact ⟨_, rfl, isOnToken_labelAt hts (mem_of_parseStatement hst rfl) _⟩

/-- Bytes are counted, not characters: the blank in front has three. -/
theorem parseLine_label_mismatched :
    let line := "\u3000\\frac\x7bd\x7d\x7bdx\x7d|_\x7by=1\x7d x"
    let t : Token := ⟨.identifier, "y", 18⟩
    let cause := LineError.parse (.mismatchedVariable "x" t)
    parseLine line = .error cause ∧
      ∃ l, cause.diagnostic.labels = [l] ∧ l.IsOnToken line t := by
  intro line t cause
  have h : parseLine line = .error cause := by decide +kernel
  exact ⟨h, parseLine_label h⟩

/-! ## Failures that do not come up -/

/-- No other expectation is named like these two. -/
theorem Expectation.eq_of_text {x : Expectation} (h : x.text = "an operator" ∨ x.text = "a number") :
    x = .operator ∨ x = .number := by
  cases x with
  | operator => exact .inl rfl
  | number => exact .inr rfl
  | token kind => cases kind <;> exact absurd h (by decide)
  | op o => cases o <;> exact absurd h (by decide)
  | _ => exact absurd h (by decide)

/-- A token that is spelled as an operator has a meaning. -/
theorem Token.IsSpelled.exists_op {t : Token} (hs : t.IsSpelled) (hk : t.kind = .operator) :
    ∃ op, Op.ofText? t.text = some op := by
  rw [Token.IsSpelled, hk] at hs
  obtain ⟨op, hop⟩ := hs
  exact ⟨op, by rwa [String.ofList_toList] at hop⟩

/-- A token that is spelled as a number can be read. -/
theorem Token.IsSpelled.numeral {t : Token} (hs : t.IsSpelled) (hk : t.kind = .number) :
    IsNumeral t.text.toList ∧ ∃ x, readFloat? t.text = some x := by
  rw [Token.IsSpelled, hk] at hs
  obtain ⟨x, hx, -⟩ := readFloat?_numeral hs
  exact ⟨hs, x, by rwa [String.ofList_toList] at hx⟩

/-- Among tokens that are spelled as their kinds tell, none is refused for saying nothing. -/
theorem ne_operator_of_parseStatement {x : Expectation} {t : Token} (hs : ∀ t ∈ ts, t.IsSpelled)
    (h : parseStatement line ts = .error (.unexpectedToken x t)) : x ≠ .operator ∧ x ≠ .number := by
  rcases hasGround_of_parseStatement h with ⟨u, -, heq⟩ | hground
  · cases heq
  · cases hground with
    | token ht hop hnumber =>
      constructor
      · intro hx
        obtain ⟨hk, hnone⟩ := hop hx
        obtain ⟨op, hsome⟩ := (hs t ht).exists_op hk
        rw [hnone] at hsome
        cases hsome
      · intro hx
        obtain ⟨hk, hnone⟩ := hnumber hx
        obtain ⟨-, a, hsome⟩ := (hs t ht).numeral hk
        rw [hnone] at hsome
        cases hsome

/-- **No line fails for what cannot be.** No line is without an operator or a number where a token of
this kind stands, since each has a meaning. And a variable is cut out only where the differential, also
one that is not from a line, has a text behind its first byte. -/
theorem parseLine_possible (line : String) :
    (∀ x t, x.text = "an operator" ∨ x.text = "a number" →
      parseLine line ≠ .error (.parse (.unexpectedToken x t))) ∧
    (∀ t, .ok t ∈ items line →
      (t.kind = .operator → ∃ op, Op.ofText? t.text = some op) ∧
        (t.kind = .number → IsNumeral t.text.toList ∧ ∃ x, readFloat? t.text = some x)) ∧
    ∀ (n : Nat) (alarm : ParseError) (expr : Nat → Parse n Expr) (primary : Parse n Expr),
      Parse.cutIntegral alarm expr primary = Parse.integral expr primary ∧
        Parse.cutFraction alarm expr = Parse.fraction expr := by
  refine ⟨fun x t hx h => ?_, fun t ht => ?_, fun n alarm expr primary => ?_⟩
  · obtain ⟨ts, hts, hst⟩ := parseLine_eq_parse_iff.1 h
    obtain ⟨hop, hnumber⟩ := ne_operator_of_parseStatement (tokenize_spelled hts) hst
    exact (Expectation.eq_of_text hx).elim hop hnumber
  · have hs : t.IsSpelled := mem_itemsFrom_spelled 0 line.toList ht
    exact ⟨hs.exists_op, hs.numeral⟩
  · exact ⟨Parse.cutIntegral_eq expr primary, Parse.cutFraction_eq expr⟩

theorem parseLine_possible_times :
    let line := "2\\times 3.5)"
    (∀ t, parseLine line ≠ .error (.parse (.unexpectedToken .operator t))) ∧
      (∃ op, Op.ofText? "\\times" = some op) ∧ ∃ x, readFloat? "3.5" = some x := by
  intro line
  obtain ⟨hnever, htokens, -⟩ := parseLine_possible line
  refine ⟨fun t => hnever .operator t (.inl rfl), ?_, ?_⟩
  · exact (htokens ⟨.operator, "\\times", 1⟩ (by decide +kernel)).1 rfl
  · exact ((htokens ⟨.number, "3.5", 8⟩ (by decide +kernel)).2 rfl).2

end

end LatexCalc
