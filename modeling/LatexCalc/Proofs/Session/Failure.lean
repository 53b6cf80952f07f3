import LatexCalc.Proofs.Reading.Completion
import LatexCalc.Proofs.Session.Assignment
import LatexCalc.Proofs.Token.Truncation

/-!
# Where lines fail

A line that has tokens and stands for no statement fails at a token, or at its end
(`parseStatement_refusal`). What is in front of this place can be completed to a line that stands for a
statement, unless it goes on behind a script with an operand that has no end of its own
(`parseLine_failure`).
-/

namespace LatexCalc

/-! ## Tokens that are a statement -/

/-- The tokens of the value in a statement: those behind a name and an equality sign, or all of them. -/
def valueTokens (ts : List Token) : List Token :=
  match ts with
  | name :: equal :: es => if name.kind = .identifier ∧ equal.kind = .equal then es else ts
  | _ => ts

/-- The tokens are those of a statement. -/
def Accepted (ts : List Token) : Prop :=
  refusal? [.expr 0 false] (valueTokens ts) = none

section

variable {line : String} {name equal : Token} {ts es us vs : List Token}

theorem valueTokens_assignment (hn : name.kind = .identifier) (hq : equal.kind = .equal)
    (es : List Token) : valueTokens (name :: equal :: es) = es :=
  if_pos ⟨hn, hq⟩

theorem valueTokens_eq_or (ts : List Token) :
    (∃ name equal es, name.kind = .identifier ∧ equal.kind = .equal ∧ ts = name :: equal :: es) ∨
      (∀ name equal es, ts = name :: equal :: es →
        ¬(name.kind = .identifier ∧ equal.kind = .equal)) ∧ valueTokens ts = ts := by
  unfold valueTokens
  split
  · next name equal es =>
    split
    · next hk => exact .inl ⟨name, equal, es, hk.1, hk.2, rfl⟩
    · next hk =>
      refine .inr ⟨fun _ _ _ heq => ?_, rfl⟩
      cases heq
      exact hk
  · next hno => exact .inr ⟨fun name equal es heq => absurd heq (hno name equal es), rfl⟩

/-- An assignment is no expression. -/
theorem refusal_assignment (hn : name.kind = .identifier) (hq : equal.kind = .equal)
    (es : List Token) : refusal? [.expr 0 false] (name :: equal :: es) ≠ none := by
  have hname : feed name (equal :: es) [.expr 0 false] = some [.rest 0 false] := by
    simp [feed, Demand.Over, Demand.more, Demand.ofExpr, Demand.ofOperand, hn]
  have hequal : feed equal es [.rest 0 false] = none := by
    have hover : (Demand.rest 0 false).Over (equal :: es) := by
      simp [Demand.Over, Stops, juxtaposes, hq, TokenKind.startsOperand]
    rw [feed_over hover]
    rfl
  rw [refusal_taken hname, refusal_refused hequal]
  exact Option.some_ne_none _

theorem accepted_of_refusal (h : refusal? [.expr 0 false] ts = none) : Accepted ts := by
  rcases valueTokens_eq_or ts with ⟨name, equal, es, hn, hq, rfl⟩ | ⟨-, hvalue⟩
  · exact absurd h (refusal_assignment hn hq es)
  · rwa [Accepted, hvalue]

/-- A statement is read as its value is. -/
theorem exists_parseStatement_eq (line : String) (ts : List Token) :
    ∃ make : Expr → Statement, parseStatement line ts = (parse line (valueTokens ts)).map make := by
  rcases valueTokens_eq_or ts with ⟨name, equal, es, hn, hq, rfl⟩ | ⟨hno, hvalue⟩
  · have htokens : es.map (Token.moved 0) = es := List.map_id es
    have herror (e : ParseError) : e.moved 0 = e := by cases e <;> rfl
    have hsize : line.utf8ByteSize = line.utf8ByteSize + 0 := rfl
    have hstatement := parseStatement_assignment name equal hn hq hsize es
    rw [htokens] at hstatement
    refine ⟨.assign name.text, ?_⟩
    rw [hstatement, valueTokens_assignment hn hq]
    cases parse line es with
    | ok e => rfl
    | error e => exact congrArg Except.error (herror e)
  · exact ⟨.expr, by rw [parseStatement_of_not_assignment hno, hvalue]⟩

/-- **A statement fails where its tokens are refused.** -/
theorem parseStatement_refusal (line : String) (ts : List Token) :
    match parseStatement line ts with
    | .ok _ => Accepted ts
    | .error e => ∃ us, refusal? [.expr 0 false] (valueTokens ts) = some us ∧
        e.At line.utf8ByteSize us := by
  have hrefusal := parse_refusal line (valueTokens ts)
  obtain ⟨make, hmake⟩ := exists_parseStatement_eq line ts
  rw [hmake]
  cases hparse : parse line (valueTokens ts) with
  | ok e =>
    rw [hparse] at hrefusal
    exact hrefusal
  | error e =>
    rw [hparse] at hrefusal
    exact hrefusal

/-- A line stands for a statement if its tokens are one. -/
theorem exists_parseLine_iff (h : tokenize line = .ok ts) :
    (∃ st, parseLine line = .ok st) ↔ Accepted ts := by
  have hrefusal := parseStatement_refusal line ts
  simp only [parseLine_eq_ok_iff, h]
  cases hst : parseStatement line ts with
  | ok st =>
    rw [hst] at hrefusal
    simp [hst, hrefusal]
  | error e =>
    rw [hst] at hrefusal
    obtain ⟨us, hus, -⟩ := hrefusal
    simp [hst, Accepted, hus]

theorem EndsInScript.append (h : EndsInScript us) (ts : List Token) : EndsInScript (ts ++ us) := by
  obtain ⟨u, t, rfl, ht⟩ := h
  exact ⟨ts ++ u, t, (List.append_assoc _ _ _).symm, ht⟩

/-- Tokens of an expression that end in a script do not begin an assignment. -/
theorem EndsInScript.not_assignment {ws : List Token} (h : EndsInScript us)
    (hnone : refusal? [.expr 0 false] (us ++ ws) = none) (vs : List Token) (name equal : Token)
    (es : List Token) (heq : us ++ vs = name :: equal :: es) :
    ¬(name.kind = .identifier ∧ equal.kind = .equal) := by
  rintro ⟨hn, hq⟩
  obtain ⟨u, s, rfl, hs⟩ := h
  have hkind : s.kind ≠ .identifier ∧ s.kind ≠ .equal := by
    rcases hs with hk | hk
    · simp [hk]
    · simp [hk.1]
  rcases u with _ | ⟨x, _ | ⟨y, u⟩⟩
  · cases heq
    exact hkind.1 hn
  · cases heq
    exact hkind.2 hq
  · cases heq
    exact refusal_assignment hn hq _ hnone

/-- **Tokens before a failure in a statement.** The tokens in front of those that are refused can be
completed, or they begin with some that can, but not together with the operand of a script that
follows. -/
theorem accepted_or_caught (hs : ∀ t ∈ ts, t.IsSpelled)
    (h : refusal? [.expr 0 false] (valueTokens ts) = some vs) :
    ∃ us, ts = us ++ vs ∧
      ((∃ ws, (∀ t ∈ ws, t.IsSpelled) ∧ Accepted (us ++ ws)) ∨
        ∃ a q w, us = a ++ q ++ w ∧ EndsInScript a ∧ IsOpenHead q ∧
          (∃ ws, (∀ t ∈ ws, t.IsSpelled) ∧ Accepted (a ++ ws)) ∧ ∀ ws, ¬Accepted (a ++ (q ++ ws))) := by
  rcases valueTokens_eq_or ts with ⟨name, equal, es, hn, hq, rfl⟩ | ⟨-, hvalue⟩
  · have hassign (ws : List Token) :
        Accepted (name :: equal :: ws) ↔ refusal? [.expr 0 false] ws = none := by
      rw [Accepted, valueTokens_assignment hn hq]
    rw [valueTokens_assignment hn hq] at h
    have hes : ∀ t ∈ es, t.IsSpelled := fun t ht => hs t (by simp [ht])
    obtain ⟨us, rfl, hus⟩ := completed_or_caught hes h
    refine ⟨name :: equal :: us, rfl, ?_⟩
    rcases hus with ⟨ws, hws, hnone⟩ | ⟨a, q, w, rfl, hscript, hopen, ⟨ws, hws, hnone⟩, hdead⟩
    · exact .inl ⟨ws, hws, (hassign _).2 hnone⟩
    · exact .inr ⟨name :: equal :: a, q, w, rfl, hscript.append [name, equal], hopen,
        ⟨ws, hws, (hassign _).2 hnone⟩, fun ws => mt (hassign _).1 (hdead ws)⟩
  · rw [hvalue] at h
    obtain ⟨us, rfl, hus⟩ := completed_or_caught hs h
    refine ⟨us, rfl, ?_⟩
    rcases hus with ⟨ws, hws, hnone⟩ | ⟨a, q, w, rfl, hscript, hopen, ⟨ws, hws, hnone⟩, hdead⟩
    · exact .inl ⟨ws, hws, accepted_of_refusal hnone⟩
    · refine .inr ⟨a, q, w, rfl, hscript, hopen, ⟨ws, hws, accepted_of_refusal hnone⟩, fun ks => ?_⟩
      have hno := hscript.not_assignment hnone (q ++ ks)
      rcases valueTokens_eq_or (a ++ (q ++ ks)) with ⟨name, equal, es, hn, hq, heq⟩ | ⟨-, hvalue⟩
      · exact absurd ⟨hn, hq⟩ (hno name equal es heq)
      · rw [Accepted, hvalue]
        exact hdead ks

/-! ## Lines -/

/-- There is a line that stands for a statement and begins with these tokens, wherever they stand. -/
def Completable (us : List Token) : Prop :=
  ∃ line ts st, tokenize line = .ok ts ∧ parseLine line = .ok st ∧
    us.map Token.bare <+: ts.map Token.bare

theorem valueTokens_bare (ts : List Token) :
    valueTokens (ts.map Token.bare) = (valueTokens ts).map Token.bare := by
  rcases ts with _ | ⟨name, _ | ⟨equal, es⟩⟩
  · rfl
  · rfl
  · have hk (t : Token) : t.bare.kind = t.kind := rfl
    simp only [List.map_cons, valueTokens, hk]
    split <;> rfl

/-- Where tokens stand makes no difference. -/
theorem accepted_bare : Accepted (ts.map Token.bare) ↔ Accepted ts := by
  have hk (t : Token) : t.bare.kind = t.kind := rfl
  have ht (t : Token) : t.bare.text = t.text := rfl
  rw [Accepted, valueTokens_bare, refusal_map hk ht, Option.map_eq_none_iff, Accepted]

theorem accepted_congr (h : us.map Token.bare = vs.map Token.bare) : Accepted us ↔ Accepted vs := by
  rw [← accepted_bare, h, accepted_bare]

theorem completable_of_accepted {ws : List Token} (hs : ∀ t ∈ us ++ ws, t.IsSpelled)
    (h : Accepted (us ++ ws)) : Completable us := by
  have hempty : tokenize "" = .ok [] := by
    rw [tokenize_eq_ok_iff, items, String.toList_empty, itemsFrom]
    rfl
  obtain ⟨vs, hvs, hbare⟩ := tokenize_append_spaced hempty hs
  obtain ⟨st, hst⟩ := (exists_parseLine_iff hvs).2 ((accepted_congr hbare).2 h)
  refine ⟨_, vs, st, hvs, hst, ?_⟩
  rw [hbare, List.map_append]
  exact List.prefix_append _ _

theorem not_completable (h : ∀ ws, ¬Accepted (us ++ ws)) : ¬Completable us := by
  rintro ⟨line, ts, st, hts, hst, r, hr⟩
  have haccepted := (exists_parseLine_iff hts).1 ⟨st, hst⟩
  refine h (ts.drop us.length) ((accepted_congr ?_).2 haccepted)
  rw [List.map_append, List.map_drop, ← hr, List.drop_left' (List.length_map _)]

/-- **Lines fail at the first token that cannot go on**, with one exception. Where a line fails, with a
remark on the byte `l.offset`, the part of the line in front of this byte can be completed to a line that
stands for a statement; it is the whole line if the line ends too early. Or the tokens in front of it
contain, behind the sign of a script, the command of a sum or product, or that of a fraction with the
header of a derivative; the tokens `a` up to this sign can be completed, but not the tokens `a ++ q` up
to the command or header. -/
theorem parseLine_failure {line : String} {cause : ParseError} {l : Label}
    (h : parseLine line = .error (.parse cause)) (hl : l ∈ cause.diagnostic.labels) :
    ∃ before behind us, line = before ++ behind ∧ before.utf8ByteSize = l.offset ∧
      ((∃ x size, cause = .unexpectedEnd x size) → behind = "") ∧ tokenize before = .ok us ∧
      ((∃ s st, parseLine (before ++ s) = .ok st) ∨
        ∃ a q w, us = a ++ q ++ w ∧ EndsInScript a ∧ IsOpenHead q ∧ Completable a ∧
          ¬Completable (a ++ q)) := by
  obtain ⟨ts, hts, hst⟩ := parseLine_eq_parse_iff.1 h
  have hs := tokenize_spelled hts
  have hrefusal := parseStatement_refusal line ts
  rw [hst] at hrefusal
  obtain ⟨vs, hvs, hat⟩ := hrefusal
  obtain ⟨us, rfl, hus⟩ := accepted_or_caught hs hvs
  obtain ⟨before, behind, hline, hoffset, hend, hbefore⟩ : ∃ before behind, line = before ++ behind ∧
      before.utf8ByteSize = l.offset ∧ ((∃ x size, cause = .unexpectedEnd x size) → behind = "") ∧
      tokenize before = .ok us := by
    cases hat with
    | ending x =>
      obtain rfl := List.mem_singleton.1 hl
      rw [List.append_nil] at hts
      exact ⟨line, "", String.append_empty.symm, rfl, fun _ => rfl, hts⟩
    | token x t vs | trailing t vs | mismatched v t vs =>
      obtain rfl := List.mem_singleton.1 hl
      obtain ⟨before, behind, hline, hoffset, hbefore⟩ := exists_tokenize_before hts
      exact ⟨before, behind, hline, hoffset, by simp, hbefore⟩
  refine ⟨before, behind, us, hline, hoffset, hend, hbefore, ?_⟩
  rcases hus with ⟨ws, hws, haccepted⟩ | ⟨a, q, w, rfl, hscript, hopen, ⟨ws, hws, haccepted⟩, hdead⟩
  · obtain ⟨ws', htokens, hbare⟩ := tokenize_append_spaced hbefore hws
    refine .inl ⟨_, (exists_parseLine_iff htokens).2 ((accepted_congr ?_).2 haccepted)⟩
    rw [List.map_append, hbare, List.map_append]
  · refine .inr ⟨a, q, w, rfl, hscript, hopen, completable_of_accepted ?_ haccepted,
      not_completable fun ks => ?_⟩
    · refine List.forall_mem_append.2 ⟨fun t ht => hs t ?_, hws⟩
      simp [ht]
    · rw [List.append_assoc]
      exact hdead ks

/-- A bracket is open behind an integral that is not yet at its end. -/
theorem parseLine_failure_bracket :
    let line := "\\int\x7b0\x7d\x7b1\x7d (x"
    let cause := ParseError.unexpectedEnd (.token .parenClose) line.utf8ByteSize
    parseLine line = .error (.parse cause) ∧
      cause.diagnostic.labels = [⟨"input ends here", line.utf8ByteSize, 0⟩] ∧
      ∃ s st, parseLine (line ++ s) = .ok st := by
  intro line cause
  have hline : parseLine line = .error (.parse cause) := by decide +kernel
  have htokens : tokenize line = .ok [⟨.function, "\\int", 0⟩, ⟨.braceOpen, "\x7b", 4⟩,
      ⟨.number, "0", 5⟩, ⟨.braceClose, "\x7d", 6⟩, ⟨.braceOpen, "\x7b", 7⟩, ⟨.number, "1", 8⟩,
      ⟨.braceClose, "\x7d", 9⟩, ⟨.parenOpen, "(", 11⟩, ⟨.identifier, "x", 12⟩] := by decide +kernel
  refine ⟨hline, rfl, ?_⟩
  obtain ⟨before, behind, us, hwhole, -, hend, hus, hcases⟩ :=
    parseLine_failure hline List.mem_cons_self
  obtain rfl := hend ⟨_, _, rfl⟩
  rw [String.append_empty] at hwhole
  subst hwhole
  refine hcases.resolve_right ?_
  -- There is no script among the tokens.
  rintro ⟨a, q, w, rfl, ⟨u, t, rfl, ht⟩, -⟩
  have hmem : t ∈ u ++ [t] ++ q ++ w := by simp
  rw [← Except.ok.inj (htokens.symm.trans hus)] at hmem
  simp only [List.mem_cons, List.not_mem_nil, or_false] at hmem
  rcases hmem with rfl | rfl | rfl | rfl | rfl | rfl | rfl | rfl | rfl <;> simp [Token.IsOp] at ht

/-- The lower bound of an integral is a sum, which takes the sign in front of the upper bound as its
own. The line ends too early, and cannot go on. -/
theorem parseLine_failure_script :
    let line := "\\int_\\sum\x7bi\x7d\x7b0\x7d\x7b1\x7d x"
    let cause := ParseError.unexpectedEnd (.op .pow) line.utf8ByteSize
    parseLine line = .error (.parse cause) ∧
      cause.diagnostic.labels = [⟨"input ends here", line.utf8ByteSize, 0⟩] ∧
      ¬∃ s st, parseLine (line ++ s) = .ok st := by
  intro line cause
  refine ⟨by decide +kernel, rfl, ?_⟩
  rintro ⟨s, st, hst⟩
  obtain ⟨ts, hts, -⟩ := parseLine_eq_ok_iff.1 hst
  have haccepted := (exists_parseLine_iff hts).1 ⟨st, hst⟩
  -- Whatever follows, these are the first tokens.
  let rest := '\x7b' :: ("i\x7d\x7b0\x7d\x7b1\x7d x".toList ++ s.toList)
  have hline : (line ++ s).toList =
      (['\\', 'i', 'n', 't'] ++ (['_'] ++ ['\\', 's', 'u', 'm'])) ++ rest := by
    rw [String.toList_append]
    have hchars : line.toList = (['\\', 'i', 'n', 't'] ++ (['_'] ++ ['\\', 's', 'u', 'm'])) ++
        '\x7b' :: "i\x7d\x7b0\x7d\x7b1\x7d x".toList := by decide
    exact congrArg (· ++ s.toList) hchars
  have hcut : CutsInto _ (['\\', 'i', 'n', 't'] ++ (['_'] ++ ['\\', 's', 'u', 'm'])) rest :=
    (cutsInto_command (by decide) (apart_cons _ (by decide))).append
      ((cutsInto_symbol '_' .underscore rfl _).append
        (cutsInto_command (by decide) (apart_cons _ (by decide))))
  obtain ⟨_, ws, rfl, _, _, rfl, ⟨o₁, rfl⟩, _, _, rfl, ⟨o₂, rfl⟩, o₃, rfl⟩ :=
    hcut.exists_tokens hline hts
  have hafter : after [.expr 0 false] [⟨.function, "\\int", o₁⟩, ⟨.underscore, "_", o₂⟩]
      ([⟨.function, "\\sum", o₃⟩] ++ ws) =
        some [.operand false, .power, .operand false, .body true, .differential, .rest 0 false] := by
    have hint : Token.command ⟨.function, "\\int", o₁⟩ = "int" := by simp [Token.command]
    simp [after, feed, Demand.Over, Demand.more, Demand.ofExpr, Demand.ofOperand, Demand.ofCommand,
      hint]
  have hsum : IsOpenHead [⟨.function, "\\sum", o₃⟩] :=
    .inl ⟨_, rfl, .inl ⟨rfl, by simp [Token.command]⟩⟩
  exact refusal_of_openHead hafter rfl hsum haccepted

end

end LatexCalc
