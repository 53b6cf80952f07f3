import LatexCalc.Proofs.Reading.Moved
import LatexCalc.Proofs.Reading.Run
import LatexCalc.Proofs.Session.Line
import LatexCalc.Proofs.Token.Cutting
import LatexCalc.Proofs.Token.Separation

/-!
# Assignments

A line that gives a name the value of another line does what that line does and keeps the value
(`evaluateWith_assignment`). The tokens of the other line are moved along by the name and the equality
sign, and nothing else about them changes (`parse_moved`); so it fails as it would alone, and what is
said of the failure is moved along as well (`LineError.diagnostic_moved`).
-/

namespace LatexCalc

/-! ## Failures further on -/

/-- The same remark, `k` bytes further on. -/
def Label.moved (k : Nat) (l : Label) : Label :=
  { l with offset := l.offset + k }

/-- The same account, about what stands `k` bytes further on. -/
def Diagnostic.moved (k : Nat) (d : Diagnostic) : Diagnostic :=
  { d with labels := d.labels.map (Label.moved k) }

/-- The same failure, `k` bytes further on. -/
def LexError.moved (k : Nat) (e : LexError) : LexError :=
  { e with offset := e.offset + k }

/-- The same failure, `k` bytes further on. Failures of evaluation and of limits have no place. -/
def LineError.moved (k : Nat) : LineError → LineError
  | lex cause => lex (cause.moved k)
  | parse cause => parse (cause.moved k)
  | eval cause => eval cause
  | limits cause => limits cause

/-- What is said of a failure is said of the place where it is. -/
theorem LineError.diagnostic_moved (k : Nat) (e : LineError) :
    (e.moved k).diagnostic = e.diagnostic.moved k := by
  cases e with
  | lex cause => rfl
  | parse cause => cases cause <;> rfl
  | eval cause => cases cause <;> rfl
  | limits cause => cases cause <;> rfl

/-! ## Tokens -/

section

variable {n r : String}

/-- The items of an assignment are the name, the equality sign, and those of what is assigned. -/
theorem items_assignment (hn : IsWord n.toList) (r : String) :
    items (n ++ " = " ++ r) = .ok ⟨.identifier, n, 0⟩ :: .ok ⟨.equal, "=", n.utf8ByteSize + 1⟩ ::
      (items r).map (Item.moved (n.utf8ByteSize + 3)) := by
  have hblank : IsSeparator ' ' := isSeparator_of_isBlank (by decide)
  have hchars : (n ++ " = " ++ r).toList = n.toList ++ ' ' :: (['='] ++ ' ' :: r.toList) := by simp
  have hequal (o : Nat) : itemsFrom o ['='] = [.ok ⟨.equal, "=", o⟩] := by
    rw [itemsFrom, first_symbol rfl, itemsFrom]
    rfl
  have hname : itemsFrom 0 n.toList = [.ok ⟨.identifier, n, 0⟩] := by
    obtain ⟨c, cs, hcs⟩ := List.exists_cons_of_ne_nil hn.1
    have hfirst : Piece.first c (cs ++ []) = (.token .identifier (c :: cs), []) :=
      first_word (hcs ▸ hn) (by simp)
    rw [List.append_nil] at hfirst
    rw [hcs, itemsFrom, hfirst, itemsFrom, ← hcs]
    simp [Piece.item?]
  have hsize : byteSize n.toList = n.utf8ByteSize := by simp [byteSize]
  have hspace : ' '.utf8Size = 1 := rfl
  have hstop : byteSize ['='] = 1 := rfl
  have hrest : itemsFrom (n.utf8ByteSize + 1 + 1 + 1) r.toList =
      (items r).map (Item.moved (n.utf8ByteSize + 3)) := by
    rw [items, ← itemsFrom_add, Nat.zero_add]
  have hskipped : isBlank ' ' = true := by decide
  rw [items, hchars, itemsFrom_append_separator hblank, itemsFrom_separator hblank,
    itemsFrom_append_separator hblank, itemsFrom_separator hblank, hequal, hname, hsize, hspace,
    hstop, Nat.zero_add, hrest, if_pos hskipped, if_pos hskipped]
  rfl

/-- What comes of the tokens of an assignment, where those of what is assigned are `ts`. -/
theorem tokenize_assignment (hn : IsWord n.toList) (r : String) :
    tokenize (n ++ " = " ++ r) =
      match tokenize r with
      | .ok ts => .ok (⟨.identifier, n, 0⟩ :: ⟨.equal, "=", n.utf8ByteSize + 1⟩ ::
          ts.map (Token.moved (n.utf8ByteSize + 3)))
      | .error cause => .error (cause.moved (n.utf8ByteSize + 3)) := by
  have hmoved (k : Nat) (is : List Item) : (is.map (Item.moved k)).mapM id =
      match is.mapM id with
      | .ok ts => .ok (ts.map (Token.moved k))
      | .error cause => .error (cause.moved k) := by
    induction is with
    | nil => rfl
    | cons i is ih =>
      rw [List.map_cons, List.mapM_cons, List.mapM_cons, ih]
      cases i with
      | error cause => rfl
      | ok t => cases is.mapM id <;> rfl
  unfold tokenize
  rw [items_assignment hn, List.mapM_cons, List.mapM_cons, hmoved]
  cases (items r).mapM id <;> rfl

end

/-! ## Statements -/

namespace Parse

theorem Same.outcome {n n' k : Nat} {α : Type} {c : Below n} {c' : Below n'} {r r'}
    (h : Same k (@Eq α) c c' r r') : outcome r' = (outcome r).mapError (ParseError.moved k) := by
  cases h with
  | error hd => rfl
  | @ok a a' d d' hv hd =>
    subst hv
    simp only [Parse.outcome, hd.image.rest]
    cases d.1.rest <;> rfl

end Parse

open Parse

/-- **Tokens that are moved along behind a name and an equality sign** are read as they would be by
themselves. -/
theorem parseStatement_assignment {line r : String} {k : Nat} (name equal : Token)
    (hn : name.kind = .identifier) (hq : equal.kind = .equal)
    (hline : line.utf8ByteSize = r.utf8ByteSize + k) (ts : List Token) :
    parseStatement line (name :: equal :: ts.map (Token.moved k)) =
      ((parse r ts).map (.assign name.text)).mapError (ParseError.moved k) := by
  let make := Statement.assign name.text
  let start := Cursor.start r.utf8ByteSize ts
  let whole := Cursor.start line.utf8ByteSize (name :: equal :: ts.map (Token.moved k))
  let behind := whole.advance.advance
  have hlen : behind.rest.length < (ts.map (Token.moved k)).length + 3 :=
    Nat.lt_add_right 2 (Nat.lt_succ_self _)
  have himage : start.Image k behind := by
    refine ⟨rfl, rfl, ?_, hline⟩
    show (some equal.kind).any TokenKind.endsOperand = false
    rw [hq]
    rfl
  have hparse : parse r ts = outcome (expr (ts.length + 1) 0 ⟨start, Nat.lt_succ_self _⟩) :=
    finishing_run _ _
  have hstatement : parseStatement line (name :: equal :: ts.map (Token.moved k)) =
      outcome ((make <$> expr ((ts.map (Token.moved k)).length + 3) 0) ⟨behind, hlen⟩) := by
    unfold parseStatement Parser.statement
    simp only [Parser.ofTokens]
    rw [if_pos ⟨hn, hq⟩, finishing_run]
    rfl
  have hsame := ((mirrors_expr k (ts.length + 1) _).1 0).map make
    ⟨start, Nat.lt_succ_self _⟩ ⟨behind, hlen⟩ himage
  rw [hstatement, hsame.outcome, outcome_map, hparse]

/-- A line that is no assignment is an expression. -/
theorem parseStatement_of_not_assignment {ts : List Token}
    (h : ∀ name equal us, ts = name :: equal :: us →
      ¬(name.kind = .identifier ∧ equal.kind = .equal)) (line : String) :
    parseStatement line ts = (parse line ts).map .expr := by
  have hstatement : parseStatement line ts =
      Parser.finishing ((Parser.ofTokens line ts).run fun n => .expr <$> expr n 0) := by
    unfold parseStatement Parser.statement
    simp only [Parser.ofTokens]
    split
    · next name equal us => rw [if_neg (h name equal us rfl)]
    · rfl
  rw [hstatement, finishing_run, outcome_map, parse, Parser.expr, finishing_run]

/-- **A line that assigns** stands for the assignment of what the other line stands for by itself. -/
theorem parseLine_assignment {n r : String} (hn : IsWord n.toList)
    (hr : ¬ ∃ name equal is, items r = .ok name :: .ok equal :: is ∧ name.kind = .identifier ∧
      equal.kind = .equal) :
    ∃ value : Except LineError Expr, parseLine r = value.map .expr ∧
      parseLine (n ++ " = " ++ r) =
        (value.map (.assign n)).mapError (LineError.moved (n.utf8ByteSize + 3)) := by
  unfold parseLine
  rw [tokenize_assignment hn]
  cases htokens : tokenize r with
  | error cause => exact ⟨.error (.lex cause), rfl, rfl⟩
  | ok ts =>
    have hnot (name equal : Token) (us : List Token) (hts : ts = name :: equal :: us) :
        ¬(name.kind = .identifier ∧ equal.kind = .equal) := by
      rintro ⟨hk, hk'⟩
      rw [tokenize_eq_ok_iff, hts] at htokens
      exact hr ⟨name, equal, _, htokens, hk, hk'⟩
    have hline : (n ++ " = " ++ r).utf8ByteSize = r.utf8ByteSize + (n.utf8ByteSize + 3) := by
      have hequal : " = ".utf8ByteSize = 3 := rfl
      rw [String.utf8ByteSize_append, String.utf8ByteSize_append, hequal]
      omega
    have hstatement := parseStatement_assignment ⟨.identifier, n, 0⟩
      ⟨.equal, "=", n.utf8ByteSize + 1⟩ rfl rfl hline ts
    refine ⟨(parse r ts).mapError .parse, ?_, ?_⟩
    · simp only [Except.mapError, bind, Except.bind, parseStatement_of_not_assignment hnot]
      cases parse r ts <;> rfl
    · simp only [Except.mapError, bind, Except.bind, hstatement]
      cases parse r ts <;> rfl

/-- **Assignment is evaluation and a store.** Let a line not begin with a name and an equality sign. The
line that gives its value to a name has a value just if it has, the same one, and leaves the variables as
they were but for the name, which has this value. Where the line fails, the assignment fails in the same
way, with what is said of the place moved along by what stands in front of the line, and leaves the
variables as they were. -/
theorem evaluateWith_assignment {n r : String} (hn : IsWord n.toList)
    (hr : ¬ ∃ name equal is, items r = .ok name :: .ok equal :: is ∧ name.kind = .identifier ∧
      equal.kind = .equal) (limits : Limits) (clock : Clock) (env : Environment) :
    (match (evaluateWith limits clock r env).1 with
      | .ok x => evaluateWith limits clock (n ++ " = " ++ r) env = (.ok x, env.define n x)
      | .error cause => evaluateWith limits clock (n ++ " = " ++ r) env =
          (.error (cause.moved (n.utf8ByteSize + 3)), env)) ∧
    ∀ (k : Nat) (cause : LineError), (cause.moved k).diagnostic = cause.diagnostic.moved k := by
  refine ⟨?_, LineError.diagnostic_moved⟩
  cases hv : limits.validate with
  | error cause =>
    rw [evaluateWith_of_not_validate hv, evaluateWith_of_not_validate hv]
    rfl
  | ok limits' =>
    obtain ⟨value, hline, hassignment⟩ := parseLine_assignment hn hr
    rw [evaluateWith_of_validate hv, evaluateWith_of_validate hv, hline, hassignment]
    cases value with
    | error cause => rfl
    | ok e =>
      simp only [Except.map, Except.mapError]
      cases evalIn limits clock e env <;> rfl

/-- With the variables `area` and `r`, an assignment to `area` that succeeds, which leaves `r` as it was,
and one of a line that fails at its last byte, which leaves both. -/
theorem evaluateWith_assignment_area :
    let env := (Environment.empty.define "r" 2).define "area" 1
    let run (line : String) := evaluateWith {} .steady line env
    let stored := (run ("area" ++ " = " ++ "3 r")).2
    let assigns (r : String) := ∃ name equal is, items r = .ok name :: .ok equal :: is ∧
      name.kind = .identifier ∧ equal.kind = .equal
    IsWord "area".toList ∧ ¬assigns "3 r" ∧ ¬assigns "2 + " ∧
      (run "3 r").1 = .ok 6 ∧ (run ("area" ++ " = " ++ "3 r")).1 = .ok 6 ∧
      stored.lookup "area" = some 6 ∧ stored.lookup "r" = some 2 ∧
      (run "2 + ").1 = .error (.parse (.unexpectedEnd .expression 4)) ∧
      run ("area" ++ " = " ++ "2 + ") = (.error (.parse (.unexpectedEnd .expression 11)), env) := by
  intro env run stored assigns
  have hn : IsWord "area".toList := by decide
  have hnot {r : String} {t : Token} {is : List Item} (hr : items r = .ok t :: is)
      (ht : t.kind = .number) : ¬assigns r := by
    rintro ⟨name, equal, _, h, hk, -⟩
    cases hr.symm.trans h
    cases ht.symm.trans hk
  have hitems : items "3 r" = [.ok ⟨.number, "3", 0⟩, .ok ⟨.identifier, "r", 2⟩] := by cbv
  have hitems' : items "2 + " = [.ok ⟨.number, "2", 0⟩, .ok ⟨.operator, "+", 2⟩] := by cbv
  have hproduct : ¬assigns "3 r" := hnot hitems rfl
  have hsum : ¬assigns "2 + " := hnot hitems' rfl
  have hsix : (run "3 r").1 = .ok 6 := by decide +kernel
  have hend : (run "2 + ").1 = .error (.parse (.unexpectedEnd .expression 4)) := by decide +kernel
  have hassigned := (evaluateWith_assignment hn hproduct {} .steady env).1
  rw [show (evaluateWith {} .steady "3 r" env).1 = _ from hsix] at hassigned
  have hfailed := (evaluateWith_assignment hn hsum {} .steady env).1
  rw [show (evaluateWith {} .steady "2 + " env).1 = _ from hend] at hfailed
  have hstored : stored = env.define "area" 6 := congrArg Prod.snd hassigned
  refine ⟨hn, hproduct, hsum, hsix, congrArg Prod.fst hassigned, ?_, ?_, hend, hfailed⟩
  · rw [hstored]
    decide +kernel
  · rw [hstored]
    decide +kernel

end LatexCalc
