import LatexCalc.Proofs.Environment
import LatexCalc.Proofs.Reading.Run
import LatexCalc.Proofs.Session.Line
import LatexCalc.Proofs.Token.Spelling

/-!
# Histories of sessions

`Session.run` evaluates lines one after the other. What is left of them is what they assigned
(`Entry.assignment?`): a name has the value of the last assignment of it that succeeded, and all other
lines can be left out without a difference to the ones that stay (`session_history`).
-/

namespace LatexCalc

/-- A line that was evaluated, and what came of it. -/
structure Entry where
  line : String
  outcome : Except LineError Float

namespace Entry

/-- The name that a line gave a value, and the value. -/
def assignment? (e : Entry) : Option (String × Float) :=
  match parseLine e.line, e.outcome with
  | .ok (.assign name _), .ok x => some (name, x)
  | _, _ => none

/-- Whether a line failed, at whatever stage, or was an expression by itself. -/
def IsPassing (e : Entry) : Prop :=
  (∃ cause, e.outcome = .error cause) ∨ ∃ value, parseLine e.line = .ok (.expr value)

theorem IsPassing.assignment?_eq_none {e : Entry} (h : e.IsPassing) : e.assignment? = none := by
  unfold assignment?
  rcases h with ⟨cause, h⟩ | ⟨value, h⟩
  · rw [h]
    split
    · next heq => cases heq
    · rfl
  · rw [h]

end Entry

/-- Lines run one after the other: the entries in this order, and the session after them. Line `i` is
timed by clock `i`. -/
def Session.run (s : Session) (clocks : Nat → Clock) : List String → List Entry × Session
  | [] => ([], s)
  | line :: lines =>
    let (outcome, s') := s.evaluate (clocks 0) line
    let (entries, last) := s'.run (fun i => clocks (i + 1)) lines
    (⟨line, outcome⟩ :: entries, last)

/-- A history without some of the entries that failed or were expressions. -/
inductive Thins : List Entry → List Entry → Prop
  | nil : Thins [] []
  | keep (e : Entry) {es fs : List Entry} (h : Thins es fs) : Thins (e :: es) (e :: fs)
  | drop {e : Entry} {es fs : List Entry} (he : e.IsPassing) (h : Thins es fs) : Thins (e :: es) fs

/-! ## One line -/

/-- What becomes of the variables: they stay as they are but for what is assigned. -/
def Environment.record (env : Environment) : Option (String × Float) → Environment
  | none => env
  | some (name, x) => env.define name x

/-- **A line leaves the variables as they were, but for what it assigned.** -/
theorem evaluateWith_env (limits : Limits) (clock : Clock) (line : String) (env : Environment) :
    (evaluateWith limits clock line env).2 =
      env.record (Entry.assignment? ⟨line, (evaluateWith limits clock line env).1⟩) := by
  cases hv : limits.validate with
  | error cause =>
    rw [evaluateWith_of_not_validate hv]
    have hpassing : Entry.IsPassing ⟨line, .error (.limits cause)⟩ := .inl ⟨_, rfl⟩
    rw [hpassing.assignment?_eq_none]
    rfl
  | ok limits' =>
    rw [evaluateWith_of_validate hv]
    unfold Entry.assignment?
    cases parseLine line with
    | error cause => rfl
    | ok st =>
      cases st with
      | expr e => rfl
      | assign name e =>
        simp only
        cases evalIn limits clock e env <;> rfl

namespace Session

variable (s : Session) (clock : Clock) (line : String)

theorem evaluate_session :
    (s.evaluate clock line).2 =
      { s with env := s.env.record (Entry.assignment? ⟨line, (s.evaluate clock line).1⟩) } := by
  have henv := evaluateWith_env s.limits clock line s.env
  show ({ s with env := (evaluateWith s.limits clock line s.env).2 } : Session) = _
  rw [henv]
  rfl

theorem evaluate_clock {s : Session} (ht : s.limits.timeout = none) (clock clock' : Clock)
    (line : String) : s.evaluate clock line = s.evaluate clock' line := by
  unfold Session.evaluate
  rw [evaluateWith_clock ht clock clock']

/-- A line that failed or was an expression leaves the session as it was. -/
theorem evaluate_of_isPassing {s : Session} {clock : Clock} {line : String}
    (h : Entry.IsPassing ⟨line, (s.evaluate clock line).1⟩) : (s.evaluate clock line).2 = s := by
  rw [s.evaluate_session, h.assignment?_eq_none]
  rfl

/-! ## Runs -/

theorem run_cons (clocks : Nat → Clock) (lines : List String) :
    s.run clocks (line :: lines) =
      (⟨line, (s.evaluate (clocks 0) line).1⟩ ::
        ((s.evaluate (clocks 0) line).2.run (fun i => clocks (i + 1)) lines).1,
        ((s.evaluate (clocks 0) line).2.run (fun i => clocks (i + 1)) lines).2) := rfl

/-- A run defines what its lines assign, one after the other. -/
theorem env_run (s : Session) (clocks : Nat → Clock) (lines : List String) :
    (s.run clocks lines).2.env = ((s.run clocks lines).1.filterMap Entry.assignment?).foldl
      (fun env d => env.define d.1 d.2) s.env := by
  induction lines generalizing s clocks with
  | nil => rfl
  | cons line lines ih =>
    rw [run_cons]
    simp only
    rw [ih, s.evaluate_session, List.filterMap_cons]
    cases Entry.assignment? ⟨line, (s.evaluate (clocks 0) line).1⟩ <;> rfl

/-- **The variables after a run** are those that it assigned, each with the value that it was given
last, and the others as before. -/
theorem lookup_run (s : Session) (clocks : Nat → Clock) (lines : List String) (name : String) :
    (s.run clocks lines).2.env.lookup name =
      (((s.run clocks lines).1.filterMap Entry.assignment?).reverse.lookup name).or
        (s.env.lookup name) := by
  rw [env_run, Environment.lookup_foldl_define]

/-- Names that lines assign are words. -/
theorem isWord_of_assignment {e : Entry} {name : String} {x : Float}
    (h : e.assignment? = some (name, x)) : IsWord name.toList := by
  unfold Entry.assignment? at h
  split at h
  · next hline _ =>
    cases h
    obtain ⟨ts, hts, hst⟩ := parseLine_eq_ok_iff.1 hline
    obtain ⟨n, q, s, rfl, hn, -, hname, -⟩ := parseStatement_eq_assign_iff.1 hst
    have hs := tokenize_spelled hts n List.mem_cons_self
    rw [Token.IsSpelled, hn] at hs
    rw [← hname]
    exact hs
  · cases h

/-- **Lines that failed or were expressions can be left out.** -/
theorem run_thins {s : Session} (ht : s.limits.timeout = none) {clocks : Nat → Clock}
    (clocks' : Nat → Clock) {lines : List String} {kept : List Entry}
    (h : Thins (s.run clocks lines).1 kept) :
    s.run clocks' (kept.map Entry.line) = (kept, (s.run clocks lines).2) := by
  induction lines generalizing s clocks clocks' kept with
  | nil =>
    cases h
    rfl
  | cons line lines ih =>
    rw [run_cons] at h ⊢
    have ht' : (s.evaluate (clocks 0) line).2.limits.timeout = none := ht
    cases h with
    | keep e h =>
      rw [List.map_cons, run_cons, evaluate_clock ht (clocks' 0) (clocks 0),
        ih ht' (fun i => clocks' (i + 1)) h]
    | drop he h =>
      have hsame := evaluate_of_isPassing he
      rw [hsame] at h ⊢
      exact ih ht clocks' h

end Session

/-- **The history of a session is determined by its assignments that succeeded.** Lines are run in a
session that starts without variables, within limits that can be used and without a limit on time.
Afterwards a name has the value of the last assignment of it that succeeded, and none if there was no
such assignment; names are words of letters. To leave out lines that failed, or were expressions, makes
no difference to what the other lines come to nor to the session after them. -/
theorem session_history {limits : Limits} {s : Session} (hs : Session.ofLimits limits = .ok s)
    (ht : limits.timeout = none) (clocks : Nat → Clock) (lines : List String) :
    let entries := (s.run clocks lines).1
    let last := (s.run clocks lines).2
    (∀ name, last.env.lookup name =
      (entries.filterMap Entry.assignment?).reverse.lookup name) ∧
    (∀ name x, (name, x) ∈ last.env.toList ↔ last.env.lookup name = some x) ∧
    (∀ name x, last.env.lookup name = some x → IsWord name.toList) ∧
    ∀ kept, Thins entries kept → ∀ clocks', s.run clocks' (kept.map Entry.line) = (kept, last) := by
  intro entries last
  obtain ⟨henv, hlimits⟩ : s.env = .empty ∧ s.limits = limits := by
    unfold Session.ofLimits at hs
    cases hv : limits.validate with
    | error cause =>
      rw [hv] at hs
      cases hs
    | ok limits' =>
      rw [hv] at hs
      obtain rfl := Limits.eq_of_validate hv
      cases hs
      exact ⟨rfl, rfl⟩
  have hlookup (name : String) : last.env.lookup name =
      (entries.filterMap Entry.assignment?).reverse.lookup name := by
    have h := s.lookup_run clocks lines name
    rwa [henv, Environment.lookup_empty, Option.or_none] at h
  refine ⟨hlookup, last.env.mem_toList_iff, fun name x h => ?_, fun kept hkept clocks' => ?_⟩
  · rw [hlookup] at h
    obtain ⟨later, earlier, hsplit, -⟩ := List.lookup_eq_some_iff.1 h
    have hmem : (name, x) ∈ (entries.filterMap Entry.assignment?).reverse := by simp [hsplit]
    obtain ⟨e, -, he⟩ := List.mem_filterMap.1 (List.mem_reverse.1 hmem)
    exact Session.isWord_of_assignment he
  · exact Session.run_thins (hlimits ▸ ht) clocks' hkept

/-- An assignment and a line that fails, which can be left out. -/
theorem session_history_two_lines :
    let s : Session := ⟨.empty, { timeout := none }⟩
    let entries : List Entry := [⟨"x=1", .ok 1⟩, ⟨"y", .error (.eval (.undefinedVariable "y"))⟩]
    let last := (s.run (fun _ => .steady) ["x=1", "y"]).2
    Session.ofLimits { timeout := none } = .ok s ∧
      (s.run (fun _ => .steady) ["x=1", "y"]).1 = entries ∧ last.env.lookup "x" = some 1 ∧
      s.run (fun _ => .steady) ["x=1"] = ([⟨"x=1", .ok 1⟩], last) := by
  intro s entries last
  have hs : Session.ofLimits { timeout := none } = .ok s := rfl
  have hx : parseLine "x=1" = .ok (.assign "x" (.number 1)) :=
    parseLine_eq_ok_iff.2 ⟨[⟨.identifier, "x", 0⟩, ⟨.equal, "=", 1⟩, ⟨.number, "1", 2⟩], by cbv, rfl⟩
  have hy : parseLine "y" = .ok (.expr (.ident "y")) :=
    parseLine_eq_ok_iff.2 ⟨[⟨.identifier, "y", 0⟩], by cbv, rfl⟩
  have hvalid : Limits.validate { timeout := none } = .ok { timeout := none } := rfl
  have hfirst : s.evaluate .steady "x=1" = (.ok 1, ⟨s.env.define "x" 1, s.limits⟩) := by
    unfold Session.evaluate
    rw [evaluateWith_of_validate hvalid, hx]
    rfl
  have hsecond : Session.evaluate ⟨s.env.define "x" 1, s.limits⟩ .steady "y" =
      (.error (.eval (.undefinedVariable "y")), ⟨s.env.define "x" 1, s.limits⟩) := by
    unfold Session.evaluate
    rw [evaluateWith_of_validate hvalid, hy]
    rfl
  have hrun : (s.run (fun _ => .steady) ["x=1", "y"]).1 = entries := by
    rw [Session.run_cons, hfirst, Session.run_cons, hsecond]
    rfl
  obtain ⟨hlookup, -, -, hthins⟩ := session_history hs rfl (fun _ => .steady) ["x=1", "y"]
  refine ⟨hs, hrun, ?_, hthins [⟨"x=1", .ok 1⟩] ?_ _⟩
  · have h := hlookup "x"
    rw [hrun] at h
    simpa [entries, Entry.assignment?, hx, hy] using h
  · rw [hrun]
    exact .keep _ (.drop (.inl ⟨_, rfl⟩) .nil)

end LatexCalc
