import LatexCalc.CommandLine.Program
import LatexCalc.Proofs.Session.History
import LatexCalc.Proofs.Session.Timeless
import LatexCalc.Proofs.Text.Lines

/-!
# Dialogues and listings agree

A dialogue over the lines of a text and the listing of a file with the same lines evaluate the same
lines in one session each (`Session.follow`), and show the same results of them, if no line ends the
dialogue and none runs out of time (`dialogue_agrees`). A dialogue differs by its prompts, by leaving out
the line in front of a result, and by the lines that ask for the variables. However command lines are
read, that holds of those that are read as a dialogue and as a listing of results.
-/

namespace LatexCalc

/-! ## Lines that are evaluated -/

/-- A line that asks for the variables in a dialogue. -/
def AsksBindings (line : String) : Prop :=
  (trim line).toLower = "vars"

instance (line : String) : Decidable (AsksBindings line) :=
  inferInstanceAs (Decidable (_ = _))

/-- A line that is evaluated: neither blank nor one that asks for the variables. -/
def IsSignificant (line : String) : Prop :=
  trim line ≠ "" ∧ ¬AsksBindings line

instance (line : String) : Decidable (IsSignificant line) :=
  inferInstanceAs (Decidable (_ ∧ _))

/-- The lines of a text that are evaluated, without the blank characters around them. -/
def significant (ls : List String) : List String :=
  (ls.filter IsSignificant).map trim

/-- The lines of a text that are evaluated, with what came of each, and the session after them. -/
def Session.follow (s : Session) (ls : List String) : List Entry × Session :=
  s.run (fun _ => .steady) (significant ls)

/-! ## What is shown -/

/-- The text of a listing of variables with their values. -/
def bindingsText (env : Environment) : String :=
  String.join (env.toList.map fun b => b.1 ++ " = " ++ formatValue b.2 ++ "\n")

/-- What a dialogue shows in answer to a line, in a session. -/
def Session.reply (s : Session) (line : String) : String :=
  if IsSignificant line then
    match (s.evaluate .steady (trim line)).1 with
    | .ok x => "= " ++ formatValue x ++ "\n"
    | .error _ => ""
  else if AsksBindings line then bindingsText s.env
  else ""

/-- What a listing shows of a line that was evaluated. -/
def Entry.text (e : Entry) : String :=
  match e.outcome with
  | .ok x => e.line ++ " = " ++ formatValue x ++ "\n"
  | .error _ => ""

/-- No line is reported to have run out of time. -/
def InTime (events : List Event) : Prop :=
  ∀ limit, .report (EvalError.timeout limit).diagnostic ∉ events

variable {clock : Clock} {l : Limits} {env : Environment} {line : String} {ls rest : List String}
  {events events' : List Event}

theorem InTime.of_append (h : InTime (events ++ events')) : InTime events ∧ InTime events' :=
  ⟨fun limit hmem => h limit (List.mem_append_left _ hmem),
    fun limit hmem => h limit (List.mem_append_right _ hmem)⟩

theorem InTime.of_cons {event : Event} (h : InTime (event :: events)) : InTime events :=
  fun limit hmem => h limit (List.mem_cons_of_mem _ hmem)

namespace Event

theorem printed_append (events events' : List Event) :
    printed (events ++ events') = printed events ++ printed events' := by
  induction events with
  | nil => simp [printed]
  | cons e events ih => cases e <;> simp [printed, ih, String.append_assoc]

theorem printed_listBindings (env : Environment) : printed (listBindings env) = bindingsText env := by
  unfold listBindings bindingsText
  induction env.toList with
  | nil => rfl
  | cons b bs ih =>
    rw [List.map_cons, List.map_cons, String.join_cons, ← ih]
    rfl

end Event

/-! ## One line -/

/-- A line runs out of time, or comes to what it comes to without a limit on time. -/
theorem evaluate_timeless (hv : l.validate = .ok l) (clock : Clock) (line : String)
    (env : Environment) :
    (∃ limit s', Session.evaluate ⟨env, l⟩ clock line = (.error (.eval (.timeout limit)), s')) ∨
      ∃ outcome env', Session.evaluate ⟨env, l⟩ clock line = (outcome, ⟨env', l⟩) ∧
        Session.evaluate ⟨env, l.timeless⟩ .steady line = (outcome, ⟨env', l.timeless⟩) := by
  obtain ⟨outcome, env', hline⟩ : ∃ outcome env', evaluateWith l clock line env = (outcome, env') :=
    ⟨_, _, rfl⟩
  rcases evaluateWith_timeless hv clock .steady line env with ⟨limit, hlimit⟩ | hsame
  · rw [hline] at hlimit
    exact .inl ⟨limit, ⟨env', l⟩, by simp only [Session.evaluate, hline, hlimit]⟩
  · refine .inr ⟨outcome, env', ?_, ?_⟩
    · simp only [Session.evaluate, hline]
    · simp only [Session.evaluate, ← hsame, hline]

section

variable (s : Session)

theorem Session.follow_cons_of_significant (h : IsSignificant line) (rest : List String) :
    s.follow (line :: rest) =
      let s' := (s.evaluate .steady (trim line)).2
      (⟨trim line, (s.evaluate .steady (trim line)).1⟩ :: (s'.follow rest).1, (s'.follow rest).2) := by
  unfold Session.follow significant
  rw [List.filter_cons_of_pos (by simpa using h), List.map_cons, Session.run_cons]

theorem Session.follow_cons_of_not_significant (h : ¬IsSignificant line) (rest : List String) :
    s.follow (line :: rest) = s.follow rest := by
  unfold Session.follow significant
  rw [List.filter_cons_of_neg (by simpa using h)]

end

theorem Request.ofLine_of_significant (hexit : (trim line).toLower ≠ "exit") (h : IsSignificant line) :
    Request.ofLine line = .evaluate (trim line) :=
  (if_neg h.1).trans ((if_neg hexit).trans (if_neg h.2))

theorem Request.ofLine_of_asksBindings (h : AsksBindings line) : Request.ofLine line = .bindings := by
  have hblank : trim line ≠ "" := fun hblank => by
    rw [AsksBindings, hblank] at h
    exact absurd h (by decide +kernel)
  have hexit : (trim line).toLower ≠ "exit" := fun hexit => by
    rw [AsksBindings, hexit] at h
    exact absurd h (by decide +kernel)
  exact (if_neg hblank).trans ((if_neg hexit).trans (if_pos h))

theorem trim_eq_of_not_significant (h : ¬IsSignificant line) (hvars : ¬AsksBindings line) :
    trim line = "" :=
  Classical.byContradiction fun hblank => h ⟨hblank, hvars⟩

/-- **A line of a dialogue** is answered as in a session without a limit on time, and leaves the session
that the lines evaluated leave. -/
theorem answer_of_inTime (hv : l.validate = .ok l) (hexit : (trim line).toLower ≠ "exit")
    (h : InTime (answer clock ⟨env, l⟩ line).1) :
    ∃ events env', answer clock ⟨env, l⟩ line = (events, some ⟨env', l⟩) ∧
      Event.printed events = Session.reply ⟨env, l.timeless⟩ line ∧
      ∀ rest, (Session.follow ⟨env, l.timeless⟩ (line :: rest)).2 =
        (Session.follow ⟨env', l.timeless⟩ rest).2 := by
  unfold Session.reply
  by_cases hline : IsSignificant line
  · have hrequest := Request.ofLine_of_significant hexit hline
    rw [answer, hrequest] at h
    rw [if_pos hline, answer, hrequest]
    rcases evaluate_timeless hv clock (trim line) env with
      ⟨limit, s', hrun⟩ | ⟨outcome, env', hrun, htimeless⟩
    · simp only [hrun] at h
      exact absurd List.mem_cons_self (h limit)
    · simp only [hrun, Session.follow_cons_of_significant _ hline, htimeless]
      cases outcome with
      | ok x => exact ⟨_, env', rfl, String.append_empty, fun _ => rfl⟩
      | error cause => exact ⟨_, env', rfl, rfl, fun _ => rfl⟩
  · rw [if_neg hline]
    by_cases hvars : AsksBindings line
    · refine ⟨listBindings env, env, ?_, ?_, fun rest => ?_⟩
      · rw [answer, Request.ofLine_of_asksBindings hvars]
      · rw [if_pos hvars, Event.printed_listBindings]
      · rw [Session.follow_cons_of_not_significant _ hline]
    · refine ⟨[], env, ?_, ?_, fun rest => ?_⟩
      · rw [answer, Request.ofLine]
        simp only [trim_eq_of_not_significant hline hvars, if_true]
      · rw [if_neg hvars]
        rfl
      · rw [Session.follow_cons_of_not_significant _ hline]

/-- **A dialogue** shows prompts and replies. -/
theorem printed_dialogue (hv : l.validate = .ok l) (hexit : ∀ line ∈ ls, (trim line).toLower ≠ "exit")
    (h : InTime (dialogue clock ⟨env, l⟩ ls)) :
    Event.printed (dialogue clock ⟨env, l⟩ ls) =
      String.join (ls.mapIdx fun i line =>
        "euclid> " ++ (Session.follow ⟨env, l.timeless⟩ (ls.take i)).2.reply line) ++ "euclid> " := by
  induction ls generalizing env with
  | nil => rfl
  | cons line rest ih =>
    rw [List.forall_mem_cons] at hexit
    have hanswer : InTime (answer clock ⟨env, l⟩ line).1 := by
      rw [dialogue] at h
      split at h
      · next hsome =>
        rw [hsome]
        exact (InTime.of_append h).1.of_cons
      · next hnone =>
        rw [hnone]
        exact h.of_cons
    obtain ⟨events, env', hrun, hprinted, hfollow⟩ := answer_of_inTime hv hexit.1 hanswer
    rw [dialogue, hrun] at h ⊢
    have hrest := ih hexit.2 h.of_append.2
    rw [Event.printed_append, hrest, List.mapIdx_cons, String.join_cons]
    simp only [List.take_succ_cons, hfollow, List.take_zero]
    rw [prompt, Event.printed, hprinted, ← String.append_assoc]
    rfl

/-- **A listing** shows the lines that are evaluated with their results. -/
theorem printed_listResults (hv : l.validate = .ok l) (hvars : ∀ line ∈ ls, ¬AsksBindings line)
    (h : InTime (listResults clock ⟨env, l⟩ ls)) :
    Event.printed (listResults clock ⟨env, l⟩ ls) =
      String.join ((Session.follow ⟨env, l.timeless⟩ ls).1.map Entry.text) := by
  induction ls generalizing env with
  | nil => rfl
  | cons line rest ih =>
    rw [List.forall_mem_cons] at hvars
    by_cases hline : IsSignificant line
    · rw [listResults, if_neg hline.1] at h ⊢
      rcases evaluate_timeless hv clock (trim line) env with
        ⟨limit, s', hrun⟩ | ⟨outcome, env', hrun, htimeless⟩
      · simp only [hrun] at h
        exact absurd List.mem_cons_self (h limit)
      · simp only [hrun] at h ⊢
        rw [Session.follow_cons_of_significant _ hline, htimeless, List.map_cons, String.join_cons]
        cases outcome with
        | ok x =>
          have hrest := ih hvars.2 (InTime.of_cons h)
          exact congrArg ((trim line ++ " = " ++ formatValue x ++ "\n") ++ ·) hrest
        | error cause =>
          have hrest := ih hvars.2 (InTime.of_cons h)
          exact hrest.trans String.empty_append.symm
    · rw [listResults, if_pos (trim_eq_of_not_significant hline hvars.1)] at h ⊢
      rw [Session.follow_cons_of_not_significant _ hline, ih hvars.2 h]

/-! ## The program -/

/-- Lines that ask for the variables are not evaluated. -/
theorem significant_filter (ls : List String) :
    significant (ls.filter fun line => !decide (AsksBindings line)) = significant ls := by
  unfold significant
  rw [List.filter_filter]
  refine congrArg (List.map trim) (List.filter_congr fun line _ => ?_)
  by_cases h : AsksBindings line <;> simp [IsSignificant, h]

section

variable {read : CommandLineReader} {arguments : List String} {o : Options}
  {files : String → Option String} {path text : String}

theorem program_dialogue (h : read arguments = .ok ⟨.dialogue, o⟩) (hv : o.limits.validate = .ok l)
    (clock : Clock) (files : String → Option String) (text : String) :
    program clock arguments files text read =
      (dialogue clock ⟨.empty, o.limits⟩ (lines text), .done) := by
  obtain rfl := Limits.eq_of_validate hv
  simp only [program, h, Session.ofLimits, hv]
  rfl

theorem program_results (h : read arguments = .ok ⟨.list .results path, o⟩)
    (hv : o.limits.validate = .ok l) (hfile : files path = some text) (clock : Clock) (typed : String) :
    program clock arguments files typed read =
      (listResults clock ⟨.empty, o.limits⟩ (lines text), .done) := by
  obtain rfl := Limits.eq_of_validate hv
  simp only [program, h, Session.ofLimits, hv]
  show Command.events clock _ files typed (.list .results path) = _
  simp only [Command.events, hfile]
  rfl

end

/-- **Dialogues and listings agree.** Of two command lines, one is read as a dialogue and the other one as
a listing of results, whatever reads them. A text is typed in the dialogue, and the file holds the text
without the lines that ask for the variables; the limits are the same and can be used, no line ends the
dialogue, and in neither run does one run out of time. Let the lines that are evaluated be evaluated one
after the other in one session without a limit on time, whatever comes of them. The dialogue shows a
prompt for each line, with the result if the line is evaluated and has one, with the variables of the
session at that moment if it asks for them, and with nothing otherwise; at the end it shows another
prompt. The listing shows the lines that are evaluated and have a result, in the same order, with the
results. Both end with the code 0. -/
theorem dialogue_agrees {read : CommandLineReader} {arguments arguments' : List String} {o o' : Options}
    {l : Limits} {path text typed : String} {files files' : String → Option String}
    {clock clock' : Clock} (hdialogue : read arguments = .ok ⟨.dialogue, o⟩)
    (hlisting : read arguments' = .ok ⟨.list .results path, o'⟩)
    (hlimits : o'.limits = o.limits) (hv : o.limits.validate = .ok l)
    (hfile : files' path = some (withoutLines (fun line => AsksBindings line) text))
    (hexit : ∀ line ∈ lines text, (trim line).toLower ≠ "exit")
    (htime : InTime (program clock arguments files text read).1)
    (htime' : InTime (program clock' arguments' files' typed read).1) :
    let history (ls : List String) := Session.follow ⟨.empty, o.limits.timeless⟩ ls
    Event.printed (program clock arguments files text read).1 =
        String.join ((lines text).mapIdx fun i line =>
          "euclid> " ++ (history ((lines text).take i)).2.reply line) ++ "euclid> " ∧
      Event.printed (program clock' arguments' files' typed read).1 =
        String.join ((history (lines text)).1.map Entry.text) ∧
      (program clock arguments files text read).2.code = 0 ∧
      (program clock' arguments' files' typed read).2.code = 0 := by
  intro history
  obtain rfl := Limits.eq_of_validate hv
  have hv' : o'.limits.validate = .ok o'.limits := hlimits ▸ hv
  rw [program_dialogue hdialogue hv] at htime ⊢
  rw [program_results hlisting hv' hfile, lines_withoutLines, hlimits] at htime' ⊢
  refine ⟨printed_dialogue hv hexit htime, ?_, rfl, rfl⟩
  have hvars : ∀ line ∈ (lines text).filter fun line => !decide (AsksBindings line),
      ¬AsksBindings line := fun line hline => by simpa using (List.mem_filter.1 hline).2
  rw [printed_listResults hv hvars htime', Session.follow, significant_filter]
  rfl

/-- A dialogue with an assignment, a line that asks for the variables and one that fails, and the
listing of a file with the first and the last of these lines. -/
theorem dialogue_agrees_three_lines :
    let text := "x = 1\r\nVars\ny\n"
    let files (_ : String) := some "x = 1\r\ny\n"
    let shown := program .steady ["calc"] (fun _ => none) text
    let listed := program .steady ["eval", "input"] files ""
    Invocation.read ["calc"] = .ok ⟨.dialogue, {}⟩ ∧
      Invocation.read ["eval", "input"] = .ok ⟨.list .results "input", {}⟩ ∧
      Limits.validate {} = .ok {} ∧
      files "input" = some (withoutLines (fun line => AsksBindings line) text) ∧
      (∀ line ∈ lines text, (trim line).toLower ≠ "exit") ∧ InTime shown.1 ∧ InTime listed.1 ∧
      Event.printed shown.1 = "euclid> = 1\neuclid> x = 1\neuclid> euclid> " ∧
      Event.printed listed.1 = "x = 1 = 1\n" ∧ shown.2.code = 0 ∧ listed.2.code = 0 := by
  intro text files shown listed
  have hdialogue : Invocation.read ["calc"] = .ok ⟨.dialogue, {}⟩ := by decide +kernel
  have hlisting : Invocation.read ["eval", "input"] = .ok ⟨.list .results "input", {}⟩ := by
    decide +kernel
  have hv : Limits.validate {} = .ok {} := rfl
  have hfile : files "input" = some (withoutLines (fun line => AsksBindings line) text) := by
    decide +kernel
  have hexit : ∀ line ∈ lines text, (trim line).toLower ≠ "exit" := by decide +kernel
  have hshown : shown.1 = [.print "euclid> ", .print "= 1\n", .print "euclid> ", .print "x = 1\n",
      .print "euclid> ", .report (EvalError.undefinedVariable "y").diagnostic, .print "euclid> "] := by
    decide +kernel
  have hlisted : listed.1 =
      [.print "x = 1 = 1\n", .report (EvalError.undefinedVariable "y").diagnostic] := by
    decide +kernel
  have hfailure (limit : Nat) :
      (EvalError.timeout limit).diagnostic ≠ (EvalError.undefinedVariable "y").diagnostic := by
    intro h
    have hcode : (some "euclid::eval::timeout" : Option String) =
      some "euclid::eval::undefined_variable" := congrArg Diagnostic.code h
    simp at hcode
  have htime : InTime shown.1 := fun limit hmem => by
    have hmem' := hshown ▸ hmem
    simp [hfailure] at hmem'
  have htime' : InTime listed.1 := fun limit hmem => by
    have hmem' := hlisted ▸ hmem
    simp [hfailure] at hmem'
  obtain ⟨hprinted, hprinted', hcode, hcode'⟩ :=
    dialogue_agrees hdialogue hlisting rfl hv hfile hexit htime htime'
  refine ⟨hdialogue, hlisting, hv, hfile, hexit, htime, htime', hprinted.trans ?_, hprinted'.trans ?_,
    hcode, hcode'⟩
  · decide +kernel
  · decide +kernel

end LatexCalc
