import LatexCalc.CommandLine.Dialogue

/-!
# The program

What a command line leads to, given the files that can be read and the text that is typed: the
events that are shown, and the code that the program ends with. How command lines are read is a
parameter of the program (`CommandLineReader`); `Invocation.read` is one reading.
-/

namespace LatexCalc

/-- How the program ends. -/
inductive Ending
  | done
  /-- The limits cannot be used, or a file cannot be read. -/
  | refused
  /-- The command line asks for nothing. -/
  | misused
  deriving DecidableEq, Repr

/-- The code of an ending. -/
def Ending.code : Ending → Nat
  | done => 0
  | refused => 1
  | misused => 2

/-- The account of a file that cannot be read. -/
def unreadable (path : String) : Diagnostic where
  message := "reading '" ++ path ++ "' failed"

/-- What a command leads to in a session. -/
def Command.events (clock : Clock) (s : Session) (files : String → Option String)
    (typed : String) : Command → List Event × Ending
  | .dialogue => (LatexCalc.dialogue clock s (lines typed), .done)
  | .list what path =>
    match files path with
    | some text => (what.events clock s text, .done)
    | none => ([.report (unreadable path)], .refused)

/-- A reading of command lines. One that asks for no command, but for help or for nothing that can be
done, is answered with events and an ending at once. -/
abbrev CommandLineReader := List String → Except (List Event × Ending) Invocation

/-- The answer to a command line that asks for nothing. -/
def UsageError.answer (e : UsageError) : List Event × Ending :=
  ([.report { message := e.message }], .misused)

/-- Reads a command line by `Invocation.ofArguments`. -/
def Invocation.read : CommandLineReader := fun arguments =>
  (Invocation.ofArguments arguments).mapError UsageError.answer

/-- What a command line leads to, as it is read. -/
def program (clock : Clock) (arguments : List String) (files : String → Option String)
    (typed : String) (read : CommandLineReader := Invocation.read) : List Event × Ending :=
  match read arguments with
  | .error answer => answer
  | .ok invocation =>
    match Session.ofLimits invocation.options.limits with
    | .error e => ([.report e.diagnostic], .refused)
    | .ok s => invocation.command.events clock s files typed

end LatexCalc
