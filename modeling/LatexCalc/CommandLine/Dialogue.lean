import LatexCalc.CommandLine.Listing

/-!
# Dialogues

A dialogue asks for lines and answers each with its result. A blank line is passed over; `vars`
stands for the names with their values, and `exit` ends the dialogue, both in either case.
-/

namespace LatexCalc

/-- What is shown before a line is read. -/
def prompt : Event :=
  .print "euclid> "

/-- What a line of a dialogue asks for. -/
inductive Request
  | nothing
  | leave
  | bindings
  | evaluate (line : String)
  deriving DecidableEq, Repr

/-- The request that a line is. -/
def Request.ofLine (line : String) : Request :=
  let line := trim line
  if line = "" then nothing
  else if line.toLower = "exit" then leave
  else if line.toLower = "vars" then bindings
  else evaluate line

/-- Shows the variables with their values. -/
def listBindings (env : Environment) : List Event :=
  env.toList.map fun b => printLine (b.1 ++ " = " ++ formatValue b.2)

/-- The answer to a line, and the session that goes on, if one does. -/
def answer (clock : Clock) (s : Session) (line : String) : List Event × Option Session :=
  match Request.ofLine line with
  | .nothing => ([], some s)
  | .leave => ([], none)
  | .bindings => (listBindings s.env, some s)
  | .evaluate line =>
    match s.evaluate clock line with
    | (.ok x, s) => ([printLine ("= " ++ formatValue x)], some s)
    | (.error e, s) => ([.report e.diagnostic], some s)

/-- The events of a dialogue over the lines that are read. -/
def dialogue (clock : Clock) (s : Session) : List String → List Event
  | [] => [prompt]
  | line :: rest =>
    match answer clock s line with
    | (events, some s) => prompt :: events ++ dialogue clock s rest
    | (events, none) => prompt :: events

end LatexCalc
