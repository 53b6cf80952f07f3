import LatexCalc.CommandLine.Program

/-!
# Command line

Runs the program: reads files and typed lines, shows results on standard output and failures on
standard error.
-/

open LatexCalc

namespace LatexCalc.Main

/-- Shows an event. -/
def perform : Event → IO Unit
  | .print text => do
    let out ← IO.getStdout
    out.putStr text
    out.flush
  | .report failure => do
    let err ← IO.getStderr
    err.putStrLn failure.message
    if let some help := failure.help then
      err.putStrLn ("help: " ++ help)

/-- Reads a line up to its end, which is left off; there is none after the last one. -/
def readLine? : IO (Option String) := do
  return (lines (← (← IO.getStdin).getLine)).head?

/-- Reads and answers lines until there are no more or one ends the dialogue. -/
partial def converse (s : Session) : IO Unit := do
  perform prompt
  if let some line ← readLine? then
    let (events, next) := answer Clock.steady s line
    events.forM perform
    if let some s := next then
      converse s

/-- Reads a file, if it can be read. -/
def readFile? (path : String) : IO (Option String) := do
  try
    return some (← IO.FS.readFile path)
  catch _ =>
    return none

/-- Runs a command line and returns the code to end with. -/
def run (arguments : List String) : IO Ending := do
  match Invocation.read arguments with
  | .ok ⟨.dialogue, options⟩ =>
    match Session.ofLimits options.limits with
    | .ok s =>
      converse s
      return .done
    | .error e =>
      perform (.report e.diagnostic)
      return .refused
  | .ok ⟨.list _ path, _⟩ =>
    let text ← readFile? path
    let (events, ending) := program Clock.steady arguments (fun _ => text) ""
    events.forM perform
    return ending
  | .error (events, ending) =>
    events.forM perform
    return ending

end LatexCalc.Main

def main (arguments : List String) : IO UInt32 := do
  return (← LatexCalc.Main.run arguments).code.toUInt32
