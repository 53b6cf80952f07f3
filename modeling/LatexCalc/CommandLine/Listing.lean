import LatexCalc.CommandLine.Arguments
import LatexCalc.Result
import LatexCalc.Session
import LatexCalc.Text.Line

/-!
# Listings

What is shown for a file: the tokens of its lines, the trees of its lines, or the results of its
lines, evaluated in one session. A line that fails is reported, and the next one follows.
-/

namespace LatexCalc

/-- What a program shows: text, or the account of a failure. -/
inductive Event
  | print (text : String)
  | report (failure : Diagnostic)
  deriving DecidableEq, Repr

/-- The text that events show. -/
def Event.printed : List Event → String
  | [] => ""
  | .print text :: rest => text ++ printed rest
  | .report _ :: rest => printed rest

/-- Shows a line of text. -/
def printLine (text : String) : Event :=
  .print (text ++ "\n")

/-- Shows items up to the first character that fits nowhere. -/
def listItems : List Item → List Event
  | [] => []
  | .ok t :: rest => printLine t.listed :: listItems rest
  | .error e :: _ => [.report e.diagnostic]

/-- Shows the tree of a line, if it is not blank. -/
def listTree (line : String) : List Event :=
  if trim line = "" then []
  else match parseLine line with
    | .ok statement => [printLine statement.text]
    | .error e => [.report e.diagnostic]

/-- Shows the results of lines in a session. -/
def listResults (clock : Clock) (s : Session) : List String → List Event
  | [] => []
  | line :: rest =>
    if trim line = "" then listResults clock s rest
    else match s.evaluate clock (trim line) with
      | (.ok x, s) => printLine (trim line ++ " = " ++ formatValue x) :: listResults clock s rest
      | (.error e, s) => .report e.diagnostic :: listResults clock s rest

/-- Shows the contents of a file. -/
def Listing.events (clock : Clock) (s : Session) (text : String) : Listing → List Event
  | tokens => (lines text).flatMap fun line => listItems (items line)
  | trees => (lines text).flatMap listTree
  | results => listResults clock s (lines text)

end LatexCalc
