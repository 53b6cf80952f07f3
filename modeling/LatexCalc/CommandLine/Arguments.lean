import LatexCalc.Decimal.Read
import LatexCalc.Limits
import LatexCalc.Numeric.Arithmetic

/-!
# Arguments

What a command line asks for: a listing of a file, or a dialogue, within limits. Options may stand
before or after the command. On either side each may be given once; one after the command counts
more than the same one before it. After `--`, everything is the name of a file.

This stands in for a full reader of command lines. It differs from one where help or the version is
asked for (`help`, `-h` and `--help`, `-V` and `--version`), which is to be answered with a text and the
code 0, and is misuse here, with the code 2. The messages of misuse have a wording of their own.
-/

namespace LatexCalc

/-- What is listed of a file. -/
inductive Listing
  | tokens
  | trees
  | results
  deriving DecidableEq, Repr

/-- What a command line asks for. -/
inductive Command
  | list (what : Listing) (path : String)
  | dialogue
  deriving DecidableEq, Repr

/-- The options that take a count. -/
inductive CountOption
  | maxIterations
  | timeoutMs
  | steps
  deriving DecidableEq, Repr

/-- An option as it is written. -/
def CountOption.text : CountOption → String
  | maxIterations => "--max-iterations"
  | timeoutMs => "--timeout-ms"
  | steps => "--steps"

/-- Why a command line asks for nothing. -/
inductive UsageError
  | missingCommand
  | missingPath
  | missingValue (option : CountOption)
  | invalidValue (option : CountOption) (value : String)
  | repeatedOption (argument : String)
  | unexpected (argument : String)
  deriving DecidableEq, Repr

/-- The failure in words. -/
def UsageError.message : UsageError → String
  | missingCommand => "a command is required: tokenize, parse, eval or calc"
  | missingPath => "the name of a file is required"
  | missingValue option => "a value is required for '" ++ option.text ++ "'"
  | invalidValue option value => "invalid value '" ++ value ++ "' for '" ++ option.text ++ "'"
  | repeatedOption argument => "the argument '" ++ argument ++ "' cannot be used multiple times"
  | unexpected argument => "unexpected argument '" ++ argument ++ "'"

/-! ## Single arguments -/

/-- What one argument is by itself. -/
inductive Argument
  | verbose
  /-- An option, with its value if that is part of the argument. -/
  | count (option : CountOption) (value : Option String)
  | separator
  | word (text : String)
  | unknown (text : String)
  deriving DecidableEq, Repr

/-- The option with a name. -/
def CountOption.ofText? (s : String) : Option CountOption :=
  [maxIterations, timeoutMs, steps].find? fun o => o.text = s

/-- Tells what an argument is. A single dash is a word. -/
def Argument.ofText (s : String) : Argument :=
  let name := s.toList.takeWhile (· ≠ '=')
  let value := s.toList.dropWhile (· ≠ '=')
  if s = "--" then separator
  else if s = "-v" ∨ s = "--verbose" then verbose
  else match CountOption.ofText? (String.ofList name) with
    | some option => count option (value.tail?.map String.ofList)
    | none => if s.startsWith "-" ∧ s ≠ "-" then unknown s else word s

/-- The count that a text is: digits, which may follow a plus sign. -/
def readCount? (s : String) : Option Nat :=
  let digits := match s.toList with
    | '+' :: cs => cs
    | cs => cs
  (wholeNumber? digits).filter (· ≤ maxCount)

/-! ## Options -/

/-- The options given on one side of the command. -/
structure Options where
  verbose : Bool := false
  maxIterations : Option Nat := none
  timeoutMs : Option Nat := none
  steps : Option Nat := none
  deriving DecidableEq, Repr

namespace Options

/-- The value of an option. -/
def get (o : Options) : CountOption → Option Nat
  | .maxIterations => o.maxIterations
  | .timeoutMs => o.timeoutMs
  | .steps => o.steps

/-- The options with the value of one set. -/
def set (o : Options) (n : Nat) : CountOption → Options
  | .maxIterations => { o with maxIterations := some n }
  | .timeoutMs => { o with timeoutMs := some n }
  | .steps => { o with steps := some n }

/-- Adds an option with its value. -/
def addCount (o : Options) (option : CountOption) (value : String) : Except UsageError Options :=
  if (o.get option).isSome then .error (.repeatedOption option.text)
  else match readCount? value with
    | some n => .ok (o.set n option)
    | none => .error (.invalidValue option value)

/-- Adds the option to tell more. -/
def addVerbose (o : Options) : Except UsageError Options :=
  if o.verbose then .error (.repeatedOption "--verbose") else .ok { o with verbose := true }

/-- The options of both sides of the command. -/
def merge (before after : Options) : Options where
  verbose := before.verbose || after.verbose
  maxIterations := after.maxIterations <|> before.maxIterations
  timeoutMs := after.timeoutMs <|> before.timeoutMs
  steps := after.steps <|> before.steps

/-- The limits that options ask for. No time at all stands for no limit on it. -/
def limits (o : Options) : Limits :=
  let default : Limits := {}
  { default with
    maxIterations := o.maxIterations.getD default.maxIterations
    timeout := match o.timeoutMs with
      | none => default.timeout
      | some 0 => none
      | some ms => some (ms * 1000000)
    quadratureSteps := o.steps.getD default.quadratureSteps }

end Options

/-! ## Command lines -/

/-- Reads options up to the first word, which names the command; the arguments after it follow. -/
def readCommandName (o : Options) : List String → Except UsageError (Options × String × List String)
  | [] => .error .missingCommand
  | a :: rest =>
    match Argument.ofText a with
    | .verbose => do readCommandName (← o.addVerbose) rest
    | .count option (some value) => do readCommandName (← o.addCount option value) rest
    | .count option none =>
      match rest with
      | [] => .error (.missingValue option)
      | value :: rest => do readCommandName (← o.addCount option value) rest
    | .word name => .ok (o, name, rest)
    | .separator | .unknown _ => .error (.unexpected a)

/-- Reads options and words. -/
def readWords (o : Options) : List String → Except UsageError (Options × List String)
  | [] => .ok (o, [])
  | a :: rest =>
    match Argument.ofText a with
    | .verbose => do readWords (← o.addVerbose) rest
    | .count option (some value) => do readWords (← o.addCount option value) rest
    | .count option none =>
      match rest with
      | [] => .error (.missingValue option)
      | value :: rest => do readWords (← o.addCount option value) rest
    | .word text => do
      let (o, words) ← readWords o rest
      return (o, text :: words)
    | .separator => .ok (o, rest)
    | .unknown _ => .error (.unexpected a)

/-- The one word that names a file. -/
def readPath : List String → Except UsageError String
  | [] => .error .missingPath
  | [word] => if word = "" then .error .missingPath else .ok word
  | _ :: word :: _ => .error (.unexpected word)

/-- The command with a name and the words after it. -/
def Command.ofWords (name : String) (words : List String) : Except UsageError Command :=
  match name, words with
  | "calc", [] => .ok .dialogue
  | "calc", word :: _ => .error (.unexpected word)
  | "tokenize", words => do return .list .tokens (← readPath words)
  | "parse", words => do return .list .trees (← readPath words)
  | "eval", words => do return .list .results (← readPath words)
  | _, _ => .error (.unexpected name)

/-- What a command line asks for. -/
structure Invocation where
  command : Command
  options : Options
  deriving DecidableEq, Repr

/-- Reads a command line. -/
def Invocation.ofArguments (arguments : List String) : Except UsageError Invocation := do
  let (before, name, rest) ← readCommandName {} arguments
  let (after, words) ← readWords {} rest
  return ⟨← Command.ofWords name words, before.merge after⟩

end LatexCalc
