/-!
# Tokens

A token is a stretch of a line together with its kind and the byte at which it starts. Tokens need
not come from a line: any list of them can be parsed.
-/

namespace LatexCalc

/-- The kinds of token. A `function` is a backslash command that is not a spelled-out operator. -/
inductive TokenKind
  | number
  | identifier
  | function
  | operator
  | braceOpen
  | braceClose
  | parenOpen
  | parenClose
  | equal
  | pipe
  | underscore
  deriving DecidableEq, Repr

/-- A kind as messages name it. -/
def TokenKind.text : TokenKind → String
  | number => "number"
  | identifier => "identifier"
  | function => "command"
  | operator => "operator"
  | braceOpen => "'\x7b'"
  | braceClose => "'\x7d'"
  | parenOpen => "'('"
  | parenClose => "')'"
  | equal => "'='"
  | pipe => "'|'"
  | underscore => "'_'"

/-- A kind as listings of tokens name it. -/
def TokenKind.tag : TokenKind → String
  | number => "Number"
  | identifier => "Identifier"
  | function => "Function"
  | operator => "Operator"
  | braceOpen => "BraceOpen"
  | braceClose => "BraceClose"
  | parenOpen => "ParenOpen"
  | parenClose => "ParenClose"
  | equal => "Equal"
  | pipe => "Pipe"
  | underscore => "Underscore"

structure Token where
  kind : TokenKind
  text : String
  /-- The byte of the line at which the text starts. -/
  offset : Nat
  deriving DecidableEq, Repr

namespace Token

/-- The bytes that the text occupies. -/
def size (t : Token) : Nat :=
  t.text.utf8ByteSize

/-- The text without its leading backslashes: the name of a command. -/
def command (t : Token) : String :=
  String.ofList (t.text.toList.dropWhile (· = '\\'))

/-- A token as a listing shows it. Of the characters that tokens of a line consist of, the backslash
alone is written as two. -/
def listed (t : Token) : String :=
  "Token \x7b slice: \"" ++ t.text.replace "\\" "\\\\" ++ "\", offset: " ++ toString t.offset ++
    ", kind: " ++ t.kind.tag ++ " \x7d"

/-- The variable `x` of a text `dx`: a `d` and at least one more character. -/
def differential? (t : Token) : Option String :=
  match t.text.toList with
  | 'd' :: c :: cs => some (String.ofList (c :: cs))
  | _ => none

end Token

end LatexCalc
