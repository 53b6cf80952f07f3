import LatexCalc.Diagnostic
import LatexCalc.Text.Blank
import LatexCalc.Token

/-!
# Lexing a line

A line is cut into pieces one after the other (`Piece.first`): blanks and sizing commands, which are
skipped, tokens, and single characters that fit nowhere. The pieces tile the line
(`Piece.text_append_first`), and none is empty (`Piece.text_ne_nil`), so cutting comes to an end. A
`Lexer` yields the pieces that count, each as an `Item` with the byte at which it starts; it goes on
after a character that fits nowhere. `tokenize` wants tokens only.
-/

namespace LatexCalc

/-- The character that starts at byte `offset` of a line fits nowhere. -/
structure LexError where
  char : Char
  offset : Nat
  deriving DecidableEq, Repr

namespace LexError

/-- The account of the failure. -/
def diagnostic (e : LexError) : Diagnostic where
  message := "unexpected character '" ++ String.singleton e.char ++ "'"
  code := "euclid::lex"
  help := "only numbers, letters, \\commands, braces, parentheses and + - * / ^ = | _ are understood"
  labels := [⟨"this input character", e.offset, e.char.utf8Size⟩]

end LexError

/-- What a lexer yields: a token, or a character that fits nowhere. -/
abbrev Item := Except LexError Token

/-! ## Pieces of a line -/

/-- The commands that change the size of the bracket after them and nothing else. -/
def sizingCommands : List String :=
  ["left", "right", "big", "Big", "bigg", "Bigg"]

/-- The commands that spell out a multiplication sign. -/
def productCommands : List String :=
  ["cdot", "times"]

/-- The kind of a character that is a token by itself. -/
def symbolKind? : Char → Option TokenKind
  | '{' => some .braceOpen
  | '}' => some .braceClose
  | '(' => some .parenOpen
  | ')' => some .parenClose
  | '+' | '-' | '*' | '/' | '^' => some .operator
  | '=' => some .equal
  | '|' => some .pipe
  | '_' => some .underscore
  | _ => none

/-- A stretch of a line that is cut out as one. -/
inductive Piece
  | skipped (chars : List Char)
  | token (kind : TokenKind) (chars : List Char)
  | stray (char : Char)
  deriving DecidableEq, Repr

namespace Piece

/-- The characters of a piece. -/
def text : Piece → List Char
  | skipped chars => chars
  | token _ chars => chars
  | stray c => [c]

/-- The bytes that a piece occupies. -/
def size (p : Piece) : Nat :=
  (String.ofList p.text).utf8ByteSize

/-- What a piece at byte `offset` yields. -/
def item? (offset : Nat) : Piece → Option Item
  | skipped _ => none
  | token kind chars => some (.ok ⟨kind, String.ofList chars, offset⟩)
  | stray c => some (.error ⟨c, offset⟩)

/-- A backslash with the letters after it. -/
def command (name : List Char) : Piece :=
  if String.ofList name ∈ sizingCommands then skipped ('\\' :: name)
  else if String.ofList name ∈ productCommands then token .operator ('\\' :: name)
  else token .function ('\\' :: name)

/-- The digits at the start of `cs`, with a point and digits if both follow, and the rest. -/
def number (cs : List Char) : List Char × List Char :=
  match cs.dropWhile Char.isDigit with
  | '.' :: d :: ds =>
    if d.isDigit then
      (cs.takeWhile Char.isDigit ++ '.' :: (d :: ds).takeWhile Char.isDigit,
        (d :: ds).dropWhile Char.isDigit)
    else (cs.takeWhile Char.isDigit, '.' :: d :: ds)
  | rest => (cs.takeWhile Char.isDigit, rest)

/-- The first piece of the line `c :: cs`, and the characters after it. -/
def first (c : Char) (cs : List Char) : Piece × List Char :=
  if c = '\\' then (command (cs.takeWhile Char.isAlpha), cs.dropWhile Char.isAlpha)
  else if c.isAlpha then
    (token .identifier (c :: cs.takeWhile Char.isAlpha), cs.dropWhile Char.isAlpha)
  else if c.isDigit then (token .number (c :: (number cs).1), (number cs).2)
  else match symbolKind? c with
    | some kind => (token kind [c], cs)
    | none => if isBlank c then (skipped [c], cs) else (stray c, cs)

@[simp] theorem text_command (name : List Char) : (command name).text = '\\' :: name := by
  unfold command
  split
  · rfl
  · split <;> rfl

theorem number_append (cs : List Char) : (number cs).1 ++ (number cs).2 = cs := by
  unfold number
  split
  · rename_i d ds h
    split
    · rw [List.append_assoc, List.cons_append, List.takeWhile_append_dropWhile, ← h,
        List.takeWhile_append_dropWhile]
    · rw [← h, List.takeWhile_append_dropWhile]
  · exact List.takeWhile_append_dropWhile

/-- **Pieces tile the line.** Cutting loses no character. -/
theorem text_append_first (c : Char) (cs : List Char) :
    (first c cs).1.text ++ (first c cs).2 = c :: cs := by
  unfold first
  split
  · next h => simp [h, List.takeWhile_append_dropWhile]
  · split
    · simp [text, List.takeWhile_append_dropWhile]
    · split
      · simp [text, number_append]
      · split
        · simp [text]
        · split <;> simp [text]

theorem text_ne_nil (c : Char) (cs : List Char) : (first c cs).1.text ≠ [] := by
  unfold first
  split
  · simp
  · split
    · simp [text]
    · split
      · simp [text]
      · split
        · simp [text]
        · split <;> simp [text]

/-- Cutting off a piece shortens the line. -/
theorem length_first_lt (c : Char) (cs : List Char) :
    (first c cs).2.length < (c :: cs).length := by
  have happ := congrArg List.length (text_append_first c cs)
  have hpos := List.length_pos_iff.2 (text_ne_nil c cs)
  rw [List.length_append] at happ
  omega

end Piece

/-- The items of the characters `cs`, the first of which is at byte `offset`. -/
def itemsFrom (offset : Nat) : List Char → List Item
  | [] => []
  | c :: cs =>
    ((Piece.first c cs).1.item? offset).toList ++
      itemsFrom (offset + (Piece.first c cs).1.size) (Piece.first c cs).2
termination_by cs => cs.length
decreasing_by exact Piece.length_first_lt c cs

/-- The items of a line, in the order of the line. -/
def items (line : String) : List Item :=
  itemsFrom 0 line.toList

/-- The tokens of a line, or the first character of it that fits nowhere. -/
def tokenize (line : String) : Except LexError (List Token) :=
  (items line).mapM id

/-! ## Item by item -/

/-- A position in a line from which items are taken one at a time. -/
structure Lexer where
  /-- The characters not yet cut. -/
  rest : List Char
  /-- The byte at which they start. -/
  offset : Nat
  /-- An item that was cut already but not yet taken. -/
  peeked : Option Item

namespace Lexer

/-- A lexer at the start of a line. -/
def ofLine (line : String) : Lexer :=
  ⟨line.toList, 0, none⟩

/-- Cuts pieces until one yields an item; there is `none` at the end of the line. -/
def scan (offset : Nat) : List Char → Option Item × Lexer
  | [] => (none, ⟨[], offset, none⟩)
  | c :: cs =>
    match (Piece.first c cs).1.item? offset with
    | some item =>
      (some item, ⟨(Piece.first c cs).2, offset + (Piece.first c cs).1.size, none⟩)
    | none => scan (offset + (Piece.first c cs).1.size) (Piece.first c cs).2
termination_by cs => cs.length
decreasing_by exact Piece.length_first_lt c cs

/-- Takes the next item. -/
def next (l : Lexer) : Option Item × Lexer :=
  match l.peeked with
  | some item => (some item, { l with peeked := none })
  | none => scan l.offset l.rest

/-- Looks at the next item and leaves it to be taken. -/
def peek (l : Lexer) : Option Item × Lexer :=
  match l.next with
  | (item, after) => (item, { after with peeked := item })

end Lexer

end LatexCalc
