/-!
# Diagnostics

What a reader of a failed line is told: one sentence, a code for the kind of failure, a hint, and
the stretches of the line that the sentence is about.
-/

namespace LatexCalc

/-- A remark on `length` bytes of a line, from byte `offset` on. -/
structure Label where
  text : String
  offset : Nat
  length : Nat
  deriving DecidableEq, Repr

/-- The full account of a failure. -/
structure Diagnostic where
  message : String
  code : Option String := none
  help : Option String := none
  labels : List Label := []
  deriving DecidableEq, Repr

end LatexCalc
