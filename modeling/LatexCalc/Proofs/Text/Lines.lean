import LatexCalc.Text.Line

/-!
# Texts without some of their lines

To delete lines of a text, with their line ends, is to leave them out of its lines
(`lines_withoutLines`). The parts that a text is cut into at its line ends are lines by themselves, and
all but the last of them end with a line end, so that what is left of them is cut in the same places.
-/

namespace LatexCalc

/-- Puts a character in front of the first line. -/
def putInFront (c : Char) : List (List Char) → List (List Char)
  | [] => [[c]]
  | line :: rest => (c :: line) :: rest

/-- The lines of a list of characters, with their line ends. -/
def linesWithEnds : List Char → List (List Char)
  | [] => []
  | c :: cs => if c = '\n' then [c] :: linesWithEnds cs else putInFront c (linesWithEnds cs)

/-- A text without the lines that satisfy `p`. -/
def withoutLines (p : String → Bool) (text : String) : String :=
  String.ofList ((linesWithEnds text.toList).filter fun line =>
    !(linesOf line).any fun cs => p (String.ofList cs)).flatten

/-! ## Lines of parts -/

theorem putInFront_append {ls : List (List Char)} (h : ls ≠ []) (c : Char) (ms : List (List Char)) :
    putInFront c (ls ++ ms) = putInFront c ls ++ ms := by
  cases ls with
  | nil => exact absurd rfl h
  | cons line rest => rfl

/-- A carriage return in front of a line feed is no part of the line. -/
theorem linesOf_cons {c : Char} (hc : c ≠ '\n') (cs : List Char) :
    linesOf (c :: cs) =
      if c = '\r' ∧ cs.head? = some '\n' then linesOf cs else putInFront c (linesOf cs) := by
  split
  · next h =>
    obtain ⟨rfl, hcs⟩ := h
    obtain ⟨cs, rfl⟩ := List.head?_eq_some_iff.1 hcs
    rfl
  · next h =>
    rw [linesOf]
    · cases linesOf cs <;> rfl
    · exact hc
    · rintro cs' rfl rfl
      exact h ⟨rfl, rfl⟩

theorem linesOf_ne_nil (body rest : List Char) : linesOf (body ++ '\n' :: rest) ≠ [] := by
  induction body with
  | nil => exact List.cons_ne_nil _ _
  | cons c body ih =>
    by_cases hc : c = '\n'
    · subst hc
      exact List.cons_ne_nil _ _
    · rw [List.cons_append, linesOf_cons hc]
      split
      · exact ih
      · cases linesOf (body ++ '\n' :: rest) <;> exact List.cons_ne_nil _ _

/-- What is in front of a line end does not change the lines behind it. -/
theorem linesOf_append_newline (body rest : List Char) :
    linesOf (body ++ '\n' :: rest) = linesOf (body ++ ['\n']) ++ linesOf rest := by
  induction body with
  | nil => rfl
  | cons c body ih =>
    by_cases hc : c = '\n'
    · subst hc
      exact congrArg ([] :: ·) ih
    · -- Whether a carriage return belongs to the line end does not depend on the lines behind it.
      have hhead : (body ++ '\n' :: rest).head? = (body ++ ['\n']).head? := by cases body <;> rfl
      rw [List.cons_append, List.cons_append, linesOf_cons hc, linesOf_cons hc, hhead]
      split
      · exact ih
      · rw [ih, putInFront_append (linesOf_ne_nil body [])]

theorem linesOf_flatten {parts : List (List Char)}
    (h : parts.Pairwise fun line _ => ∃ body, line = body ++ ['\n']) :
    linesOf parts.flatten = parts.flatMap linesOf := by
  induction parts with
  | nil => rfl
  | cons line parts ih =>
    obtain ⟨hline, hparts⟩ := List.pairwise_cons.1 h
    cases parts with
    | nil => simp
    | cons next parts =>
      obtain ⟨body, rfl⟩ := hline next List.mem_cons_self
      rw [List.flatten_cons, List.flatMap_cons, ← ih hparts, List.append_assoc]
      exact linesOf_append_newline body _

/-! ## Parts of texts -/

theorem flatten_linesWithEnds (cs : List Char) : (linesWithEnds cs).flatten = cs := by
  induction cs with
  | nil => rfl
  | cons c cs ih =>
    rw [linesWithEnds]
    split
    · rw [List.flatten_cons, ih]
      rfl
    · cases h : linesWithEnds cs <;> simp_all [putInFront]

/-- Another line follows only behind a line end. -/
theorem pairwise_linesWithEnds (cs : List Char) :
    (linesWithEnds cs).Pairwise fun line _ => ∃ body, line = body ++ ['\n'] := by
  induction cs with
  | nil => exact .nil
  | cons c cs ih =>
    rw [linesWithEnds]
    split
    · next hc => exact .cons (fun _ _ => ⟨[], by rw [hc]; rfl⟩) ih
    · cases h : linesWithEnds cs with
      | nil => exact List.pairwise_singleton _ _
      | cons line rest =>
        rw [h] at ih
        obtain ⟨hline, hrest⟩ := List.pairwise_cons.1 ih
        refine .cons (fun next hnext => ?_) hrest
        obtain ⟨body, rfl⟩ := hline next hnext
        exact ⟨c :: body, rfl⟩

/-- Each part is one line. -/
theorem linesOf_of_mem_linesWithEnds {cs line : List Char} (h : line ∈ linesWithEnds cs) :
    ∃ x, linesOf line = [x] := by
  induction cs generalizing line with
  | nil => exact absurd h List.not_mem_nil
  | cons c cs ih =>
    rw [linesWithEnds] at h
    split at h
    · next hc =>
      rcases List.mem_cons.1 h with rfl | h
      · exact ⟨[], by rw [hc]; rfl⟩
      · exact ih h
    · next hc =>
      cases hcs : linesWithEnds cs with
      | nil =>
        rw [hcs] at h
        obtain rfl := List.mem_singleton.1 h
        exact ⟨[c], by rw [linesOf_cons hc]; simp [linesOf, putInFront]⟩
      | cons first rest =>
        rw [hcs] at h ih
        rcases List.mem_cons.1 h with rfl | h
        · obtain ⟨x, hx⟩ := ih List.mem_cons_self
          rw [linesOf_cons hc, hx]
          split
          · exact ⟨x, rfl⟩
          · exact ⟨c :: x, rfl⟩
        · exact ih (List.mem_cons_of_mem _ h)

/-- To leave out parts that are one line each is to leave out these lines. -/
theorem flatMap_filter_linesOf (p : List Char → Bool) {parts : List (List Char)}
    (h : ∀ line ∈ parts, ∃ x, linesOf line = [x]) :
    (parts.filter fun line => !(linesOf line).any p).flatMap linesOf =
      (parts.flatMap linesOf).filter fun line => !p line := by
  induction parts with
  | nil => rfl
  | cons line parts ih =>
    rw [List.forall_mem_cons] at h
    obtain ⟨⟨x, hx⟩, h⟩ := h
    rw [List.flatMap_cons, List.filter_append, ← ih h]
    cases hp : p x <;> simp [hx, hp]

/-- **Lines that are deleted** are left out, and the others stay as they are. -/
theorem lines_withoutLines (p : String → Bool) (text : String) :
    lines (withoutLines p text) = (lines text).filter fun line => !p line := by
  have hparts := pairwise_linesWithEnds text.toList
  have hlines : linesOf text.toList = (linesWithEnds text.toList).flatMap linesOf := by
    rw [← linesOf_flatten hparts, flatten_linesWithEnds]
  rw [lines, withoutLines, String.toList_ofList, linesOf_flatten (hparts.filter _),
    flatMap_filter_linesOf _ fun _ => linesOf_of_mem_linesWithEnds, ← hlines, lines, List.filter_map]
  rfl

end LatexCalc
