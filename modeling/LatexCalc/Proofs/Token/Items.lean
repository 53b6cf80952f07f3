import LatexCalc.Token.Lexer

/-!
# Taking all items

`Lexer.drain` takes items from a lexer until there is none left. From the start of a line these are the
items of the line (`Lexer.drain_ofLine`), and from any place they are the item that was looked at
already, if there is one, and those of the characters not yet cut (`Lexer.drain_eq`).
-/

namespace LatexCalc.Lexer

/-- The item that scanning comes to is the first one, and the others follow. -/
theorem itemsFrom_of_scan {offset : Nat} {cs : List Char} {item : Item} {after : Lexer}
    (h : scan offset cs = (some item, after)) :
    itemsFrom offset cs = item :: itemsFrom after.offset after.rest ∧ after.peeked = none ∧
      after.rest.length < cs.length := by
  induction offset, cs using scan.induct with
  | case1 offset =>
    rw [scan] at h
    cases h
  | case2 offset c cs item' hitem =>
    rw [scan, hitem] at h
    cases h
    rw [itemsFrom, hitem]
    exact ⟨rfl, rfl, Piece.length_first_lt c cs⟩
  | case3 offset c cs hitem ih =>
    rw [scan, hitem] at h
    obtain ⟨hitems, hpeeked, hlt⟩ := ih h
    rw [itemsFrom, hitem]
    exact ⟨hitems, hpeeked, Nat.lt_trans hlt (Piece.length_first_lt c cs)⟩

theorem itemsFrom_of_scan_none {offset : Nat} {cs : List Char} {after : Lexer}
    (h : scan offset cs = (none, after)) : itemsFrom offset cs = [] := by
  induction offset, cs using scan.induct with
  | case1 offset => rw [itemsFrom]
  | case2 offset c cs item hitem =>
    rw [scan, hitem] at h
    cases h
  | case3 offset c cs hitem ih =>
    rw [scan, hitem] at h
    rw [itemsFrom, hitem]
    exact ih h

/-- The items not yet taken. -/
def pending (l : Lexer) : List Item :=
  l.peeked.toList ++ itemsFrom l.offset l.rest

/-- How many characters and items are at most left to take. -/
def measure (l : Lexer) : Nat :=
  l.peeked.toList.length + l.rest.length

/-- The item taken next is the first one that is pending. -/
theorem pending_of_next {l after : Lexer} {item : Item} (h : l.next = (some item, after)) :
    l.pending = item :: after.pending ∧ after.measure < l.measure := by
  unfold next at h
  split at h
  · next _ hpeeked =>
    cases h
    simp [pending, measure, hpeeked]
  · next hpeeked =>
    obtain ⟨hitems, hafter, hlt⟩ := itemsFrom_of_scan h
    simpa [pending, measure, hpeeked, hafter, hitems] using hlt

theorem pending_of_next_none {l after : Lexer} (h : l.next = (none, after)) : l.pending = [] := by
  unfold next at h
  split at h
  · cases h
  · next hpeeked => simp [pending, hpeeked, itemsFrom_of_scan_none h]

/-- Takes items until there is none left. -/
def drain (l : Lexer) : List Item :=
  match h : l.next with
  | (some item, after) =>
    have := (pending_of_next h).2
    item :: after.drain
  | (none, _) => []
termination_by l.measure

/-- **What is taken is what was pending.** -/
theorem drain_eq (l : Lexer) : l.drain = l.pending := by
  induction l using drain.induct with
  | case1 l item after h _ ih =>
    rw [drain, (pending_of_next h).1, ← ih]
    split
    · next h' =>
      cases h.symm.trans h'
      rfl
    · next h' => cases h.symm.trans h'
  | case2 l after h =>
    rw [drain, pending_of_next_none h]
    split
    · next h' => cases h.symm.trans h'
    · rfl

theorem drain_ofLine (line : String) : (ofLine line).drain = items line :=
  drain_eq _

end LatexCalc.Lexer
