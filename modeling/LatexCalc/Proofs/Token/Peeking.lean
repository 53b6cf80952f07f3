import LatexCalc.Proofs.Token.Items
import Mathlib.Data.List.Basic

/-!
# Looking at the next item

A lexer is asked for items by calls of two kinds: to take the next item, or to look at it. What a call is
answered depends only on the items that are pending, and only a call that takes one changes these
(`Lexer.pending_answer`). So the answer to a call is the item behind as many as were taken before it
(`Lexer.getElem?_answers`), and the calls that look make no difference to those that take
(`Lexer.answers_withoutPeeks`).
-/

namespace LatexCalc.Lexer

/-! ## One call -/

/-- What a lexer is asked for. -/
inductive Call
  /-- To take the next item. -/
  | next
  /-- To look at the next item. -/
  | peek
  deriving DecidableEq, Repr

/-- The answer to a call, and the lexer after it. -/
def answer (l : Lexer) : Call → Option Item × Lexer
  | .next => l.next
  | .peek => l.peek

/-- A scan that comes to the end leaves nothing. -/
theorem rest_of_scan_none {offset : Nat} {cs : List Char} {after : Lexer}
    (h : scan offset cs = (none, after)) : after.rest = [] ∧ after.peeked = none := by
  induction offset, cs using scan.induct with
  | case1 offset =>
    rw [scan] at h
    cases h
    exact ⟨rfl, rfl⟩
  | case2 offset c cs item hitem =>
    rw [scan, hitem] at h
    cases h
  | case3 offset c cs hitem ih =>
    rw [scan, hitem] at h
    exact ih h

/-- The item that is taken is the first one that is pending, and those behind it stay. None is put aside
to be taken later. -/
theorem next_spec (l : Lexer) :
    l.next.1 = l.pending.head? ∧ l.next.2.pending = l.pending.tail ∧ l.next.2.peeked = none := by
  unfold next
  split
  · next item hpeeked => simp [pending, hpeeked]
  · next hpeeked =>
    cases h : scan l.offset l.rest with
    | mk item after =>
      cases item with
      | none =>
        obtain ⟨hrest, hafter⟩ := rest_of_scan_none h
        simp [pending, hpeeked, hafter, hrest, itemsFrom, itemsFrom_of_scan_none h]
      | some item =>
        obtain ⟨hitems, hafter, -⟩ := itemsFrom_of_scan h
        simp [pending, hpeeked, hitems, hafter]

/-- The item that is looked at is the first one that is pending, and it stays there. -/
theorem peek_spec (l : Lexer) : l.peek.1 = l.pending.head? ∧ l.peek.2.pending = l.pending := by
  obtain ⟨hitem, hpending, hpeeked⟩ := l.next_spec
  refine ⟨hitem, ?_⟩
  have hafter : itemsFrom l.next.2.offset l.next.2.rest = l.pending.tail := by
    rw [← hpending, pending, hpeeked]
    rfl
  show l.next.1.toList ++ itemsFrom l.next.2.offset l.next.2.rest = l.pending
  rw [hitem, hafter]
  cases l.pending <;> rfl

/-- **A call is answered with the first item that is pending.** To look at it does not change what is
pending. -/
theorem pending_answer (l : Lexer) (call : Call) :
    (l.answer call).1 = l.pending.head? ∧
      (l.answer call).2.pending = l.pending.drop (if call = .next then 1 else 0) := by
  cases call with
  | next =>
    obtain ⟨hitem, hpending, -⟩ := l.next_spec
    exact ⟨hitem, by rw [if_pos rfl, List.drop_one]; exact hpending⟩
  | peek => exact l.peek_spec

/-! ## Many calls -/

/-- Calls, one after the other, each with its answer. -/
def answers (l : Lexer) : List Call → List (Call × Option Item)
  | [] => []
  | call :: calls => (call, (l.answer call).1) :: (l.answer call).2.answers calls

/-- **The answer to a call** is the item behind as many as were taken before it. -/
theorem getElem?_answers (l : Lexer) (calls : List Call) (i : Nat) :
    (l.answers calls)[i]? =
      calls[i]?.map fun call => (call, l.pending[(calls.take i).count .next]?) := by
  induction calls generalizing l i with
  | nil => rfl
  | cons call calls ih =>
    obtain ⟨hitem, hpending⟩ := l.pending_answer call
    cases i with
    | zero => simp [answers, hitem, List.head?_eq_getElem?]
    | succ i =>
      have hcount : (if call = .next then 1 else 0) + (calls.take i).count .next =
          ((call :: calls).take (i + 1)).count .next := by
        cases call <;> simp [Nat.add_comm]
      rw [answers, List.getElem?_cons_succ, List.getElem?_cons_succ, ih, hpending]
      simp only [List.getElem?_drop, hcount]

/-- Lexers with the same items pending give the same answers. -/
theorem answers_congr {l l' : Lexer} (h : l.pending = l'.pending) (calls : List Call) :
    l.answers calls = l'.answers calls := by
  refine List.ext_getElem? fun i => ?_
  rw [getElem?_answers, getElem?_answers, h]

theorem filter_answers (l : Lexer) (calls : List Call) :
    (l.answers calls).filter (·.1 = .next) = l.answers (calls.filter (· = .next)) := by
  induction calls generalizing l with
  | nil => rfl
  | cons call calls ih =>
    cases call with
    | next => simp [answers, ih]
    | peek =>
      -- The lexer after the call has the same items pending.
      have hsame := answers_congr l.peek_spec.2 (calls.filter (· = .next))
      rw [answers, List.filter_cons_of_neg (by simp), List.filter_cons_of_neg (by simp), ih]
      exact hsame

/-- Calls that look take nothing. -/
theorem count_take_of_peeks {calls : List Call} {i j : Nat} (hij : i ≤ j)
    (h : ∀ k, i ≤ k → k < j → calls[k]? = some .peek) :
    (calls.take i).count .next = (calls.take j).count .next := by
  induction hij with
  | refl => rfl
  | @step j hij ih =>
    have hpeek : calls[j]? = some .peek := h j hij (Nat.lt_succ_self j)
    rw [List.take_add_one, hpeek, List.count_append, ih fun k hk hlt => h k hk (Nat.lt_succ_of_lt hlt)]
    rfl

/-- **To look at items is invisible.** The answers to the calls that take an item are those of the same
calls without the ones that only look; what is looked at is what is taken by the next call that takes an
item, however often it is looked at until then; and at the end of the line, all further calls come to the
end. -/
theorem answers_withoutPeeks (l : Lexer) (calls : List Call) :
    (l.answers calls).filter (·.1 = .next) = l.answers (calls.filter (· = .next)) ∧
    (∀ i j : Nat, i < j → (∀ k, i ≤ k → k < j → calls[k]? = some .peek) →
      calls[j]? = some .next → ∃ item, (l.answers calls)[i]? = some (.peek, item) ∧
        (l.answers calls)[j]? = some (.next, item)) ∧
    ∀ (i j : Nat) (call call' : Call) (item : Option Item), i < j →
      (l.answers calls)[i]? = some (call, none) → (l.answers calls)[j]? = some (call', item) →
        item = none := by
  refine ⟨filter_answers l calls, fun i j hij hpeek hnext => ?_,
    fun i j call call' item hij hi hj => ?_⟩
  · refine ⟨l.pending[(calls.take j).count .next]?, ?_, by rw [getElem?_answers, hnext]; rfl⟩
    rw [getElem?_answers, hpeek i (Nat.le_refl i) hij, count_take_of_peeks (Nat.le_of_lt hij) hpeek]
    rfl
  · rw [getElem?_answers, Option.map_eq_some_iff] at hi hj
    obtain ⟨_, -, hi⟩ := hi
    obtain ⟨_, -, hj⟩ := hj
    have hend : l.pending.length ≤ (calls.take i).count .next :=
      List.getElem?_eq_none_iff.1 (Prod.mk.inj hi).2
    have hle : (calls.take i).count .next ≤ (calls.take j).count .next :=
      (List.take_sublist_take_left (Nat.le_of_lt hij)).count_le _
    rw [← (Prod.mk.inj hj).2]
    exact List.getElem?_eq_none (Nat.le_trans hend hle)

/-- At the character `%` the line cannot be read, and behind it the line ends. -/
theorem answers_withoutPeeks_stray :
    let calls : List Call := [.peek, .next, .peek, .peek, .next, .next, .peek]
    let answers := (ofLine "2 %").answers calls
    answers.filter (·.1 = .next) = (ofLine "2 %").answers [.next, .next, .next] ∧
      (∃ item, answers[2]? = some (.peek, item) ∧ answers[4]? = some (.next, item)) ∧
      answers[5]? = some (.next, none) ∧ ∀ item, answers[6]? = some (.peek, item) → item = none := by
  intro calls answers
  obtain ⟨htaken, hlooked, hend⟩ := answers_withoutPeeks (ofLine "2 %") calls
  have hover : answers[5]? = some (.next, none) := by decide +kernel
  refine ⟨htaken, hlooked 2 4 (by decide) (fun k hk hlt => ?_) rfl, hover,
    fun item => hend 5 6 .next .peek item (by decide) hover⟩
  obtain rfl | rfl : k = 2 ∨ k = 3 := by omega
  · rfl
  · rfl

end LatexCalc.Lexer
