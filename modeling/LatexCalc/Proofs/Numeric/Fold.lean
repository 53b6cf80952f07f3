import Mathlib.Data.List.Forall2
import LatexCalc.Numeric.Range

/-!
# Folds over ranges

A fold over a range is a fold over the list of its numbers (`foldRange_eq_foldList`). What it calls its body
on shows where the body notes its calls down (`noted`): the numbers from the first one on, each once, up to
the first one on which the body fails (`run_foldRange_noted`).
-/

namespace LatexCalc

variable {m : Type → Type} [Monad m] {α β ε : Type}

/-! ## Loops over lists -/

/-- Numbered steps are steps over the list of the numbers. -/
theorem foldFrom_eq_foldlM (step : Nat → β → m β) (i count : Nat) (b : β) :
    foldFrom step i count b = (List.range' i count).foldlM (fun b k => step k b) b := by
  induction count generalizing i b with
  | zero => rfl
  | succ count ih =>
    rw [List.range'_succ, List.foldlM_cons, foldFrom]
    exact congrArg (step i b >>= ·) (funext fun b => ih (i + 1) b)

/-- Combines what `body` makes of the numbers in a list, from the first one on. -/
def foldList (combine : α → α → α) (body : α → m α) (acc : α) (xs : List α) : m α :=
  xs.foldlM (fun acc x => do return combine acc (← body x)) acc

/-- The numbers of a range, in their order. -/
def rangePoints [Arithmetic α] (start stop : α) : List α :=
  (List.range (rangeLength start stop)).map (rangePoint start)

theorem foldRange_eq_foldList [Arithmetic α] (start stop identity : α) (combine : α → α → α)
    (body : α → m α) : foldRange start stop identity combine body =
      foldList combine body identity (rangePoints start stop) := by
  unfold foldRange foldList rangePoints
  rw [foldFrom_eq_foldlM, List.foldlM_map, List.range_eq_range']

/-! ## Bodies that fail -/

/-- The numbers up to the first one on which the body fails, that one included. -/
def upToFailure (body : α → Except ε α) : List α → List α
  | [] => []
  | x :: xs =>
    match body x with
    | .ok _ => x :: upToFailure body xs
    | .error _ => [x]

section

variable {combine : α → α → α} {body : α → Except ε α} {acc x y : α} {xs ys : List α} {e : ε}

theorem upToFailure_isPrefix (body : α → Except ε α) (xs : List α) : upToFailure body xs <+: xs := by
  induction xs with
  | nil => exact List.prefix_rfl
  | cons x xs ih =>
    unfold upToFailure
    split
    · exact (List.prefix_cons_inj x).2 ih
    · exact List.prefix_append [x] xs

theorem upToFailure_of_ok (h : ∀ x, ∃ y, body x = .ok y) (xs : List α) : upToFailure body xs = xs := by
  induction xs with
  | nil => rfl
  | cons x xs ih =>
    obtain ⟨y, hy⟩ := h x
    rw [upToFailure, hy, ih]

theorem foldList_of_ok (h : body x = .ok y) :
    foldList combine body acc (x :: xs) = foldList combine body (combine acc y) xs := by
  unfold foldList
  rw [List.foldlM_cons, h]
  rfl

theorem foldList_of_error (h : body x = .error e) :
    foldList combine body acc (x :: xs) = .error e := by
  unfold foldList
  rw [List.foldlM_cons, h]
  rfl

/-- Before a failure the results are combined from the left. -/
theorem foldList_append (h : List.Forall₂ (fun x y => body x = .ok y) xs ys) (acc : α)
    (rest : List α) :
    foldList combine body acc (xs ++ rest) = foldList combine body (ys.foldl combine acc) rest := by
  induction h generalizing acc with
  | nil => rfl
  | cons h _ ih => exact (foldList_of_ok h).trans (ih _)

theorem upToFailure_append (h : List.Forall₂ (fun x y => body x = .ok y) xs ys) (rest : List α) :
    upToFailure body (xs ++ rest) = xs ++ upToFailure body rest := by
  induction h with
  | nil => rfl
  | cons h _ ih => rw [List.cons_append, upToFailure, h, List.cons_append, ih]

end

/-! ## Bodies that note down their calls -/

/-- A body that notes down what it is called on. -/
def noted (body : α → Except ε α) (x : α) : ExceptT ε (StateM (List α)) α :=
  ExceptT.mk fun calls => (body x, calls ++ [x])

/-- A loop that calls a body on the number `point i` in step `i`. -/
def callLoop (point : Nat → α) (combine : Nat → β → α → β) (body : α → m α) : Nat → Nat → β → m β :=
  foldFrom fun i b => do return combine i b (← body (point i))

section

variable {point : Nat → α} {combine : Nat → β → α → β} {body : α → Except ε α} {i count : Nat} {b : β}
  {y : α} {e : ε}

theorem callLoop_of_ok (h : body (point i) = .ok y) :
    callLoop point combine body i (count + 1) b =
      callLoop point combine body (i + 1) count (combine i b y) := by
  unfold callLoop
  rw [foldFrom, h]
  rfl

theorem callLoop_of_error (h : body (point i) = .error e) :
    callLoop point combine body i (count + 1) b = .error e := by
  unfold callLoop
  rw [foldFrom, h]
  rfl

/-- A loop fails as its body does on the first point on which that fails. -/
theorem callLoop_of_first_error {j : Nat} (hj : j < count)
    (hok : ∀ k < j, ∃ y, body (point (i + k)) = .ok y) (he : body (point (i + j)) = .error e) :
    callLoop point combine body i count b = .error e := by
  induction j generalizing i count b with
  | zero =>
    cases count with
    | zero => exact absurd hj (Nat.lt_irrefl 0)
    | succ count => exact callLoop_of_error he
  | succ j ih =>
    cases count with
    | zero => exact absurd hj (Nat.not_lt_zero _)
    | succ count =>
      obtain ⟨y, hy⟩ : ∃ y, body (point i) = .ok y := hok 0 (Nat.succ_pos j)
      rw [callLoop_of_ok hy]
      refine ih (Nat.lt_of_succ_lt_succ hj) (fun k hk => ?_) ?_
      · rw [Nat.add_assoc, Nat.add_comm 1 k]
        exact hok (k + 1) (Nat.succ_lt_succ hk)
      · rwa [Nat.add_assoc, Nat.add_comm 1 j]

theorem run_callLoop_noted_of_ok (h : body (point i) = .ok y) (calls : List α) :
    (callLoop point combine (noted body) i (count + 1) b).run.run calls =
      (callLoop point combine (noted body) (i + 1) count (combine i b y)).run.run
        (calls ++ [point i]) := by
  unfold callLoop
  rw [foldFrom, noted, h]
  rfl

theorem run_callLoop_noted_of_error (h : body (point i) = .error e) (calls : List α) :
    (callLoop point combine (noted body) i (count + 1) b).run.run calls =
      (.error e, calls ++ [point i]) := by
  unfold callLoop
  rw [foldFrom, noted, h]
  rfl

/-- **A loop that notes down its calls** comes to the same as one that does not, and the calls are the points
of its steps up to the first failure. -/
theorem run_callLoop_noted (point : Nat → α) (combine : Nat → β → α → β) (body : α → Except ε α)
    (i count : Nat) (b : β) (calls : List α) :
    (callLoop point combine (noted body) i count b).run.run calls =
      (callLoop point combine body i count b,
        calls ++ upToFailure body ((List.range' i count).map point)) := by
  induction count generalizing i b calls with
  | zero => exact congrArg (Prod.mk _) (List.append_nil calls).symm
  | succ count ih =>
    rw [List.range'_succ, List.map_cons, upToFailure]
    cases h : body (point i) with
    | ok y =>
      rw [run_callLoop_noted_of_ok h, callLoop_of_ok h, ih, List.append_assoc]
      rfl
    | error e => rw [run_callLoop_noted_of_error h, callLoop_of_error h]

end

/-- What a fold over a range calls its body on, one number after the other. -/
def foldCalls [Arithmetic α] (start stop identity : α) (combine : α → α → α)
    (body : α → Except ε α) : List α :=
  ((foldRange start stop identity combine (noted body)).run.run []).2

/-- **A fold that notes down its calls** comes to the same as one that does not, and the calls are the
numbers of the range up to the first failure. -/
theorem run_foldRange_noted [Arithmetic α] (start stop identity : α) (combine : α → α → α)
    (body : α → Except ε α) :
    (foldRange start stop identity combine (noted body)).run.run [] =
      (foldRange start stop identity combine body, upToFailure body (rangePoints start stop)) := by
  rw [rangePoints, List.range_eq_range']
  exact run_callLoop_noted (rangePoint start) (fun _ => combine) body 0 _ identity []

theorem foldCalls_eq [Arithmetic α] (start stop identity : α) (combine : α → α → α)
    (body : α → Except ε α) :
    foldCalls start stop identity combine body = upToFailure body (rangePoints start stop) := by
  rw [foldCalls, run_foldRange_noted]

/-- The body is called on numbers of the range. -/
theorem exists_of_mem_foldCalls [Arithmetic α] {start stop identity x : α} {combine : α → α → α}
    {body : α → Except ε α} (h : x ∈ foldCalls start stop identity combine body) :
    ∃ k < rangeLength start stop, x = rangePoint start k := by
  rw [foldCalls_eq] at h
  obtain ⟨k, hk, rfl⟩ := List.mem_map.1 ((upToFailure_isPrefix body _).subset h)
  exact ⟨k, List.mem_range.1 hk, rfl⟩

end LatexCalc
