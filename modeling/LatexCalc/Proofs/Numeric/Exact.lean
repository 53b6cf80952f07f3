import Mathlib.Algebra.Order.Floor.Semiring
import Mathlib.Data.Rat.Floor
import LatexCalc.Proofs.Numeric.Fold

/-!
# Exact arithmetic

The rational numbers have an arithmetic without rounding, in which the numeric methods can be compared with
what they approximate. In it the length of a range is the number of its terms (`lt_rangeLength_iff`), and a
range may be folded in two parts (`foldRange_split`). So a range is enumerated exactly
(`foldRange_enumerates`).
-/

namespace LatexCalc

open Arithmetic

/-- The arithmetic of rational numbers: nothing is rounded, and every number is finite. -/
scoped instance Exact.arithmetic : Arithmetic ℚ where
  lt x y := x < y
  le x y := x ≤ y
  abs x := |x|
  isFinite _ := true
  ofCount n := n
  toCount x := min ⌊x⌋₊ maxCount

open Exact

/-! ## Terms of a range -/

/-- A range of rational numbers has the terms that do not exceed its end, up to the greatest count. -/
theorem lt_rangeLength_iff {start stop : ℚ} {k : ℕ} :
    k < rangeLength start stop ↔ k < maxCount ∧ start + k ≤ stop := by
  have hlength : rangeLength start stop =
      if stop < start then 0 else min (min ⌊stop - start⌋₊ maxCount + 1) maxCount := by
    simp only [rangeLength, Arithmetic.lt, decide_eq_true_iff]
    rfl
  rw [hlength, ← le_sub_iff_add_le']
  split
  · next h =>
    have hk : (0 : ℚ) ≤ k := k.cast_nonneg
    refine iff_of_false (Nat.not_lt_zero k) fun hle => ?_
    linarith [hle.2]
  · next h =>
    rw [← Nat.le_floor_iff (sub_nonneg.2 (not_lt.1 h))]
    omega

theorem rangePoints_eq (start stop : ℚ) :
    rangePoints start stop = (List.range (rangeLength start stop)).map fun k : ℕ => start + k :=
  rfl

theorem rangeLength_eq_of_forall {start stop : ℚ} {n : ℕ}
    (h : ∀ k : ℕ, k < n ↔ k < maxCount ∧ start + k ≤ stop) : rangeLength start stop = n :=
  eq_of_forall_lt_iff fun k => lt_rangeLength_iff.trans (h k).symm

variable {m : Type → Type} [Monad m] [LawfulMonad m]

theorem rangePoints_split {start stop : ℚ} {j : ℕ} (hj : start + j ≤ stop)
    (hstop : stop < start + maxCount) :
    rangePoints start stop = rangePoints start (start + j) ++ rangePoints (start + j + 1) stop := by
  have hcount (k : ℕ) (hk : start + k ≤ stop) : k < maxCount := by
    have hk' : (k : ℚ) < maxCount := by linarith
    exact_mod_cast hk'
  have hfirst : rangeLength start (start + j) = j + 1 := by
    refine rangeLength_eq_of_forall fun k => ?_
    have hj' := hcount j hj
    rw [add_le_add_iff_left, Nat.cast_le]
    omega
  obtain ⟨n, hn⟩ : ∃ n, rangeLength start stop = j + 1 + n :=
    Nat.exists_eq_add_of_le (lt_rangeLength_iff.2 ⟨hcount j hj, hj⟩)
  have hlast : rangeLength (start + j + 1) stop = n := by
    refine rangeLength_eq_of_forall fun k => ?_
    have hshift : start + j + 1 + k = start + (j + 1 + k : ℕ) := by
      push_cast
      ring
    have hterm : j + 1 + k < rangeLength start stop ↔ _ := lt_rangeLength_iff
    rw [hn] at hterm
    rw [hshift]
    refine ⟨fun hk => ?_, fun ⟨_, hle⟩ => ?_⟩
    · obtain ⟨hlt, hle⟩ := hterm.1 (by omega)
      exact ⟨by omega, hle⟩
    · have hlt := hterm.2 ⟨hcount _ hle, hle⟩
      omega
  rw [rangePoints_eq, rangePoints_eq, rangePoints_eq, hfirst, hlast, hn, List.range_add, List.map_append,
    List.map_map]
  congr 1
  refine List.map_congr_left fun k _ => ?_
  simp only [Function.comp_apply]
  push_cast
  ring

/-- **A range may be folded in two parts**, the second of which goes on from what the first one comes to. -/
theorem foldRange_split {start stop : ℚ} {j : ℕ} (hj : start + j ≤ stop)
    (hstop : stop < start + maxCount) (identity : ℚ) (combine : ℚ → ℚ → ℚ) (body : ℚ → m ℚ) :
    foldRange start stop identity combine body =
      foldRange start (start + j) identity combine body >>= fun acc =>
        foldRange (start + j + 1) stop acc combine body := by
  simp only [foldRange_eq_foldList, foldList]
  rw [rangePoints_split hj hstop, List.foldlM_append]

/-- **A range of rational numbers is enumerated exactly.** Its terms are the numbers `start + k` up to `stop`,
one for each natural number `k` below the greatest count. The body is called on them one after the other.
If it does not fail, its results are combined from the left, beginning with `identity`; otherwise its first
failure is that of the fold, and no further term is visited. A range with no more terms than the greatest
count may be cut after any of them: what the first part comes to is the identity of the second one. -/
theorem foldRange_enumerates {ε : Type} (start stop identity : ℚ) (combine : ℚ → ℚ → ℚ)
    (body : ℚ → Except ε ℚ) :
    let fold (start stop identity : ℚ) := foldRange start stop identity combine body
    let calls := foldCalls start stop identity combine body
    let succeeds (xs ys : List ℚ) := List.Forall₂ (fun x y => body x = .ok y) xs ys
    (∃ n : ℕ, (∀ k : ℕ, k < n ↔ k < maxCount ∧ start + k ≤ stop) ∧
      let terms := (List.range n).map fun k : ℕ => start + k
      (∀ ys, succeeds terms ys →
        fold start stop identity = .ok (ys.foldl combine identity) ∧ calls = terms) ∧
      ∀ xs x rest ys e, terms = xs ++ x :: rest → succeeds xs ys → body x = .error e →
        fold start stop identity = .error e ∧ calls = xs ++ [x]) ∧
    ∀ j : ℕ, start + j ≤ stop → stop < start + maxCount →
      fold start stop identity = fold start (start + j) identity >>= fold (start + j + 1) stop := by
  intro fold calls succeeds
  have hfold : fold start stop identity = foldList combine body identity (rangePoints start stop) :=
    foldRange_eq_foldList start stop identity combine body
  have hcalls : calls = upToFailure body (rangePoints start stop) :=
    foldCalls_eq start stop identity combine body
  refine ⟨⟨rangeLength start stop, fun k => lt_rangeLength_iff, fun ys h => ?_,
    fun xs x rest ys e hterms h he => ?_⟩, fun j hj hstop => foldRange_split hj hstop identity combine body⟩
  · rw [← rangePoints_eq] at h ⊢
    rw [hfold, hcalls, ← List.append_nil (rangePoints start stop), foldList_append h, upToFailure_append h]
    exact ⟨rfl, rfl⟩
  · rw [← rangePoints_eq] at hterms
    rw [hfold, hcalls, hterms, foldList_append h, upToFailure_append h, foldList_of_error he, upToFailure, he]
    exact ⟨rfl, rfl⟩

/-- Squares from minus one half on, of numbers less than one. -/
theorem foldRange_enumerates_squares :
    let body (x : ℚ) : Except String ℚ := if x < 1 then .ok (x * x) else .error "large"
    let fold (start stop identity : ℚ) := foldRange start stop identity (· + ·) body
    let calls (stop : ℚ) := foldCalls (-1 / 2) stop 0 (· + ·) body
    (fold (-1 / 2) (1 / 2) 0 = .ok (1 / 2) ∧ calls (1 / 2) = [-1 / 2, 1 / 2]) ∧
    (fold (-1 / 2) (5 / 2) 0 = .error "large" ∧ calls (5 / 2) = [-1 / 2, 1 / 2, 3 / 2]) ∧
    ((-1 / 2 : ℚ) + (0 : ℕ) ≤ 5 / 2 ∧ (5 / 2 : ℚ) < -1 / 2 + maxCount ∧
      fold (-1 / 2) (5 / 2) 0 =
        fold (-1 / 2) (-1 / 2 + (0 : ℕ)) 0 >>= fold (-1 / 2 + (0 : ℕ) + 1) (5 / 2)) := by
  intro body fold calls
  have hlow : List.Forall₂ (fun x y => body x = .ok y) [-1 / 2, 1 / 2] [1 / 4, 1 / 4] := by
    refine .cons ?_ (.cons ?_ .nil) <;> norm_num [body]
  have hhigh : body (3 / 2) = .error "large" := by norm_num [body]
  have hmax : (5 / 2 : ℚ) < -1 / 2 + maxCount := by norm_num [maxCount, UInt64.size]
  refine ⟨?_, ?_, by norm_num, hmax,
    (foldRange_enumerates (-1 / 2) (5 / 2) 0 (· + ·) body).2 0 (by norm_num) hmax⟩
  · obtain ⟨⟨n, hn, hok, -⟩, -⟩ := foldRange_enumerates (-1 / 2) (1 / 2) 0 (· + ·) body
    have hone : 1 < n := (hn 1).2 ⟨by decide, by norm_num⟩
    have htwo : ¬ 2 < n := fun h => absurd ((hn 2).1 h).2 (by norm_num)
    obtain rfl : n = 2 := by omega
    have hterms : (List.range 2).map (fun k : ℕ => (-1 / 2 : ℚ) + k) = [-1 / 2, 1 / 2] := by
      norm_num [List.range_succ]
    rw [hterms] at hok
    obtain ⟨hvalue, hcalls⟩ := hok _ hlow
    have hsum : [1 / 4, 1 / 4].foldl (· + ·) (0 : ℚ) = 1 / 2 := by norm_num
    exact ⟨hvalue.trans (congrArg _ hsum), hcalls⟩
  · obtain ⟨⟨n, hn, -, herror⟩, -⟩ := foldRange_enumerates (-1 / 2) (5 / 2) 0 (· + ·) body
    have hthree : 3 < n := (hn 3).2 ⟨by decide, by norm_num⟩
    have hfour : ¬ 4 < n := fun h => absurd ((hn 4).1 h).2 (by norm_num)
    obtain rfl : n = 4 := by omega
    have hterms : (List.range 4).map (fun k : ℕ => (-1 / 2 : ℚ) + k) =
        [-1 / 2, 1 / 2] ++ 3 / 2 :: [5 / 2] := by
      norm_num [List.range_succ]
    exact herror _ _ _ _ _ hterms hlow hhigh

end LatexCalc
