import Mathlib.Algebra.Order.BigOperators.Group.Finset
import Mathlib.Algebra.BigOperators.Ring.Finset
import Mathlib.Dynamics.FixedPoints.Basic
import Mathlib.Tactic.Linarith
import Mathlib.Tactic.Ring

/-!
# Smooth weighted round robin

Every candidate has a weight and a credit.  In a step all credits grow by the weights, a candidate of
greatest credit is picked, and pays the sum of the weights.

The credits always sum to 0, and none falls as far as the sum `total` of the weights below 0: the
greatest credit is positive when it pays.  After `total` steps every credit is a multiple of
`total`, so none is negative, and all are 0 again (`iterate_total`).  From there the picks repeat,
so that in any `total` picks in a row each candidate has as many as its weight (`count_window`).
-/

namespace SmoothRoundRobin

open Finset Function

variable {ι : Type*} [DecidableEq ι] (s : Finset ι) (w : ι → ℤ) (pick : (ι → ℤ) → ι)

def total : ℤ := ∑ j ∈ s, w j

/-- All gain their weight, and the one that is picked pays for it. -/
def step (credit : ι → ℤ) : ι → ℤ := fun j =>
  credit j + w j - if j = pick credit then total s w else 0

/-- The first `n` picks. -/
def picks : ℕ → (ι → ℤ) → List ι
  | 0, _ => []
  | n + 1, credit => pick credit :: picks n (step s w pick credit)

/-- A candidate of greatest credit is picked. -/
def Greedy : Prop :=
  ∀ credit, pick credit ∈ s ∧ ∀ j ∈ s, credit j + w j ≤ credit (pick credit) + w (pick credit)

/-- The credits sum to 0, and none is too low. -/
structure Balanced (credit : ι → ℤ) : Prop where
  sum_eq_zero : ∑ j ∈ s, credit j = 0
  gt : ∀ j ∈ s, -total s w < credit j

variable {s w pick}

omit [DecidableEq ι] in
theorem balanced_zero (htotal : 0 < total s w) : Balanced s w 0 where
  sum_eq_zero := sum_const_zero
  gt := fun j _ => by simpa using htotal

theorem sum_step (hpick : Greedy s w pick) (credit : ι → ℤ) :
    ∑ j ∈ s, step s w pick credit j = ∑ j ∈ s, credit j := by
  have hpaid : (∑ j ∈ s, if j = pick credit then total s w else 0) = total s w := by
    rw [sum_ite_eq' s (pick credit), if_pos (hpick credit).1]
  calc ∑ j ∈ s, step s w pick credit j
      = ∑ j ∈ s, credit j + ∑ j ∈ s, w j
          - ∑ j ∈ s, (if j = pick credit then total s w else 0) := by
        rw [← sum_add_distrib, ← sum_sub_distrib]
        rfl
    _ = ∑ j ∈ s, credit j + total s w - total s w := by rw [hpaid]; rfl
    _ = ∑ j ∈ s, credit j := by omega

variable {credit : ι → ℤ}

omit [DecidableEq ι] in
/-- The greatest credit is positive when all have gained. -/
theorem pick_pos (htotal : 0 < total s w) (hpick : Greedy s w pick) (h : Balanced s w credit) :
    0 < credit (pick credit) + w (pick credit) := by
  by_contra hle
  have hsum : ∑ j ∈ s, (credit j + w j) ≤ 0 :=
    sum_nonpos fun j hj => ((hpick credit).2 j hj).trans (not_lt.mp hle)
  rw [sum_add_distrib, h.sum_eq_zero] at hsum
  have : ∑ j ∈ s, w j = total s w := rfl
  omega

theorem balanced_step (hw : ∀ j ∈ s, 0 ≤ w j) (htotal : 0 < total s w) (hpick : Greedy s w pick)
    (h : Balanced s w credit) :
    Balanced s w (step s w pick credit) where
  sum_eq_zero := (sum_step hpick credit).trans h.sum_eq_zero
  gt := by
    intro j hj
    rw [step]
    split
    next heq =>
      have := pick_pos htotal hpick h
      rw [heq]
      omega
    next =>
      have := h.gt j hj
      have := hw j hj
      omega

theorem balanced_iterate (hw : ∀ j ∈ s, 0 ≤ w j) (htotal : 0 < total s w) (hpick : Greedy s w pick)
    (n : ℕ) (h : Balanced s w credit) : Balanced s w ((step s w pick)^[n] credit) := by
  induction n generalizing credit with
  | zero => exact h
  | succ n ih => exact ih (balanced_step hw htotal hpick h)

theorem mem_of_mem_picks (hpick : Greedy s w pick) {n : ℕ} {j : ι} (h : j ∈ picks s w pick n credit) :
    j ∈ s := by
  induction n generalizing credit with
  | zero => cases h
  | succ n ih =>
    obtain rfl | h := List.mem_cons.mp h
    · exact (hpick credit).1
    · exact ih h

/-- A window of the picks starts where the steps before it lead. -/
theorem take_drop_picks (i m n : ℕ) (credit : ι → ℤ) (h : i + m ≤ n) :
    ((picks s w pick n credit).drop i).take m
      = picks s w pick m ((step s w pick)^[i] credit) := by
  induction i generalizing n credit with
  | zero =>
    rw [List.drop_zero]
    induction m generalizing n credit with
    | zero => rfl
    | succ m ih =>
      obtain ⟨n, rfl⟩ : ∃ k, n = k + 1 := ⟨n - 1, by omega⟩
      exact congrArg (pick credit :: ·) (ih n (step s w pick credit) (by omega))
  | succ i ih =>
    obtain ⟨n, rfl⟩ : ∃ k, n = k + 1 := ⟨n - 1, by omega⟩
    exact ih n (step s w pick credit) (by omega)

variable [BEq ι] [LawfulBEq ι]

/-- What a candidate has after `n` steps: what it gained, less what it paid. -/
theorem iterate_apply (n : ℕ) (credit : ι → ℤ) (j : ι) :
    (step s w pick)^[n] credit j
      = credit j + n * w j - total s w * ((picks s w pick n credit).count j : ℤ) := by
  induction n generalizing credit with
  | zero => simp [picks]
  | succ n ih =>
    rw [iterate_succ_apply, ih, picks, List.count_cons, step]
    by_cases hj : pick credit = j
    · rw [if_pos hj.symm, if_pos (by simp [hj])]
      push_cast
      ring
    · rw [if_neg (fun heq => hj heq.symm), if_neg (by simp [hj])]
      push_cast
      ring

/-- After `total` steps all credits are 0 again. -/
theorem iterate_total (hw : ∀ j ∈ s, 0 ≤ w j) (hnot : ∀ j ∉ s, w j = 0) (htotal : 0 < total s w)
    (hpick : Greedy s w pick) {W : ℕ} (hW : (W : ℤ) = total s w) : (step s w pick)^[W] 0 = 0 := by
  have hbalanced := balanced_iterate hw htotal hpick W (balanced_zero htotal)
  have hmultiple : ∀ j, (step s w pick)^[W] 0 j
      = total s w * (w j - ((picks s w pick W 0).count j : ℤ)) := by
    intro j
    rw [iterate_apply, hW, Pi.zero_apply]
    ring
  have hnonneg : ∀ j ∈ s, 0 ≤ (step s w pick)^[W] 0 j := by
    intro j hj
    have hgt := hbalanced.gt j hj
    rw [hmultiple] at hgt ⊢
    -- a multiple of the total above `-total` is not negative
    have hfactor : -1 < w j - ((picks s w pick W 0).count j : ℤ) := by
      by_contra hle
      have := mul_le_mul_of_nonneg_left (not_lt.mp hle) htotal.le
      linarith
    exact mul_nonneg htotal.le (by omega)
  funext j
  by_cases hj : j ∈ s
  · exact (sum_eq_zero_iff_of_nonneg hnonneg).mp hbalanced.sum_eq_zero j hj
  · have hcount : (picks s w pick W 0).count j = 0 :=
      List.count_eq_zero.mpr fun hmem => hj (mem_of_mem_picks hpick hmem)
    rw [hmultiple, hnot j hj, hcount]
    simp

theorem iterate_mul_total (hw : ∀ j ∈ s, 0 ≤ w j) (hnot : ∀ j ∉ s, w j = 0)
    (htotal : 0 < total s w) (hpick : Greedy s w pick) {W : ℕ} (hW : (W : ℤ) = total s w)
    (k : ℕ) : (step s w pick)^[W * k] 0 = 0 := by
  rw [iterate_mul]
  exact iterate_fixed (iterate_total hw hnot htotal hpick hW) k

/-- In any `total` picks in a row each candidate has as many as its weight. -/
theorem count_window (hw : ∀ j ∈ s, 0 ≤ w j) (hnot : ∀ j ∉ s, w j = 0) (htotal : 0 < total s w)
    (hpick : Greedy s w pick) {W : ℕ} (hW : (W : ℤ) = total s w) (i : ℕ) (j : ι) :
    ((picks s w pick W ((step s w pick)^[i] 0)).count j : ℤ) = w j := by
  have hperiod : (step s w pick)^[W] ((step s w pick)^[i] 0) = (step s w pick)^[i] 0 := by
    rw [← iterate_add_apply, Nat.add_comm, iterate_add_apply,
      iterate_total hw hnot htotal hpick hW]
  have happly := @iterate_apply ι _ s w pick _ _ W ((step s w pick)^[i] 0) j
  rw [hperiod, hW] at happly
  have hcancel : total s w * ((picks s w pick W ((step s w pick)^[i] 0)).count j : ℤ)
      = total s w * w j := by linarith
  exact mul_left_cancel₀ htotal.ne' hcancel

end SmoothRoundRobin
