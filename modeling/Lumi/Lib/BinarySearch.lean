import Mathlib.Data.List.Basic
import Mathlib.Data.List.Pairwise

/-!
# Binary search with a test

The list is searched with a test that says of each element whether it lies before,
at or after the place looked for.  What is found was tested equal, whatever the list;
that nothing equal is missed needs the test to be monotone along the list (`Ascends`),
which it is where the list is sorted by the order the test compares with.
-/

namespace BinarySearch

variable {α : Type*} {test : α → Ordering} {xs : List α}

/-- The loop over the window from `low` up to, but not including, `high`. -/
def loop (test : α → Ordering) (xs : List α) : ℕ → ℕ → ℕ → Option α
  | 0, _, _ => none
  | fuel + 1, low, high =>
    if low < high then
      let mid := (low + (high - 1)) / 2
      match xs[mid]? with
      | none => none
      | some x =>
        match test x with
        | .eq => some x
        | .lt => loop test xs fuel (mid + 1) high
        | .gt => loop test xs fuel low mid
    else none

def search (test : α → Ordering) (xs : List α) : Option α := loop test xs xs.length 0 xs.length

/-- Along the list the test answers "before", then "at", then "after". -/
def Ascends (test : α → Ordering) (xs : List α) : Prop :=
  xs.Pairwise fun x y => (test y = .lt → test x = .lt) ∧ (test x = .gt → test y = .gt)

theorem loop_sound {fuel low high : ℕ} {x : α} (h : loop test xs fuel low high = some x) :
    x ∈ xs ∧ test x = .eq := by
  induction fuel generalizing low high with
  | zero => cases h
  | succ fuel ih =>
    unfold loop at h
    dsimp only at h
    split_ifs at h
    split at h
    · cases h
    · next y hy =>
      split at h
      · next heq =>
        obtain rfl := Option.some.inj h
        exact ⟨List.mem_of_getElem? hy, heq⟩
      · exact ih h
      · exact ih h

/-- An element in the window that tests equal keeps the loop from coming back empty. -/
theorem loop_complete (hasc : Ascends test xs) {fuel low high i : ℕ} {x : α}
    (hfuel : high - low ≤ fuel) (hhigh : high ≤ xs.length) (hlow : low ≤ i) (hi : i < high)
    (hx : xs[i]? = some x) (heq : test x = .eq) : (loop test xs fuel low high).isSome := by
  induction fuel generalizing low high with
  | zero => omega
  | succ fuel ih =>
    have hlt : low < high := by omega
    have hmid : (low + (high - 1)) / 2 < xs.length := by omega
    have hget : xs[(low + (high - 1)) / 2]? = some xs[(low + (high - 1)) / 2] :=
      List.getElem?_eq_getElem hmid
    obtain ⟨hilt, rfl⟩ := List.getElem?_eq_some_iff.mp hx
    have hmono := List.pairwise_iff_getElem.mp hasc
    unfold loop
    rw [if_pos hlt]
    dsimp only
    rw [hget]
    dsimp only
    split
    · rfl
    · next hbefore =>
      refine ih (by omega) hhigh ?_ hi
      by_contra hle
      -- the element would come before one that tests smaller
      rcases Nat.lt_or_ge i ((low + (high - 1)) / 2) with h | h
      · rw [(hmono i _ hilt hmid h).1 hbefore] at heq
        cases heq
      · rw [show xs[i] = xs[(low + (high - 1)) / 2] by congr 1; omega, hbefore] at heq
        cases heq
    · next hafter =>
      refine ih (by omega) (by omega) hlow ?_
      by_contra hge
      rcases Nat.lt_or_ge ((low + (high - 1)) / 2) i with h | h
      · rw [(hmono _ i hmid hilt h).2 hafter] at heq
        cases heq
      · rw [show xs[i] = xs[(low + (high - 1)) / 2] by congr 1; omega, hafter] at heq
        cases heq

theorem search_sound {x : α} (h : search test xs = some x) : x ∈ xs ∧ test x = .eq := loop_sound h

/-- **Binary search** misses nothing on a list along which the test ascends. -/
theorem search_eq_none_iff (hasc : Ascends test xs) :
    search test xs = none ↔ ∀ x ∈ xs, test x ≠ .eq := by
  constructor
  · intro h x hx heq
    obtain ⟨i, hi, rfl⟩ := List.getElem_of_mem hx
    have hfound : (loop test xs xs.length 0 xs.length).isSome :=
      loop_complete hasc (Nat.sub_le _ _) (Nat.le_refl _) (Nat.zero_le i) hi
        (List.getElem?_eq_getElem hi) heq
    rw [search] at h
    rw [h] at hfound
    cases hfound
  · intro h
    cases hsearch : search test xs with
    | none => rfl
    | some x =>
      obtain ⟨hx, heq⟩ := search_sound hsearch
      exact absurd heq (h x hx)

end BinarySearch
