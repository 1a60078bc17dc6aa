import Mathlib.Data.List.Nodup

/-!
# The first elements under their keys

A list is gone through, and of the elements with one key only the first is taken; perhaps no more
than so many.  With a limit, a first part of what is taken without one is taken.
-/

namespace Distinct

open List

variable {α κ : Type*} [DecidableEq κ] (key : α → κ)

/-- What is taken of the list, after what was taken before. -/
def distinct (taken : List α) (l : List α) : List α :=
  l.foldl (fun taken x => if key x ∈ taken.map key then taken else taken ++ [x]) taken

/-- The same, until the limit is reached. -/
def collect (limit : ℕ) : List α → List α → List α
  | taken, [] => taken
  | taken, x :: rest =>
    if key x ∈ taken.map key then collect limit taken rest
    else if limit ≤ (taken ++ [x]).length then taken ++ [x]
    else collect limit (taken ++ [x]) rest

variable {key}

theorem distinct_cons (taken : List α) (x : α) (rest : List α) :
    distinct key taken (x :: rest) =
      distinct key (if key x ∈ taken.map key then taken else taken ++ [x]) rest := rfl

theorem prefix_distinct (taken l : List α) : taken <+: distinct key taken l := by
  induction l generalizing taken with
  | nil => exact prefix_refl taken
  | cons x rest ih =>
    rw [distinct_cons]
    split
    · exact ih taken
    · exact (prefix_append taken [x]).trans (ih (taken ++ [x]))

theorem collect_eq_take {limit : ℕ} {taken : List α} (hlimit : taken.length < limit) (l : List α) :
    collect key limit taken l = (distinct key taken l).take limit := by
  induction l generalizing taken with
  | nil => exact (take_of_length_le (Nat.le_of_lt hlimit)).symm
  | cons x rest ih =>
    rw [collect, distinct_cons]
    split
    · exact ih hlimit
    · split
      · next hreached =>
        have hlength : (taken ++ [x]).length = limit := by
          rw [length_append, length_singleton] at hreached ⊢
          omega
        rw [← hlength]
        exact prefix_iff_eq_take.mp (prefix_distinct (taken ++ [x]) rest)
      · next hopen => exact ih (Nat.lt_of_not_le hopen)

theorem nodup_distinct {taken : List α} (h : (taken.map key).Nodup) (l : List α) :
    ((distinct key taken l).map key).Nodup := by
  induction l generalizing taken with
  | nil => exact h
  | cons x rest ih =>
    rw [distinct_cons]
    split
    · exact ih h
    · next hnew =>
      refine ih ?_
      rw [map_append, nodup_append]
      refine ⟨h, nodup_singleton _, fun k hk k' hk' => ?_⟩
      rw [mem_singleton.mp hk']
      exact fun heq => hnew (heq ▸ hk)

theorem mem_keys_distinct {taken l : List α} {k : κ} :
    k ∈ (distinct key taken l).map key ↔ k ∈ taken.map key ∨ k ∈ l.map key := by
  induction l generalizing taken with
  | nil => simp [distinct]
  | cons x rest ih =>
    rw [distinct_cons, ih, map_cons, mem_cons]
    split
    · next hseen =>
      constructor
      · exact Or.imp_right Or.inr
      · rintro (hk | rfl | hk)
        · exact .inl hk
        · exact .inl hseen
        · exact .inr hk
    · rw [map_append, mem_append, map_singleton, mem_singleton, or_assoc]

/-- The first element is always taken. -/
theorem head?_distinct (l : List α) : (distinct key [] l).head? = l.head? := by
  cases l with
  | nil => rfl
  | cons x rest =>
    obtain ⟨later, hlater⟩ := @prefix_distinct _ _ _ key [x] rest
    rw [distinct_cons, if_neg (by simp), nil_append, ← hlater]
    rfl

end Distinct
