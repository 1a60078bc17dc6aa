import Mathlib.Data.List.DropRight

/-!
# Trimming a list at both ends

`both p` takes away the elements that satisfy `p` at the two ends of a list, and
`List.rdropWhile p` those at its right end.  What is trimmed stands in the list between two runs
of such elements, and any runs of them can be added there.
-/

namespace Trim

open List

variable {α : Type*} {p : α → Bool}

variable (p) in
def both (xs : List α) : List α := (xs.dropWhile p).rdropWhile p

theorem exists_rdropWhile (xs : List α) :
    ∃ vs : List α, (∀ c ∈ vs, p c = true) ∧ xs = xs.rdropWhile p ++ vs :=
  ⟨xs.rtakeWhile p, fun _ => mem_rtakeWhile_imp,
    (rdropWhile_append_rtakeWhile (p := p) (l := xs)).symm⟩

/-- A list is what is left of it, between two runs of what is taken away. -/
theorem exists_both (xs : List α) :
    ∃ us vs : List α, (∀ c ∈ us, p c = true) ∧ (∀ c ∈ vs, p c = true) ∧
      xs = us ++ both p xs ++ vs := by
  obtain ⟨vs, hvs, hsplit⟩ := exists_rdropWhile (p := p) (xs.dropWhile p)
  refine ⟨xs.takeWhile p, vs, fun c => mem_takeWhile_imp, hvs, ?_⟩
  calc xs = xs.takeWhile p ++ xs.dropWhile p := takeWhile_append_dropWhile.symm
    _ = xs.takeWhile p ++ (both p xs ++ vs) := congrArg _ hsplit
    _ = xs.takeWhile p ++ both p xs ++ vs := (append_assoc _ _ _).symm

theorem rdropWhile_append_of_pos {vs : List α} (hvs : ∀ c ∈ vs, p c = true) (xs : List α) :
    (xs ++ vs).rdropWhile p = xs.rdropWhile p := by
  rw [List.rdropWhile, reverse_append,
    dropWhile_append_of_pos fun c hc => hvs c (mem_reverse.mp hc)]
  rfl

/-- Where something is left on the right, all that stands before it is left too. -/
theorem rdropWhile_append {ys : List α} (h : ys.rdropWhile p ≠ []) (xs : List α) :
    (xs ++ ys).rdropWhile p = xs ++ ys.rdropWhile p := by
  have hreverse : ys.reverse.dropWhile p ≠ [] := fun hnil => h (by rw [List.rdropWhile, hnil]; rfl)
  rw [List.rdropWhile, reverse_append, dropWhile_append, if_neg (by simpa using hreverse),
    reverse_append, reverse_reverse]
  rfl

theorem both_eq_nil_iff {xs : List α} : both p xs = [] ↔ ∀ c ∈ xs, p c = true := by
  rw [both, rdropWhile_eq_nil_iff]
  constructor
  · intro h c hc
    rw [← takeWhile_append_dropWhile (p := p) (l := xs)] at hc
    rcases mem_append.mp hc with hc | hc
    · exact mem_takeWhile_imp hc
    · exact h c hc
  · intro h c hc
    exact h c (dropWhile_subset p hc)

/-- Runs of what is taken away make no difference at the ends. -/
theorem both_between {us vs : List α} (hus : ∀ c ∈ us, p c = true) (hvs : ∀ c ∈ vs, p c = true)
    (xs : List α) : both p (us ++ xs ++ vs) = both p xs := by
  have hleft : both p (xs ++ vs) = both p xs := by
    by_cases hxs : xs.dropWhile p = []
    · have hall := dropWhile_eq_nil_iff.mp hxs
      rw [both_eq_nil_iff.mpr hall, both_eq_nil_iff]
      intro c hc
      exact (mem_append.mp hc).elim (hall c) (hvs c)
    · rw [both, dropWhile_append, if_neg (by simpa using hxs), rdropWhile_append_of_pos hvs]
      rfl
  rw [append_assoc, both, dropWhile_append_of_pos hus]
  exact hleft

theorem both_rdropWhile (xs : List α) : both p (xs.rdropWhile p) = both p xs := by
  obtain ⟨vs, hvs, hsplit⟩ := exists_rdropWhile (p := p) xs
  calc both p (xs.rdropWhile p)
      = both p ([] ++ xs.rdropWhile p ++ vs) := (both_between (by simp) hvs _).symm
    _ = both p xs := by rw [nil_append, ← hsplit]

theorem both_dropWhile (xs : List α) : both p (xs.dropWhile p) = both p xs := by
  rw [both, dropWhile_idempotent]
  rfl

/-- An element that stays keeps what stands after it, up to the right end. -/
theorem both_cons {c : α} (hc : p c = false) (xs : List α) :
    both p (c :: xs) = c :: xs.rdropWhile p := by
  rw [both, dropWhile_cons, hc]
  by_cases hxs : xs.rdropWhile p = []
  · have hall := rdropWhile_eq_nil_iff.mp hxs
    have hone := rdropWhile_append_of_pos hall [c]
    rw [rdropWhile_singleton, hc] at hone
    rw [hxs]
    exact hone
  · exact rdropWhile_append hxs [c]

end Trim
