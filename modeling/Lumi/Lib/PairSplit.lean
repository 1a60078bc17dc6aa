import Mathlib.Data.List.Basic
import Mathlib.Order.Basic

/-!
# Splitting a list at a pair

`parts a b` cuts a list at every place where `a` is followed by `b`, as `split` does with a
separator of two different characters.  The parts of a list that is put together around such a
place are those of its two sides, so a part has no such place in it, and elements that are
neither `a` nor `b` can be added at the ends without a new part.
-/

namespace PairSplit

open List

variable {α : Type*} [DecidableEq α] {a b : α}

variable (a b) in
/-- The parts of a list between the places where `a` is followed by `b`. -/
def parts : List α → List (List α)
  | [] => [[]]
  | [c] => [[c]]
  | c :: d :: rest =>
    if c = a ∧ d = b then [] :: parts rest else (parts (d :: rest)).modifyHead (c :: ·)

theorem parts_pair (rest : List α) : parts a b (a :: b :: rest) = [] :: parts a b rest := by
  rw [parts, if_pos ⟨rfl, rfl⟩]

theorem parts_cons {c : α} {xs : List α} (h : ¬ (c = a ∧ xs.head? = some b)) :
    parts a b (c :: xs) = (parts a b xs).modifyHead (c :: ·) := by
  cases xs with
  | nil => rfl
  | cons d rest =>
    rw [parts, if_neg fun hpair => h ⟨hpair.1, congrArg some hpair.2⟩]

theorem parts_ne_nil (xs : List α) : parts a b xs ≠ [] := by
  induction xs using parts.induct a b with
  | case1 => exact cons_ne_nil _ _
  | case2 c => exact cons_ne_nil _ _
  | case3 c d rest hpair ih =>
    rw [parts, if_pos hpair]
    exact cons_ne_nil _ _
  | case4 c d rest hpair ih =>
    rw [parts, if_neg hpair]
    exact fun h => ih (modifyHead_eq_nil_iff.mp h)

theorem length_parts_pos (xs : List α) : 0 < (parts a b xs).length :=
  length_pos_of_ne_nil (parts_ne_nil xs)

/-- A place where `a` is followed by `b` parts the two sides. -/
theorem parts_append (hne : a ≠ b) (xs ys : List α) :
    parts a b (xs ++ a :: b :: ys) = parts a b xs ++ parts a b ys := by
  induction xs using parts.induct a b with
  | case1 => exact parts_pair ys
  | case2 c =>
    have hfree : ¬ (c = a ∧ (a :: b :: ys).head? = some b) := fun h =>
      hne (Option.some.inj h.2)
    calc parts a b (c :: a :: b :: ys)
        = (parts a b (a :: b :: ys)).modifyHead (c :: ·) := parts_cons hfree
      _ = [c] :: parts a b ys := by rw [parts_pair]; rfl
  | case3 c d rest hpair ih =>
    rw [cons_append, cons_append, parts, if_pos hpair, parts, if_pos hpair, ih]
    rfl
  | case4 c d rest hpair ih =>
    obtain ⟨first, others, hparts⟩ := exists_cons_of_ne_nil (parts_ne_nil (a := a) (b := b)
      (d :: rest))
    rw [cons_append] at ih
    rw [cons_append, cons_append, parts, if_neg hpair, parts, if_neg hpair, ih, hparts]
    rfl

/-- A list in one part is that part. -/
theorem eq_of_parts_singleton {xs first : List α} (h : parts a b xs = [first]) : first = xs := by
  induction xs using parts.induct a b generalizing first with
  | case1 => exact (List.cons.inj h).1.symm
  | case2 c => exact (List.cons.inj h).1.symm
  | case3 c d rest hpair ih =>
    rw [parts, if_pos hpair] at h
    exact absurd (List.cons.inj h).2 (parts_ne_nil rest)
  | case4 c d rest hpair ih =>
    rw [parts, if_neg hpair] at h
    obtain ⟨head, others, hparts⟩ := exists_cons_of_ne_nil (parts_ne_nil (a := a) (b := b)
      (d :: rest))
    rw [hparts, modifyHead_cons] at h
    obtain ⟨rfl, rfl⟩ := List.cons.inj h
    rw [ih hparts]

/-- The first part ends where `a` is followed by `b` for the first time. -/
theorem exists_of_parts_cons {xs first second : List α} {others : List (List α)}
    (h : parts a b xs = first :: second :: others) :
    ∃ ys, xs = first ++ a :: b :: ys ∧ parts a b ys = second :: others := by
  induction xs using parts.induct a b generalizing first with
  | case1 => cases h
  | case2 c => cases h
  | case3 c d rest hpair ih =>
    rw [parts, if_pos hpair] at h
    obtain ⟨rfl, hrest⟩ := List.cons.inj h
    obtain ⟨rfl, rfl⟩ := hpair
    exact ⟨rest, rfl, hrest⟩
  | case4 c d rest hpair ih =>
    rw [parts, if_neg hpair] at h
    obtain ⟨head, tail, hparts⟩ := exists_cons_of_ne_nil (parts_ne_nil (a := a) (b := b)
      (d :: rest))
    rw [hparts, modifyHead_cons] at h
    obtain ⟨rfl, rfl⟩ := List.cons.inj h
    obtain ⟨ys, hys, hrest⟩ := ih hparts
    exact ⟨ys, by rw [hys]; rfl, hrest⟩

/-- The first part is in one part. -/
theorem length_parts_first (hne : a ≠ b) {xs first : List α} {others : List (List α)}
    (h : parts a b xs = first :: others) : (parts a b first).length = 1 := by
  cases others with
  | nil => rw [eq_of_parts_singleton h, h]; rfl
  | cons second others =>
    obtain ⟨ys, rfl, hys⟩ := exists_of_parts_cons h
    have hlength := congrArg List.length (parts_append hne first ys)
    rw [h, hys, length_append, length_cons, length_cons] at hlength
    omega

/-! ## Elements that are not of the pair -/

theorem length_parts_cons {c : α} (hc : c ≠ a) (xs : List α) :
    (parts a b (c :: xs)).length = (parts a b xs).length := by
  rw [parts_cons fun h => hc h.1, length_modifyHead]

theorem length_parts_concat {c : α} (hc : c ≠ b) (xs : List α) :
    (parts a b (xs ++ [c])).length = (parts a b xs).length := by
  induction xs using parts.induct a b with
  | case1 => rfl
  | case2 d =>
    have hfree : ¬ (d = a ∧ [c].head? = some b) := fun h => hc (Option.some.inj h.2)
    rw [singleton_append, parts_cons hfree]
    rfl
  | case3 d e rest hpair ih =>
    rw [cons_append, cons_append, parts, if_pos hpair, parts, if_pos hpair,
      length_cons, ih, length_cons]
  | case4 d e rest hpair ih =>
    rw [cons_append] at ih
    rw [cons_append, cons_append, parts, if_neg hpair, parts, if_neg hpair,
      length_modifyHead, ih, length_modifyHead]

/-- Elements that are neither `a` nor `b` make no new part at the ends. -/
theorem length_parts_between {us vs : List α} (hus : ∀ c ∈ us, c ≠ a) (hvs : ∀ c ∈ vs, c ≠ b)
    (xs : List α) : (parts a b (us ++ xs ++ vs)).length = (parts a b xs).length := by
  have hback : ∀ vs : List α, (∀ c ∈ vs, c ≠ b) → ∀ xs : List α,
      (parts a b (xs ++ vs)).length = (parts a b xs).length := by
    intro vs
    induction vs with
    | nil => intro _ xs; rw [append_nil]
    | cons c vs ih =>
      intro hvs xs
      rw [append_cons, ih fun d hd => hvs d (mem_cons_of_mem _ hd),
        length_parts_concat (hvs c mem_cons_self)]
  rw [hback vs hvs]
  induction us with
  | nil => rfl
  | cons c us ih =>
    rw [cons_append, length_parts_cons (hus c mem_cons_self)]
    exact ih fun d hd => hus d (mem_cons_of_mem _ hd)

end PairSplit
