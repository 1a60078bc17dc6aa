import Mathlib.Data.List.Sort

/-!
# Sorting by an order that does not tell all elements apart

A stable sort leaves the elements that the order does not tell apart as they came.  So two lists are
sorted alike if and only if, of every kind of such elements, they have the same ones in the same
order.
-/

namespace StableSort

open List

variable {α : Type*} (r : α → α → Prop) [DecidableRel r]

/-- The elements that are not told apart from one. -/
def kind (a : α) (l : List α) : List α := l.filter fun b => decide (r a b ∧ r b a)

variable {r} {a b : α} {l l' : List α}

theorem mem_kind : b ∈ kind r a l ↔ b ∈ l ∧ r a b ∧ r b a := by
  rw [kind, mem_filter, decide_eq_true_iff]

theorem kind_cons_of (h : r a b ∧ r b a) : kind r a (b :: l) = b :: kind r a l :=
  filter_cons_of_pos (decide_eq_true h)

theorem kind_cons_of_not (h : ¬ (r a b ∧ r b a)) : kind r a (b :: l) = kind r a l :=
  filter_cons_of_neg (by simpa using h)

theorem kind_kind (a : α) (l : List α) : kind r a (kind r a l) = kind r a l := by
  rw [kind, kind, filter_filter]
  simp only [Bool.and_self]

/-- Two lists in order are the same if they have the same elements of each kind. -/
theorem eq_of_kind_eq [Std.Refl r] [IsTrans α r] (h : l.Pairwise r) (h' : l'.Pairwise r)
    (hkind : ∀ a, kind r a l = kind r a l') : l = l' := by
  induction l generalizing l' with
  | nil =>
    cases l' with
    | nil => rfl
    | cons b rest =>
      have hb : b ∈ kind r b (b :: rest) :=
        mem_kind.mpr ⟨mem_cons_self, refl_of r b, refl_of r b⟩
      rw [← hkind b] at hb
      cases hb
  | cons a rest ih =>
    have ha : a ∈ kind r a l' := by
      rw [← hkind a]
      exact mem_kind.mpr ⟨mem_cons_self, refl_of r a, refl_of r a⟩
    cases l' with
    | nil => cases ha
    | cons b rest' =>
      have hb : b ∈ kind r b (a :: rest) := by
        rw [hkind b]
        exact mem_kind.mpr ⟨mem_cons_self, refl_of r b, refl_of r b⟩
      -- the two heads are of one kind, as each comes first in its list
      have hab : r a b ∧ r b a := by
        constructor
        · rcases mem_cons.mp (mem_kind.mp hb).1 with rfl | hmem
          · exact refl_of r b
          · exact rel_of_pairwise_cons h hmem
        · rcases mem_cons.mp (mem_kind.mp ha).1 with rfl | hmem
          · exact refl_of r a
          · exact rel_of_pairwise_cons h' hmem
      have hheads := hkind a
      rw [kind_cons_of ⟨refl_of r a, refl_of r a⟩, kind_cons_of hab] at hheads
      obtain ⟨rfl, -⟩ := List.cons.inj hheads
      refine congrArg (List.cons a) (ih h.of_cons h'.of_cons fun c => ?_)
      have hrest := hkind c
      by_cases hc : r c a ∧ r a c
      · rw [kind_cons_of hc, kind_cons_of hc] at hrest
        exact (List.cons.inj hrest).2
      · rwa [kind_cons_of_not hc, kind_cons_of_not hc] at hrest

section

variable [Std.Total r] [IsTrans α r]

omit [Std.Total r] in
/-- Sorting keeps each kind as it came. -/
theorem kind_insertionSort (a : α) (l : List α) : kind r a (l.insertionSort r) = kind r a l := by
  have hsame : (kind r a l).Pairwise r := by
    refine pairwise_of_forall_mem_list fun b hb c hc => ?_
    exact trans_of r (mem_kind.mp hb).2.2 (mem_kind.mp hc).2.1
  have hsub : (kind r a l).Sublist (kind r a (l.insertionSort r)) := by
    rw [← kind_kind a l]
    exact (sublist_insertionSort hsame filter_sublist).filter _
  exact (hsub.eq_of_length ((perm_insertionSort r l).filter _).length_eq.symm).symm

/-- Two lists are sorted alike just if they have the same elements of each kind in the same order. -/
theorem insertionSort_eq_iff :
    l.insertionSort r = l'.insertionSort r ↔ ∀ a, kind r a l = kind r a l' := by
  constructor
  · intro h a
    rw [← kind_insertionSort a l, h, kind_insertionSort]
  · intro h
    have : Std.Refl r := ⟨fun a => (Std.Total.total a a).elim id id⟩
    refine eq_of_kind_eq (pairwise_insertionSort r l) (pairwise_insertionSort r l') ?_
    intro a
    rw [kind_insertionSort, kind_insertionSort, h]

end

end StableSort
