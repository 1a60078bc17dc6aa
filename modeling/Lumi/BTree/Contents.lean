import Mathlib.Data.List.TakeWhile
import Lumi.BTree.Engine

/-!
# What a tree contains

The contents of a node are its entries with the contents of its children between them
(`contents`).  In a well-formed node there is a child for each of the positions between
the entries (`WellFormed`), and where the contents are sorted, a key that does not stand
at the position the loops arrive at belongs to the child of that position: what comes
before it is smaller, what comes after it is larger (`route`).
-/

namespace Lumi.BTree

open Js List

variable {κ υ C : Type*} {order : KeyOrder κ}

/-! ## Entries with children between them -/

section

variable {α : Type*} (f : C → List α)

/-- Children and entries in turn, up to the child after the last entry. -/
def interleave : List α → List C → List α
  | e :: es, c :: cs => f c ++ e :: interleave es cs
  | [], c :: _ => f c
  | _, [] => []

/-- Each entry after its child. -/
def before : List α → List C → List α
  | e :: es, c :: cs => f c ++ e :: before es cs
  | _, _ => []

/-- Each entry before its child. -/
def after : List α → List C → List α
  | e :: es, c :: cs => e :: (f c ++ after es cs)
  | _, _ => []

variable {f}

theorem interleave_eq_after {es : List α} {c : C} {cs : List C} (h : cs.length = es.length) :
    interleave f es (c :: cs) = f c ++ after f es cs := by
  induction es generalizing c cs with
  | nil =>
    rw [length_eq_zero_iff.mp h]
    exact (append_nil _).symm
  | cons e es ih =>
    cases cs with
    | nil => cases h
    | cons d cs => rw [interleave, after, ih (Nat.succ.inj h)]

/-- The contents around the child of a position. -/
theorem interleave_append {es es' : List α} {cs cs' : List C} {c : C} (h : cs.length = es.length)
    (h' : cs'.length = es'.length) :
    interleave f (es ++ es') (cs ++ c :: cs') = before f es cs ++ (f c ++ after f es' cs') := by
  induction es generalizing cs with
  | nil =>
    rw [length_eq_zero_iff.mp h]
    exact interleave_eq_after h'
  | cons e es ih =>
    cases cs with
    | nil => cases h
    | cons d cs =>
      rw [cons_append, cons_append, interleave, ih (Nat.succ.inj h), before,
        append_assoc, cons_append]

end

/-- A leaf. -/
abbrev leafNode (entries : List (κ × υ)) : BTreeNode κ υ 0 := entries

/-- A node above the leaves. -/
abbrev innerNode {n : ℕ} (entries : List (κ × υ)) (children : List (BTreeNode κ υ n)) :
    BTreeNode κ υ (n + 1) := Internal.mk entries children

/-- The entries of a tree in order. -/
def contents : {n : ℕ} → BTreeNode κ υ n → List (κ × υ)
  | 0, entries => entries
  | _ + 1, ⟨entries, children⟩ => interleave contents entries children

/-- A node above the leaves has entries, and one child more. -/
def WellFormed : {n : ℕ} → BTreeNode κ υ n → Prop
  | 0, _ => True
  | _ + 1, ⟨entries, children⟩ =>
    entries ≠ [] ∧ children.length = entries.length + 1 ∧ ∀ child ∈ children, WellFormed child

variable (order) in
/-- Ascending, by keys that are equal to themselves. -/
structure Sorted (l : List (κ × υ)) : Prop where
  ascending : l.Pairwise fun a b => order.Lt a.1 b.1
  self : ∀ e ∈ l, order.Self e.1

namespace Sorted

variable {l l' : List (κ × υ)} {key : κ}

theorem left (h : Sorted order (l ++ l')) : Sorted order l :=
  ⟨(pairwise_append.mp h.ascending).1, fun e he => h.self e (mem_append_left _ he)⟩

theorem right (h : Sorted order (l ++ l')) : Sorted order l' :=
  ⟨(pairwise_append.mp h.ascending).2.1, fun e he => h.self e (mem_append_right _ he)⟩

theorem lt_of_append (h : Sorted order (l ++ l')) {a b : κ × υ} (ha : a ∈ l) (hb : b ∈ l') :
    order.Lt a.1 b.1 :=
  (pairwise_append.mp h.ascending).2.2 a ha b hb

theorem sublist (h : Sorted order l') (hsub : l.Sublist l') : Sorted order l :=
  ⟨h.ascending.sublist hsub, fun e he => h.self e (hsub.subset he)⟩

/-- A key may be put between those below it and those above it. -/
theorem insert (h : Sorted order (l ++ l')) (hself : order.Self key)
    (hbelow : ∀ e ∈ l, order.Lt e.1 key) (habove : ∀ e ∈ l', order.Lt key e.1) (value : υ) :
    Sorted order (l ++ (key, value) :: l') where
  ascending := pairwise_append.mpr ⟨h.left.ascending,
    pairwise_cons.mpr ⟨habove, h.right.ascending⟩, fun a ha b hb => by
      rcases mem_cons.mp hb with rfl | hb
      · exact hbelow a ha
      · exact h.lt_of_append ha hb⟩
  self := by
    intro e he
    rcases mem_append.mp he with he | he
    · exact h.left.self e he
    · rcases mem_cons.mp he with rfl | he
      · exact hself
      · exact h.right.self e he

end Sorted

/-! ## Below and above a position -/

variable {f : C → List (κ × υ)}

variable {es : List (κ × υ)}

/-- What stands before a position is below the key, if the entries there are. -/
theorem before_lt {cs : List C} {key : κ} (h : Sorted order (before f es cs))
    (hes : ∀ e ∈ es, order.Lt e.1 key) : ∀ e ∈ before f es cs, order.Lt e.1 key := by
  induction es generalizing cs with
  | nil => exact fun e he => absurd he not_mem_nil
  | cons e es ih =>
    cases cs with
    | nil => exact fun e he => absurd he not_mem_nil
    | cons c cs =>
      intro x hx
      have hlt := hes e mem_cons_self
      rcases mem_append.mp hx with hx | hx
      · exact (h.lt_of_append hx mem_cons_self).trans hlt
      · rcases mem_cons.mp hx with rfl | hx
        · exact hlt
        · exact ih (h.right.sublist (sublist_cons_self _ _))
            (fun e he => hes e (mem_cons_of_mem _ he)) x hx

theorem after_gt {cs : List C} {key : κ} (h : Sorted order (after f es cs))
    (hes : ∀ e ∈ es, order.Lt key e.1) : ∀ e ∈ after f es cs, order.Lt key e.1 := by
  induction es generalizing cs with
  | nil => exact fun e he => absurd he not_mem_nil
  | cons e es ih =>
    cases cs with
    | nil => exact fun e he => absurd he not_mem_nil
    | cons c cs =>
      intro x hx
      have hlt := hes e mem_cons_self
      rcases mem_cons.mp hx with rfl | hx
      · exact hlt
      · rcases mem_append.mp hx with hc | hx
        · exact hlt.trans ((pairwise_cons.mp h.ascending).1 x hx)
        · exact ih (h.sublist (sublist_cons_self _ _)).right
            (fun e he => hes e (mem_cons_of_mem _ he)) x hx

theorem entries_sublist {cs : List C} (h : cs.length = es.length + 1) :
    es.Sublist (interleave f es cs) := by
  induction es generalizing cs with
  | nil => exact nil_sublist _
  | cons e es ih =>
    cases cs with
    | nil => cases h
    | cons c cs =>
      exact ((ih (Nat.succ.inj h)).cons_cons e).trans (sublist_append_right _ _)

/-! ## Lists spliced at a position -/

section

variable {α : Type*} (xs ys : List α) (x y : α)

theorem getElem?_at : (xs ++ x :: ys)[xs.length]? = some x := by simp

theorem set_at : (xs ++ x :: ys).set xs.length y = xs ++ y :: ys := by simp

theorem modify_at (f : α → α) : (xs ++ x :: ys).modify xs.length f = xs ++ f x :: ys := by
  simp [modify_eq_take_cons_drop]

theorem eraseIdx_at : (xs ++ x :: ys).eraseIdx xs.length = xs ++ ys := by
  simp [eraseIdx_append]

theorem insertIdx_at : (xs ++ ys).insertIdx xs.length x = xs ++ x :: ys := by
  induction xs with
  | nil => rfl
  | cons a xs ih => simpa using ih

end

/-! ## Positions -/

variable (order) in
/-- The key lies between the entries of the two lists. -/
structure Between (key : κ) (l l' : List (κ × υ)) : Prop where
  below : ∀ e ∈ l, order.Lt e.1 key
  above : ∀ e ∈ l', order.Lt key e.1

theorem position_cons (key : κ) (e : κ × υ) (es : List (κ × υ)) :
    position order key (e :: es)
      = if order.compare key e.1 = some .gt then position order key es + 1 else 0 := by
  unfold position
  rw [takeWhile_cons]
  by_cases h : order.compare key e.1 = some .gt
  · rw [if_pos (decide_eq_true h), if_pos h, length_cons]
  · rw [if_neg (by simpa using h), if_neg h, length_nil]

variable (order) in
/-- The loops arrive at the key, or between the keys below it and those above it. -/
theorem position_spec (key : κ) (es : List (κ × υ)) :
    ∃ l l', es = l ++ l' ∧ l.length = position order key es ∧
      ((standsAt order key es (position order key es) = true ∧ ∃ v rest, l' = (key, v) :: rest) ∨
        (standsAt order key es (position order key es) = false ∧
          (Sorted order es → order.Self key → Between order key l l'))) := by
  induction es with
  | nil => exact ⟨[], [], rfl, rfl, .inr ⟨rfl, fun _ _ => ⟨by simp, by simp⟩⟩⟩
  | cons e es ih =>
    rw [position_cons]
    by_cases hgt : order.compare key e.1 = some .gt
    · rw [if_pos hgt]
      obtain ⟨l, l', hes, hlength, hspec⟩ := ih
      refine ⟨e :: l, l', by rw [hes, cons_append], by rw [length_cons, hlength], ?_⟩
      refine hspec.imp id (And.imp_right fun h hsorted hself => ?_)
      obtain ⟨hbelow, habove⟩ := h (hsorted.sublist (sublist_cons_self _ _)) hself
      refine ⟨fun x hx => ?_, habove⟩
      rcases mem_cons.mp hx with rfl | hx
      · exact KeyOrder.compare_gt_iff.mp hgt
      · exact hbelow x hx
    · rw [if_neg hgt]
      refine ⟨[], e :: es, rfl, rfl, ?_⟩
      obtain ⟨k, v⟩ := e
      by_cases heq : order.compare key k = some .eq
      · left
        refine ⟨decide_eq_true heq, v, es, ?_⟩
        rw [order.eq_of_compare heq]
      · right
        refine ⟨decide_eq_false heq, fun hsorted hself => ⟨by simp, fun x hx => ?_⟩⟩
        have hlt : order.Lt key k :=
          KeyOrder.lt_of_not hself (hsorted.self _ mem_cons_self) hgt heq
        rcases mem_cons.mp hx with rfl | hx
        · exact hlt
        · exact hlt.trans ((pairwise_cons.mp hsorted.ascending).1 x hx)

variable {l l' : List (κ × υ)}

/-- The loop from the right arrives at the same position. -/
theorem insertPosition_eq {key : κ} (h : Between order key l l') :
    insertPosition order key (l ++ l') = l.length := by
  have htake : (l ++ l').reverse.takeWhile (fun e => order.compare key e.1 = some .lt)
      = l'.reverse := by
    have habove : ∀ e ∈ l'.reverse, decide (order.compare key e.1 = some .lt) = true :=
      fun e he => decide_eq_true (h.above e (mem_reverse.mp he) : _ = _)
    rw [reverse_append, takeWhile_append_of_pos habove]
    have hnone : l.reverse.takeWhile (fun e => order.compare key e.1 = some .lt) = [] := by
      cases hl : l.reverse with
      | nil => rfl
      | cons e rest =>
        have hlt := h.below e (mem_reverse.mp (hl ▸ mem_cons_self))
        rw [takeWhile_cons, KeyOrder.compare_gt_iff.mpr hlt]
        rfl
    rw [hnone, append_nil]
  rw [insertPosition, htake, length_reverse, length_append, Nat.add_sub_cancel]

theorem exists_child {children : List C} (h : children.length = (l ++ l').length + 1) :
    ∃ cs c cs', children = cs ++ c :: cs' ∧ cs.length = l.length ∧ cs'.length = l'.length := by
  rw [length_append] at h
  have hdrop : (children.drop l.length).length = l'.length + 1 := by
    rw [length_drop]
    omega
  obtain ⟨c, cs', hcs⟩ := exists_cons_of_length_eq_add_one hdrop
  refine ⟨children.take l.length, c, cs', ?_, ?_, ?_⟩
  · rw [← hcs, take_append_drop]
  · rw [length_take]
    omega
  · rw [hcs] at hdrop
    exact Nat.succ.inj hdrop

/-- **Routing.**  A key between the entries of a node is between what stands before the child of
that position and what stands after it. -/
theorem Between.interleave {key : κ} {cs cs' : List C} {c : C} (h : Between order key l l')
    (hsorted : Sorted order (before f l cs ++ (f c ++ after f l' cs'))) :
    Between order key (before f l cs) (after f l' cs') :=
  ⟨before_lt hsorted.left h.below, after_gt hsorted.right.right h.above⟩

end Lumi.BTree
