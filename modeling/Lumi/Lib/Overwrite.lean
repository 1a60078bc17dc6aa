import Mathlib.Data.List.Induction

/-!
# Overwriting

A log of writes, each a key and a value, is applied to a function one write after the
other.  For every key only the last write of it counts (`overwrite_apply`), so a log
may be applied again, in whole or from any point on, to what it has made
(`overwrite_drop_overwrite`), and two logs of the same keys make the same function
exactly if their last writes agree.
-/

namespace Overwrite

open List Function

variable {κ β : Type*} [DecidableEq κ]

/-- A function after a list of writes. -/
def overwrite (m : κ → β) (writes : List (κ × β)) : κ → β :=
  writes.foldl (fun m w => Function.update m w.1 w.2) m

/-- The last element of a list with a given key. -/
def lastOf? {α : Type*} (key : α → κ) (l : List α) (k : κ) : Option α :=
  l.reverse.find? fun a => key a = k

@[simp] theorem overwrite_nil (m : κ → β) : overwrite m [] = m := rfl

theorem overwrite_append (m : κ → β) (first second : List (κ × β)) :
    overwrite m (first ++ second) = overwrite (overwrite m first) second :=
  foldl_append

@[simp] theorem overwrite_singleton (m : κ → β) (w : κ × β) :
    overwrite m [w] = Function.update m w.1 w.2 := rfl

variable {α : Type*}

theorem lastOf?_concat (key : α → κ) (l : List α) (a : α) (k : κ) :
    lastOf? key (l ++ [a]) k = if key a = k then some a else lastOf? key l k := by
  rw [lastOf?, reverse_append, reverse_singleton, singleton_append,
    find?_cons]
  by_cases h : key a = k
  · rw [if_pos h, decide_eq_true h]
  · rw [if_neg h, decide_eq_false h, lastOf?]

theorem forall_lastOf?_singleton {key : α → κ} {a : α} {P : κ → α → Prop} :
    (∀ k b, lastOf? key [a] k = some b → P k b) ↔ P (key a) a := by
  have hone (k : κ) : lastOf? key [a] k = if key a = k then some a else none :=
    lastOf?_concat key [] a k
  constructor
  · intro h
    exact h (key a) a (by rw [hone, if_pos rfl])
  · intro h k b hlast
    rw [hone, Option.ite_none_right_eq_some] at hlast
    obtain ⟨rfl, hab⟩ := hlast
    exact Option.some.inj hab ▸ h

section

variable (m : κ → β)

/-- **The last write counts.** -/
theorem overwrite_apply (writes : List (κ × β)) (k : κ) :
    overwrite m writes k = ((lastOf? Prod.fst writes k).map Prod.snd).getD (m k) := by
  induction writes using List.reverseRecOn with
  | nil => rfl
  | append_singleton writes w ih =>
    rw [overwrite_append, overwrite_singleton, lastOf?_concat]
    by_cases h : w.1 = k
    · subst h
      rw [if_pos rfl, update_self]
      rfl
    · rw [if_neg h, update_of_ne (Ne.symm h), ih]

theorem lastOf?_append (key : α → κ) (first second : List α) (k : κ) :
    lastOf? key (first ++ second) k = (lastOf? key second k).or (lastOf? key first k) := by
  rw [lastOf?, reverse_append, find?_append]
  rfl

theorem lastOf?_map {α γ : Type*} (key : γ → κ) (f : α → γ) (l : List α) (k : κ) :
    lastOf? key (l.map f) k = (lastOf? (key ∘ f) l k).map f := by
  rw [lastOf?, ← map_reverse, find?_map]
  rfl

/-- A log from any point on changes nothing of what the log has made. -/
theorem overwrite_drop_overwrite (writes : List (κ × β)) (n : ℕ) :
    overwrite (overwrite m writes) (writes.drop n) = overwrite m writes := by
  funext k
  rw [overwrite_apply]
  cases hlast : lastOf? Prod.fst (writes.drop n) k with
  | none => rfl
  | some w =>
    have hwhole : lastOf? Prod.fst writes k = some w := by
      rw [← take_append_drop n writes, lastOf?_append, hlast, Option.some_or]
    rw [overwrite_apply, hwhole]
    rfl

/-- The first part of a log may be left out exactly if what its last writes left is what was
there, or is written again. -/
theorem overwrite_skip_iff (first second : List (κ × β)) :
    overwrite m second = overwrite (overwrite m first) second ↔
      ∀ k, lastOf? Prod.fst second k = none →
        ∀ w, lastOf? Prod.fst first k = some w → w.2 = m k := by
  constructor
  · intro heq k hsecond w hfirst
    have hk := congrFun heq k
    rw [overwrite_apply, overwrite_apply, overwrite_apply, hsecond, hfirst] at hk
    exact hk.symm
  · intro hagree
    funext k
    rw [overwrite_apply, overwrite_apply]
    cases hsecond : lastOf? Prod.fst second k with
    | some w => rfl
    | none =>
      rw [overwrite_apply]
      cases hfirst : lastOf? Prod.fst first k with
      | none => rfl
      | some w => exact (hagree k hsecond w hfirst).symm

theorem overwrite_map_apply (l : List α) (key : α → κ) (f : α → β) (k : κ) :
    overwrite m (l.map fun a => (key a, f a)) k = ((lastOf? key l k).map f).getD (m k) := by
  rw [overwrite_apply, lastOf?_map, Option.map_map]
  rfl

/-- What two logs of the same keys make of the same function. -/
theorem overwrite_eq_iff (l : List α) (key : α → κ) (f g : α → β) :
    overwrite m (l.map fun a => (key a, f a)) = overwrite m (l.map fun a => (key a, g a)) ↔
      ∀ k a, lastOf? key l k = some a → f a = g a := by
  constructor
  · intro heq k a hlast
    have hk := congrFun heq k
    rw [overwrite_map_apply, overwrite_map_apply, hlast] at hk
    exact hk
  · intro hagree
    funext k
    rw [overwrite_map_apply, overwrite_map_apply]
    cases hlast : lastOf? key l k with
    | none => rfl
    | some a => exact hagree k a hlast

/-- A log leaves a function as it is exactly if its last writes are what was there. -/
theorem overwrite_eq_self_iff (l : List α) (key : α → κ) (f : α → β) :
    overwrite m (l.map fun a => (key a, f a)) = m ↔
      ∀ k a, lastOf? key l k = some a → f a = m k := by
  constructor
  · intro heq k a hlast
    have hk := congrFun heq k
    rw [overwrite_map_apply, hlast] at hk
    exact hk
  · intro hagree
    funext k
    rw [overwrite_map_apply]
    cases hlast : lastOf? key l k with
    | none => rfl
    | some a => exact hagree k a hlast

end

/-- Where every key is written once, each entry is what is written there. -/
theorem overwrite_eq_lookup {writes : List (κ × β)} (h : (writes.map Prod.fst).Nodup) (m : κ → β)
    (k : κ) : overwrite m writes k = (writes.lookup k).getD (m k) := by
  induction writes generalizing m with
  | nil => rfl
  | cons w rest ih =>
    obtain ⟨hw, hrest⟩ := nodup_cons.mp h
    have hstep : overwrite m (w :: rest) k = (rest.lookup k).getD (Function.update m w.1 w.2 k) :=
      ih hrest _
    rw [hstep, lookup_cons]
    by_cases hk : k = w.1
    · have hnone : rest.lookup k = none := by
        rw [lookup_eq_none_iff]
        intro e he
        have hne : k ≠ e.1 := fun heq => hw (mem_map.mpr ⟨e, he, heq.symm.trans hk⟩)
        exact bne_iff_ne.mpr hne
      rw [hnone, hk, beq_self_eq_true, Option.getD_none, update_self]
      rfl
    · rw [beq_eq_false_iff_ne.mpr hk, update_of_ne hk]

/-- Writes below one first component. -/
theorem overwrite_pair {ν : Type*} [DecidableEq ν] (m : ν × κ → β) (n : ν)
    (writes : List (κ × β)) (k : ν × κ) :
    overwrite m (writes.map fun w => ((n, w.1), w.2)) k
      = if k.1 = n then overwrite (fun i => m (n, i)) writes k.2 else m k := by
  induction writes using List.reverseRecOn with
  | nil =>
    obtain ⟨n', i⟩ := k
    by_cases h : n' = n
    · subst h
      exact (if_pos rfl).symm
    · exact (if_neg h).symm
  | append_singleton writes w ih =>
    rw [map_append, overwrite_append, map_singleton, overwrite_singleton,
      overwrite_append, overwrite_singleton]
    obtain ⟨n', i⟩ := k
    by_cases h : n' = n
    · subst h
      by_cases hi : i = w.1
      · subst hi
        simp
      · rw [if_pos rfl] at ih ⊢
        rw [update_of_ne (fun he => hi (Prod.mk.inj he).2), ih,
          update_of_ne hi]
    · rw [if_neg h] at ih ⊢
      rw [update_of_ne (fun he => h (Prod.mk.inj he).1), ih]

end Overwrite
