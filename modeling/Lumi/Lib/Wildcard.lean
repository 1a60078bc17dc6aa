import Mathlib.Data.List.Forall2
import Mathlib.Data.List.Infix

/-!
# Wildcard patterns

In a pattern `star` stands for any sequence, `mark` for any one element and everything else for
itself.  There is no way to ask for a `star` or a `mark` itself, so that patterns cannot tell a
sequence from those it covers: the ones that differ from it only where it has a wildcard.  They
tell it from all others (`accepts_narrow`).
-/

namespace Wildcard

open List

variable {α : Type*} [DecidableEq α] (star mark : α)

/-- Does the pattern match the whole sequence? -/
def accepts : List α → List α → Bool
  | [], s => s.isEmpty
  | c :: pattern, s =>
    if c = star then s.tails.any (accepts pattern)
    else match s with
      | [] => false
      | d :: rest => (c = mark || c = d) && accepts pattern rest

/-- The second sequence differs from the first only where that has a wildcard. -/
def Covers (s t : List α) : Prop := List.Forall₂ (fun c d => c = star ∨ c = mark ∨ c = d) s t

/-- The narrowest pattern that matches the sequence. -/
def narrow (s : List α) : List α := s.map fun c => if c = star then mark else c

variable {star mark} {s t pattern : List α}

theorem accepts_star :
    accepts star mark (star :: pattern) s ↔
      ∃ suffix, suffix <:+ s ∧ accepts star mark pattern suffix := by
  cases s <;> simp only [accepts, if_pos, any_eq_true, mem_tails]

theorem not_accepts_nil {c : α} (hc : c ≠ star) : ¬ accepts star mark (c :: pattern) [] := by
  simp [accepts, hc]

theorem accepts_cons {c d : α} (hc : c ≠ star) :
    accepts star mark (c :: pattern) (d :: s)
      ↔ (c = mark ∨ c = d) ∧ accepts star mark pattern s := by
  simp [accepts, hc]

omit [DecidableEq α] in
@[refl] theorem Covers.refl (s : List α) : Covers star mark s s :=
  forall₂_same.mpr fun _ _ => .inr (.inr rfl)

theorem accepts_narrow (hne : mark ≠ star) :
    accepts star mark (narrow star mark s) t ↔ Covers star mark s t := by
  induction s generalizing t with
  | nil =>
    rw [Covers, forall₂_nil_left_iff]
    exact List.isEmpty_iff
  | cons c rest ih =>
    have hc : (if c = star then mark else c) ≠ star := by
      split
      · exact hne
      · assumption
    rw [narrow, map_cons, ← narrow]
    cases t with
    | nil => simp [Covers, not_accepts_nil hc]
    | cons d t =>
      rw [accepts_cons hc, ih, Covers, Covers, forall₂_cons]
      refine and_congr_left fun _ => ?_
      split
      · next hstar => exact ⟨fun _ => .inl hstar, fun _ => .inl rfl⟩
      · next hstar => exact ⟨Or.inr, fun h => h.resolve_left hstar⟩

/-- Whatever matches a sequence matches those it covers. -/
theorem accepts_of_covers (h : accepts star mark pattern s) (hcovers : Covers star mark s t) :
    accepts star mark pattern t := by
  induction pattern generalizing s t with
  | nil =>
    rw [accepts, List.isEmpty_iff] at h ⊢
    rw [h] at hcovers
    exact forall₂_nil_left_iff.mp hcovers
  | cons c pattern ih =>
    by_cases hc : c = star
    · subst hc
      obtain ⟨suffix, hsuffix, haccepts⟩ := accepts_star.mp h
      rw [suffix_iff_eq_drop.mp hsuffix] at haccepts
      refine accepts_star.mpr ⟨_, drop_suffix (s.length - suffix.length) t, ?_⟩
      exact ih haccepts (forall₂_drop _ hcovers)
    · cases hcovers with
      | nil => exact absurd h (not_accepts_nil hc)
      | @cons d e rest rest' hhead htail =>
        obtain ⟨hd, hrest⟩ := (accepts_cons hc).mp h
        refine (accepts_cons hc).mpr ⟨?_, ih hrest htail⟩
        rcases hd with hmark | rfl
        · exact .inl hmark
        · exact hhead.resolve_left hc

theorem accepts_self (hne : mark ≠ star) : accepts star mark (narrow star mark s) s :=
  (accepts_narrow hne).mpr (Covers.refl s)

theorem exists_not_accepts (hne : mark ≠ star) (s : List α) :
    ∃ pattern, ¬ accepts star mark pattern s := by
  cases s with
  | nil => exact ⟨[mark], by simp [accepts, hne]⟩
  | cons c rest => exact ⟨[], by simp [accepts]⟩

/-! ## Lists of patterns -/

variable {sequences : List (List α)}

/-- Patterns that match none of the sequences match `t` neither, whatever the patterns are, just if
`t` covers one of the sequences. -/
theorem forall_deny_iff (hne : mark ≠ star) :
    (∀ deny : List (List α), (∀ s ∈ sequences, ∀ p ∈ deny, ¬ accepts star mark p s) →
      ∀ p ∈ deny, ¬ accepts star mark p t) ↔ ∃ s ∈ sequences, Covers star mark t s := by
  constructor
  · intro h
    by_contra hnone
    refine h [narrow star mark t] (fun s hs p hp haccepts => hnone ⟨s, hs, ?_⟩) _
      mem_cons_self (accepts_self hne)
    rw [mem_singleton.mp hp] at haccepts
    exact (accepts_narrow hne).mp haccepts
  · rintro ⟨s, hs, hcovers⟩ deny hdeny p hp haccepts
    exact hdeny s hs p hp (accepts_of_covers haccepts hcovers)

/-- Patterns one of which matches each of the sequences also match `t`, just if one of the sequences
covers `t`. -/
theorem forall_allow_iff (hne : mark ≠ star) :
    (∀ allow : List (List α), allow ≠ [] →
      (∀ s ∈ sequences, ∃ p ∈ allow, accepts star mark p s) →
        ∃ p ∈ allow, accepts star mark p t) ↔ ∃ s ∈ sequences, Covers star mark s t := by
  constructor
  · intro h
    obtain ⟨other, hother⟩ := exists_not_accepts hne t
    obtain ⟨p, hp, haccepts⟩ := h (other :: sequences.map (narrow star mark))
      (cons_ne_nil _ _) fun s hs =>
        ⟨_, mem_cons_of_mem _ (mem_map_of_mem hs), accepts_self hne⟩
    rcases mem_cons.mp hp with rfl | hp
    · exact absurd haccepts hother
    · obtain ⟨s, hs, rfl⟩ := mem_map.mp hp
      exact ⟨s, hs, (accepts_narrow hne).mp haccepts⟩
  · rintro ⟨s, hs, hcovers⟩ allow _ hallow
    obtain ⟨p, hp, haccepts⟩ := hallow s hs
    exact ⟨p, hp, accepts_of_covers haccepts hcovers⟩

end Wildcard
