import Mathlib.Algebra.Order.Group.Nat
import Mathlib.Data.Nat.Find
import Lumi.Lib.Splice

/-!
# Patterns in a window of a list

A window is what lies between two positions of a list.  A pattern stands in the window at the places
at which it stands in the list and ends before the window does.  `First` is the first place of any of
several patterns, and `Absent` says that there is none; which of the two holds does not depend on what
the list is like at other places.
-/

namespace Window

open List

variable {α : Type*}

/-- What lies between two positions. -/
def segment (xs : List α) (start stop : ℕ) : List α := (xs.take stop).drop start

section

variable {xs : List α} {start stop : ℕ}

theorem length_segment (hstop : stop ≤ xs.length) : (segment xs start stop).length = stop - start := by
  rw [segment, length_drop, length_take, min_eq_left hstop]

theorem segment_of_le (h : stop ≤ start) : segment xs start stop = [] := by
  apply drop_eq_nil_of_le
  rw [length_take]
  omega

theorem drop_segment (k : ℕ) : (segment xs start stop).drop k = segment xs (start + k) stop := by
  rw [segment, segment, drop_drop]

theorem take_segment {k : ℕ} (h : start + k ≤ stop) :
    (segment xs start stop).take k = segment xs start (start + k) := by
  rw [segment, segment, take_drop, take_take, min_eq_left h]

theorem segment_append {middle : ℕ} (hstart : start ≤ middle) (hmiddle : middle ≤ stop) :
    segment xs start middle ++ segment xs middle stop = segment xs start stop := by
  have hsplit := take_append_drop (middle - start) (segment xs start stop)
  rw [drop_segment, take_segment (by omega)] at hsplit
  rw [← hsplit, Nat.add_sub_cancel' hstart]

theorem map_segment {β : Type*} (f : α → β) :
    (segment xs start stop).map f = segment (xs.map f) start stop := by
  rw [segment, segment, map_drop, map_take]

theorem mem_of_mem_segment {x : α} (h : x ∈ segment xs start stop) : x ∈ xs :=
  mem_of_mem_take (mem_of_mem_drop h)

theorem standsAt_segment_iff {pattern : List α} (hne : pattern ≠ []) {i : ℕ} :
    StandsAt (segment xs start stop) pattern i
      ↔ StandsAt xs pattern (start + i) ∧ start + i + pattern.length ≤ stop := by
  have hpos := length_pos_of_ne_nil hne
  have hdrop : (segment xs start stop).drop i
      = (xs.drop (start + i)).take (stop - (start + i)) := by
    rw [drop_segment, segment, drop_take]
  rw [StandsAt, hdrop, take_take, StandsAt]
  by_cases hfits : start + i + pattern.length ≤ stop
  · rw [min_eq_left (by omega), and_iff_left hfits]
  · refine ⟨fun h => ?_, fun h => absurd h.2 hfits⟩
    have hlength := congrArg List.length h
    rw [length_take] at hlength
    omega

end

section

variable (patterns : List (List α)) (xs : List α)

/-- The first place from `start` on at which one of the patterns stands and ends before `stop`. -/
structure First (start stop place : ℕ) (pattern : List α) : Prop where
  mem : pattern ∈ patterns
  le : start ≤ place
  stands : StandsAt xs pattern place
  fits : place + pattern.length ≤ stop
  before : ∀ other ∈ patterns, ∀ i, start ≤ i → i < place → StandsAt xs other i →
    stop < i + other.length

/-- None of the patterns stands from `start` on and ends before `stop`. -/
def Absent (start stop : ℕ) : Prop :=
  ∀ pattern ∈ patterns, ∀ i, start ≤ i → StandsAt xs pattern i → stop < i + pattern.length

variable {patterns xs} {ys : List α} {start start' stop place place' : ℕ} {pattern pattern' : List α}

theorem first_or_absent (patterns : List (List α)) (xs : List α) (start stop : ℕ) :
    (∃ place pattern, First patterns xs start stop place pattern)
      ∨ Absent patterns xs start stop := by
  classical
  by_cases h : ∃ place, ∃ pattern ∈ patterns, start ≤ place ∧ StandsAt xs pattern place
      ∧ place + pattern.length ≤ stop
  · obtain ⟨pattern, hmem, hle, hstands, hfits⟩ := Nat.find_spec h
    refine .inl ⟨Nat.find h, pattern, hmem, hle, hstands, hfits, ?_⟩
    intro other hother i hi hlt hstands'
    by_contra hnot
    exact Nat.find_min h hlt ⟨other, hother, hi, hstands', not_lt.mp hnot⟩
  · refine .inr fun pattern hmem i hi hstands => ?_
    by_contra hnot
    exact h ⟨i, pattern, hmem, hi, hstands, not_lt.mp hnot⟩

section

variable (h : First patterns xs start stop place pattern)
include h

theorem First.not_absent :
    ¬ Absent patterns xs start stop := fun habsent =>
  absurd h.fits (not_le_of_gt (habsent pattern h.mem place h.le h.stands))

theorem First.place_unique (h' : First patterns xs start stop place' pattern') :
    place = place' := by
  have hle := fun hlt => h.before pattern' h'.mem place' h'.le hlt h'.stands
  have hge := fun hlt => h'.before pattern h.mem place h.le hlt h.stands
  have := h.fits
  have := h'.fits
  by_contra hne
  rcases Nat.lt_or_gt_of_ne hne with hlt | hlt
  · have := hge hlt
    omega
  · have := hle hlt
    omega

/-- The first place is the same in two lists in which the patterns stand alike up to there. -/
theorem First.transfer (hstart : start ≤ place → start' ≤ place)
    (hstands : StandsAt ys pattern place)
    (hbefore : ∀ other ∈ patterns, ∀ i, start' ≤ i → i < place → StandsAt ys other i →
      start ≤ i ∧ StandsAt xs other i) : First patterns ys start' stop place pattern where
  mem := h.mem
  le := hstart h.le
  stands := hstands
  fits := h.fits
  before := fun other hother i hi hlt hstands' => by
    obtain ⟨hle, hold⟩ := hbefore other hother i hi hlt hstands'
    exact h.before other hother i hle hlt hold

end

end

end Window
