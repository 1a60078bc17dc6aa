import Mathlib.Algebra.Order.Group.Multiset
import Mathlib.Data.Multiset.Lattice
import Mathlib.Order.WithBot

/-!
# Ledgers

A ledger holds a bag of values and remembers what it gained since it was last empty.  Who only keeps
the least or the greatest value that was gained can answer for the values that are present as long as
every value that went away is outdone by one that is still there (`least_gained_eq_iff`).
-/

section

variable {α : Type*} [LinearOrder α]

/-- The least value of a bag, `⊤` if it has none. -/
def least (values : Multiset α) : WithTop α := (values.map WithTop.some).inf

/-- The greatest value of a bag, `⊥` if it has none. -/
def greatest (values : Multiset α) : WithBot α := (values.map WithBot.some).sup

variable {values others : Multiset α} {x m : α}

@[simp] theorem least_zero : least (0 : Multiset α) = ⊤ := rfl

@[simp] theorem greatest_zero : greatest (0 : Multiset α) = ⊥ := rfl

@[simp] theorem least_cons : least (x ::ₘ values) = min ↑x (least values) := by
  rw [least, Multiset.map_cons, Multiset.inf_cons]
  rfl

@[simp] theorem greatest_cons : greatest (x ::ₘ values) = max ↑x (greatest values) := by
  rw [greatest, Multiset.map_cons, Multiset.sup_cons]
  rfl

theorem least_le (h : x ∈ values) : least values ≤ x :=
  Multiset.inf_le (Multiset.mem_map_of_mem _ h)

/-- A bag has the least value `m` if `m` belongs to it and none is smaller. -/
theorem least_eq_coe_iff : least values = ↑m ↔ m ∈ values ∧ ∀ x ∈ values, m ≤ x := by
  constructor
  · intro h
    refine ⟨?_, fun x hx => WithTop.coe_le_coe.mp (h ▸ least_le hx)⟩
    induction values using Multiset.induction_on generalizing m with
    | empty => exact absurd h WithTop.top_ne_coe
    | cons x rest ih =>
      rw [least_cons] at h
      rcases min_choice (↑x) (least rest) with hx | hrest
      · rw [hx] at h
        exact WithTop.coe_injective h ▸ Multiset.mem_cons_self x rest
      · exact Multiset.mem_cons_of_mem (ih (hrest ▸ h))
  · rintro ⟨hmem, hle⟩
    refine le_antisymm (least_le hmem) (Multiset.le_inf.mpr fun y hy => ?_)
    obtain ⟨x, hx, rfl⟩ := Multiset.mem_map.mp hy
    exact WithTop.coe_le_coe.mpr (hle x hx)

theorem exists_least (h : values ≠ 0) : ∃ m : α, least values = ↑m := by
  induction values using Multiset.induction_on with
  | empty => exact absurd rfl h
  | cons x rest ih =>
    rcases min_choice (↑x) (least rest) with hx | hrest
    · exact ⟨x, least_cons.trans hx⟩
    · by_cases hempty : rest = 0
      · exact ⟨x, by rw [least_cons, hempty, least_zero, min_top_right]⟩
      · obtain ⟨m, hm⟩ := ih hempty
        exact ⟨m, least_cons.trans (hrest.trans hm)⟩

/-- Two bags have one least value if each value of the larger bag has one below it in the other. -/
theorem least_eq_least_iff (hle : values ≤ others) (hne : values ≠ 0) :
    least others = least values ↔ ∀ x ∈ others, ∃ y ∈ values, y ≤ x := by
  obtain ⟨m, hm⟩ := exists_least hne
  have hleast := least_eq_coe_iff.mp hm
  rw [hm, least_eq_coe_iff]
  constructor
  · exact fun h x hx => ⟨m, hleast.1, h.2 x hx⟩
  · intro h
    refine ⟨Multiset.mem_of_le hle hleast.1, fun x hx => ?_⟩
    obtain ⟨y, hy, hyx⟩ := h x hx
    exact (hleast.2 y hy).trans hyx

/-- The greatest value is the least one in the opposite order. -/
theorem greatest_eq_greatest_iff (hle : values ≤ others) (hne : values ≠ 0) :
    greatest others = greatest values ↔ ∀ x ∈ others, ∃ y ∈ values, x ≤ y :=
  @least_eq_least_iff αᵒᵈ _ values others hle hne

end

/-- The values that are present and those gained since the ledger was last empty. -/
structure Ledger (α : Type*) where
  present : Multiset α
  gained : Multiset α
  le_gained : present ≤ gained
  gained_eq_zero : present = 0 → gained = 0

namespace Ledger

variable {α : Type*}

def empty : Ledger α := ⟨0, 0, le_rfl, id⟩

section

variable (l : Ledger α)

def gain (x : α) : Ledger α where
  present := x ::ₘ l.present
  gained := x ::ₘ l.gained
  le_gained := Multiset.cons_le_cons x l.le_gained
  gained_eq_zero h := absurd h Multiset.cons_ne_zero

/-- A value goes away, and with the last one the memory of what was gained. -/
def lose [DecidableEq α] (x : α) : Ledger α where
  present := l.present.erase x
  gained := if l.present.erase x = 0 then 0 else l.gained
  le_gained := by
    split
    · next hempty => exact hempty.le
    · exact (Multiset.erase_le x l.present).trans l.le_gained
  gained_eq_zero h := if_pos h

@[simp] theorem present_gain (x : α) : (l.gain x).present = x ::ₘ l.present := rfl

@[simp] theorem gained_gain (x : α) : (l.gain x).gained = x ::ₘ l.gained := rfl

@[simp] theorem present_lose [DecidableEq α] (x : α) :
    (l.lose x).present = l.present.erase x := rfl

end

theorem gained_lose_of_ne [DecidableEq α] {l : Ledger α} {x : α} (h : l.present.erase x ≠ 0) :
    (l.lose x).gained = l.gained := if_neg h

variable [LinearOrder α] {l : Ledger α}

theorem least_gained_eq_iff (h : l.present ≠ 0) :
    least l.gained = least l.present ↔ ∀ x ∈ l.gained, ∃ y ∈ l.present, y ≤ x :=
  least_eq_least_iff l.le_gained h

theorem greatest_gained_eq_iff (h : l.present ≠ 0) :
    greatest l.gained = greatest l.present ↔ ∀ x ∈ l.gained, ∃ y ∈ l.present, x ≤ y :=
  greatest_eq_greatest_iff l.le_gained h

end Ledger
