import Mathlib.Data.Int.Bitwise
import Mathlib.Tactic.Positivity
import Mathlib.Tactic.Ring

/-!
# Numbers as bits

Masks that collect bits, and numbers that are packed of fields.
-/

namespace BloomMask

/-! ## Masks of bits

A mask collects the bits of the values that it has seen; a value whose bit is missing has not been
seen.
-/

/-- The mask with a bit set. -/
def add (mask bit : ℕ) : ℕ := mask ||| 1 <<< bit

/-- `(mask & (1n << bit)) === 0n`. -/
def misses (mask bit : ℕ) : Bool := mask &&& 1 <<< bit = 0

theorem misses_eq (mask bit : ℕ) : misses mask bit = !mask.testBit bit := by
  rw [misses, Nat.one_shiftLeft, Nat.and_two_pow]
  cases mask.testBit bit with
  | true => simp
  | false => simp

@[simp] theorem misses_zero (bit : ℕ) : misses 0 bit = true := by
  rw [misses_eq, Nat.zero_testBit]
  rfl

theorem misses_add (mask bit other : ℕ) :
    misses (add mask bit) other = (misses mask other && decide (bit ≠ other)) := by
  rw [misses_eq, misses_eq, add, Nat.one_shiftLeft, Nat.testBit_or, Nat.testBit_two_pow,
    Bool.not_or]
  simp

/-- A collection misses what its mask missed and none of the new bits is. -/
theorem misses_foldl_add (bits : List ℕ) (mask bit : ℕ) :
    misses (bits.foldl add mask) bit = true ↔ misses mask bit = true ∧ bit ∉ bits := by
  induction bits generalizing mask with
  | nil => simp
  | cons first rest ih =>
    rw [List.foldl_cons, ih, misses_add, Bool.and_eq_true, decide_eq_true_eq, List.mem_cons,
      not_or, and_assoc]
    exact and_congr_right fun _ => and_congr_left fun _ => ne_comm

end BloomMask

namespace BitFields

/-! ## Numbers packed of fields

A number that was shifted to the left leaves room for a field below it.  Setting the bits of the
field is then the same as adding it, and the packed numbers are ordered by the upper part first.
-/

/-- A field is set in the room that a shift has left. -/
theorem lor_shiftLeft (m : ℤ) (k : ℕ) {n : ℕ} (h : n < 2 ^ k) :
    Int.lor (m <<< k) n = m * 2 ^ k + n := by
  rw [Int.shiftLeft_eq]
  induction k generalizing n with
  | zero =>
    obtain rfl : n = 0 := by omega
    have hzero : Int.lor (m * 2 ^ 0) 0 = m * 2 ^ 0 := by
      cases m * 2 ^ 0 with
      | ofNat m => exact congrArg Int.ofNat (Nat.or_zero m)
      | negSucc m => exact congrArg Int.negSucc (by simp [Nat.ldiff])
    rw [Nat.cast_zero, hzero, add_zero]
  | succ k ih =>
    have hhalf : n / 2 < 2 ^ k := by omega
    have hupper : m * 2 ^ (k + 1) = Int.bit false (m * 2 ^ k) := by
      rw [Int.bit_val, pow_succ]
      simp only [cond_false, add_zero]
      ring
    have hfield : (n : ℤ) = Int.bit n.bodd ((n / 2 : ℕ) : ℤ) := by
      rw [← Nat.div2_val]
      exact (Int.bit_decomp n).symm
    calc Int.lor (m * 2 ^ (k + 1)) n
        = Int.bit n.bodd (Int.lor (m * 2 ^ k) ((n / 2 : ℕ) : ℤ)) := by
          rw [hupper]
          conv_lhs => rw [hfield]
          rw [Int.lor_bit, Bool.false_or]
      _ = Int.bit n.bodd (m * 2 ^ k + ((n / 2 : ℕ) : ℤ)) := by rw [ih hhalf]
      _ = m * 2 ^ (k + 1) + n := by
          conv_rhs => rw [hfield]
          rw [Int.bit_val, Int.bit_val, pow_succ]
          ring

/-- The upper part decides, and where it is the same the field. -/
theorem packed_lt_iff {k : ℕ} {m m' n n' : ℤ} (hn : 0 ≤ n) (hlt : n < 2 ^ k) (hn' : 0 ≤ n')
    (hlt' : n' < 2 ^ k) : m * 2 ^ k + n < m' * 2 ^ k + n' ↔ m < m' ∨ m = m' ∧ n < n' := by
  rcases lt_trichotomy m m' with hm | rfl | hm
  · have hstep : (m + 1) * 2 ^ k ≤ m' * 2 ^ k :=
      mul_le_mul_of_nonneg_right (by omega) (by positivity)
    rw [add_mul, one_mul] at hstep
    exact ⟨fun _ => .inl hm, fun _ => by omega⟩
  · exact ⟨fun h => .inr ⟨rfl, by omega⟩, fun h => by omega⟩
  · have hstep : (m' + 1) * 2 ^ k ≤ m * 2 ^ k :=
      mul_le_mul_of_nonneg_right (by omega) (by positivity)
    rw [add_mul, one_mul] at hstep
    exact ⟨fun h => by omega, fun h => by omega⟩

end BitFields
