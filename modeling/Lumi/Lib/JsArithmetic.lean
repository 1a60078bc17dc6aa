import Mathlib.Tactic.Linarith
import Lumi.Lib.JsValue

/-!
# Exact arithmetic

Sums, differences and comparisons of numbers, where the numbers that are finite are exact.
-/

namespace Js.Number

/-- `a + b` -/
def add : Number → Number → Number
  | finite x, finite y => finite (x + y)
  | nan, _ => nan
  | _, nan => nan
  | posInfinity, negInfinity => nan
  | negInfinity, posInfinity => nan
  | finite _, b => b
  | a, _ => a

def neg : Number → Number
  | nan => nan
  | posInfinity => negInfinity
  | negInfinity => posInfinity
  | finite x => finite (-x)

/-- `a - b` -/
def sub (a b : Number) : Number := a.add b.neg

/-- `a / n` for a positive `n`. -/
def divBy (a : Number) (n : ℤ) : Number :=
  match a with
  | finite x => finite (x / n)
  | a => a

/-- `a < b` -/
def lt (a b : Number) : Bool := less? a b = some true

/-- `a >= b` -/
def ge (a b : Number) : Bool := less? a b = some false

/-- `Infinity`, or a number. -/
def ofTop : WithTop ℚ → Number
  | none => posInfinity
  | some q => finite q

/-- `-Infinity`, or a number. -/
def ofBot : WithBot ℚ → Number
  | none => negInfinity
  | some q => finite q

theorem ofTop_injective : Function.Injective ofTop := by
  intro x y h
  cases x <;> cases y <;> simp_all [ofTop]

theorem ofBot_injective : Function.Injective ofBot := by
  intro x y h
  cases x <;> cases y <;> simp_all [ofBot]

/-- `if (x < min) min = x` -/
theorem ofTop_min (x : ℚ) (m : WithTop ℚ) :
    (if (finite x).lt (ofTop m) then finite x else ofTop m) = ofTop (min ↑x m) := by
  cases m with
  | top =>
    rw [min_top_right]
    rfl
  | coe m =>
    rw [← WithTop.coe_min]
    by_cases hlt : x < m
    · rw [min_eq_left hlt.le]
      simp [ofTop, lt, less?, hlt]
    · rw [min_eq_right (not_lt.mp hlt)]
      simp [ofTop, lt, less?, hlt]

theorem ofBot_max (x : ℚ) (m : WithBot ℚ) :
    (if (ofBot m).lt (finite x) then finite x else ofBot m) = ofBot (max ↑x m) := by
  cases m with
  | bot =>
    rw [max_bot_right]
    rfl
  | coe m =>
    rw [← WithBot.coe_max]
    by_cases hlt : m < x
    · rw [max_eq_left hlt.le]
      simp [ofBot, lt, less?, hlt]
    · rw [max_eq_right (not_lt.mp hlt)]
      simp [ofBot, lt, less?, hlt]

/-! ## Points in time -/

/-- A remaining time is positive before the end of it. -/
theorem lt_zero_sub_iff (a : Number) (now : ℚ) :
    (finite 0).lt (a.sub (finite now)) = (finite now).lt a := by
  cases a with
  | finite x => simp [lt, less?, sub, neg, add, ← sub_eq_add_neg]
  | _ => rfl

/-- What is left of a time span, counted from later on, does not end before it. -/
theorem lt_add_sub {a : Number} {now later t : ℚ} (hle : now ≤ later)
    (hnow : (finite now).lt a = true) (ht : (finite t).lt a = true) :
    (finite t).lt ((finite later).add (a.sub (finite now))) = true := by
  cases a with
  | finite x =>
    simp only [lt, less?, sub, neg, add, decide_eq_true_eq, Option.some.injEq] at ht ⊢
    linarith
  | _ => simp_all [lt, less?, sub, neg, add]

end Js.Number
