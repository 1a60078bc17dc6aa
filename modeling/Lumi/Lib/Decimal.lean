import Lumi.Lib.JsValue

/-!
# Decimal numerals

`n.toString()` of a natural number, and what `BigInt` reads back: white space around a numeral is
ignored, nothing is 0, a decimal numeral may have a sign and others a prefix for their base.
-/

namespace Js

open List

/-- `n.toString()`. -/
def decimal (n : ℕ) : Text := text (String.ofList (Nat.toDigits 10 n))

def digitValue? (c : UInt16) : Option ℕ :=
  if 0x30 ≤ c ∧ c ≤ 0x39 then some (c.toNat - 0x30)
  else if 0x41 ≤ c ∧ c ≤ 0x46 then some (c.toNat - 0x41 + 10)
  else if 0x61 ≤ c ∧ c ≤ 0x66 then some (c.toNat - 0x61 + 10)
  else none

/-- The number after one more digit. -/
def appendDigit? (base n : ℕ) (c : UInt16) : Option ℕ :=
  ((digitValue? c).filter (· < base)).map (base * n + ·)

/-- The value of a numeral without sign, which has some digit. -/
def numeral? (base : ℕ) (s : Text) : Option ℕ :=
  if s = [] then none else s.foldlM (appendDigit? base) 0

/-- `BigInt(s)`, if that does not throw. -/
def bigInt? (s : Text) : Option ℤ :=
  let body := trim s
  let digits := body.drop 2
  if body = [] then some 0
  else if body.take 2 = text "0x" ∨ body.take 2 = text "0X" then (numeral? 16 digits).map Int.ofNat
  else if body.take 2 = text "0o" ∨ body.take 2 = text "0O" then (numeral? 8 digits).map Int.ofNat
  else if body.take 2 = text "0b" ∨ body.take 2 = text "0B" then (numeral? 2 digits).map Int.ofNat
  else if body.head? = some 0x2B then (numeral? 10 body.tail).map Int.ofNat
  else if body.head? = some 0x2D then (numeral? 10 body.tail).map fun n : ℕ => -(n : ℤ)
  else (numeral? 10 body).map Int.ofNat

/-! ## Numerals of natural numbers -/

theorem decimal_of_lt {k : ℕ} (hk : k < 10) : decimal k = [(0x30 + k).toUInt16] := by
  revert k
  decide

theorem decimal_append {m k : ℕ} (hm : 0 < m) (hk : k < 10) :
    decimal (10 * m + k) = decimal m ++ decimal k := by
  rw [decimal, decimal, decimal, text, text, text, String.toList_ofList, String.toList_ofList,
    String.toList_ofList, ← flatMap_append, Nat.toDigits_append_toDigits (by decide) hm hk]

/-- Digit by digit. -/
theorem decimal_induction {motive : ℕ → Text → Prop}
    (single : ∀ k < 10, motive k [(0x30 + k).toUInt16])
    (digit : ∀ m k, 0 < m → k < 10 → motive m (decimal m) →
      motive (10 * m + k) (decimal m ++ [(0x30 + k).toUInt16])) (n : ℕ) : motive n (decimal n) := by
  induction n using Nat.strongRecOn with
  | ind n ih =>
    by_cases hn : n < 10
    · exact decimal_of_lt hn ▸ single n hn
    · have hsplit : 10 * (n / 10) + n % 10 = n := Nat.div_add_mod n 10
      have hm : 0 < n / 10 := Nat.div_pos (Nat.le_of_not_lt hn) (by decide)
      have hk : n % 10 < 10 := Nat.mod_lt n (by decide)
      rw [← hsplit, decimal_append hm hk, decimal_of_lt hk]
      exact digit _ _ hm hk (ih _ (Nat.div_lt_self (by omega) (by decide)))

theorem appendDigit?_ten (n : ℕ) {k : ℕ} (hk : k < 10) :
    appendDigit? 10 n (0x30 + k).toUInt16 = some (10 * n + k) := by
  have hdigit : ∀ k < 10, (digitValue? (0x30 + k).toUInt16).filter (· < 10) = some k := by decide
  rw [appendDigit?, hdigit k hk, Option.map_some]

theorem decimal_ne_nil (n : ℕ) : decimal n ≠ [] :=
  decimal_induction (motive := fun _ s => s ≠ []) (fun _ _ => cons_ne_nil _ _)
    (fun _ _ _ _ _ => by simp) n

theorem foldlM_decimal (n : ℕ) : (decimal n).foldlM (appendDigit? 10) 0 = some n :=
  decimal_induction (motive := fun n s => s.foldlM (appendDigit? 10) 0 = some n)
    (fun k hk => by
      rw [foldlM_cons, appendDigit?_ten 0 hk]
      simp)
    (fun m k _ hk ih => by
      rw [foldlM_append, ih]
      show (List.foldlM (appendDigit? 10) m [_]) = _
      rw [foldlM_cons, appendDigit?_ten m hk]
      rfl) n

@[simp] theorem numeral?_decimal (n : ℕ) : numeral? 10 (decimal n) = some n := by
  rw [numeral?, if_neg (decimal_ne_nil n), foldlM_decimal]

theorem decimal_injective : Function.Injective decimal := fun n m h =>
  Option.some.inj ((numeral?_decimal n).symm.trans ((congrArg _ h).trans (numeral?_decimal m)))

theorem digit_of_mem_decimal {n : ℕ} : ∀ c ∈ decimal n, ∃ k < 10, c = (0x30 + k).toUInt16 :=
  decimal_induction (motive := fun _ s => ∀ c ∈ s, ∃ k < 10, c = (0x30 + k).toUInt16)
    (fun k hk c hc => ⟨k, hk, mem_singleton.mp hc⟩)
    (fun m k _ hk ih c hc => by
      rcases mem_append.mp hc with hc | hc
      · exact ih c hc
      · exact ⟨k, hk, mem_singleton.mp hc⟩) n

theorem trim_eq_self {s : Text} (h : ∀ c ∈ s, isWhiteSpace c = false) : trim s = s := by
  have hdrop : ∀ {s : Text}, (∀ c ∈ s, isWhiteSpace c = false) → s.dropWhile isWhiteSpace = s := by
    intro s h
    cases s with
    | nil => rfl
    | cons c rest => rw [dropWhile_cons, h c mem_cons_self]; rfl
  rw [trim, hdrop h, hdrop fun c hc => h c (mem_reverse.mp hc), reverse_reverse]

theorem notMem_decimal {c : UInt16} (hc : ∀ k < 10, (0x30 + k).toUInt16 ≠ c) (n : ℕ) :
    c ∉ decimal n := fun hmem => by
  obtain ⟨k, hk, rfl⟩ := digit_of_mem_decimal c hmem
  exact hc k hk rfl

/-- A text is taken apart at its last separator. -/
theorem eq_of_last_field {c : UInt16} {a a' field field' : Text} (hfield : c ∉ field)
    (hfield' : c ∉ field') (h : a ++ c :: field = a' ++ c :: field') : a = a' ∧ field = field' := by
  rcases append_eq_append_iff.mp h with ⟨l, rfl, hl⟩ | ⟨l, rfl, hl⟩
  · cases l with
    | nil => exact ⟨(append_nil a).symm, tail_eq_of_cons_eq hl⟩
    | cons d l =>
      rw [tail_eq_of_cons_eq hl] at hfield
      exact absurd (mem_append_right l mem_cons_self) hfield
  · cases l with
    | nil => exact ⟨append_nil a', (tail_eq_of_cons_eq hl).symm⟩
    | cons d l =>
      rw [tail_eq_of_cons_eq hl] at hfield'
      exact absurd (mem_append_right l mem_cons_self) hfield'

@[simp] theorem bigInt?_decimal (n : ℕ) : bigInt? (decimal n) = some (n : ℤ) := by
  have htrim : trim (decimal n) = decimal n := trim_eq_self fun c hc => by
    obtain ⟨k, hk, rfl⟩ := digit_of_mem_decimal c hc
    have hspace : ∀ k < 10, isWhiteSpace (0x30 + k).toUInt16 = false := by decide
    exact hspace k hk
  have hpre : ∀ c, c ∉ decimal n → (decimal n).take 2 ≠ [0x30, c] := fun c hc heq =>
    hc (mem_of_mem_take (heq ▸ mem_cons_of_mem _ mem_cons_self))
  have hsign : ∀ c, c ∉ decimal n → (decimal n).head? ≠ some c := fun c hc heq =>
    hc (mem_of_mem_head? heq)
  have hx := hpre 0x78 (notMem_decimal (by decide) n)
  have hX := hpre 0x58 (notMem_decimal (by decide) n)
  have ho := hpre 0x6F (notMem_decimal (by decide) n)
  have hO := hpre 0x4F (notMem_decimal (by decide) n)
  have hb := hpre 0x62 (notMem_decimal (by decide) n)
  have hB := hpre 0x42 (notMem_decimal (by decide) n)
  have hplus := hsign 0x2B (notMem_decimal (by decide) n)
  have hminus := hsign 0x2D (notMem_decimal (by decide) n)
  have hbase : ∀ p q : Text, (decimal n).take 2 ≠ p → (decimal n).take 2 ≠ q →
      ¬((decimal n).take 2 = p ∨ (decimal n).take 2 = q) := fun _ _ hp hq h => h.elim hp hq
  rw [bigInt?, htrim, if_neg (decimal_ne_nil n), if_neg (hbase (text "0x") (text "0X") hx hX),
    if_neg (hbase (text "0o") (text "0O") ho hO), if_neg (hbase (text "0b") (text "0B") hb hB),
    if_neg hplus, if_neg hminus, numeral?_decimal]
  rfl

end Js
