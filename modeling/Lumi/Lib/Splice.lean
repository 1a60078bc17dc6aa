import Mathlib.Data.List.Basic

/-!
# Parts of a list replaced

One entry of a list, and stretches of it in one pass.
-/

open List

namespace ReplaceAt
/-! ## Replacing one entry of a list

A list of processes, one of which makes a step.  Every entry of the new list is the new one, at its
index, or an old one, at another.
-/

variable {α : Type*} {xs : List α} {i : ℕ} {a b : α}

/-- An entry is the new one at the index, or an old one at another. -/
theorem getElem?_set_cases {j : ℕ} {x : α} (hx : (xs.set i b)[j]? = some x) :
    j = i ∧ x = b ∨ j ≠ i ∧ xs[j]? = some x := by
  rw [getElem?_set] at hx
  split_ifs at hx with hij hlt
  · exact .inl ⟨hij.symm, (Option.some.inj hx).symm⟩
  · exact .inr ⟨fun h => hij h.symm, hx⟩

/-- Where the new entry has a property if the old one had it, some entry still has it. -/
theorem exists_mem_set {P : α → Prop} (ha : xs[i]? = some a) (hP : P a → P b)
    (hex : ∃ x ∈ xs, P x) : ∃ x ∈ xs.set i b, P x := by
  obtain ⟨x, hx, hPx⟩ := hex
  obtain ⟨j, hj⟩ := mem_iff_getElem?.mp hx
  by_cases hij : i = j
  · subst hij
    obtain rfl : a = x := Option.some.inj (ha.symm.trans hj)
    have hlt := (List.getElem?_eq_some_iff.mp ha).1
    exact ⟨b, mem_iff_getElem?.mpr ⟨i, getElem?_set_self hlt⟩, hP hPx⟩
  · exact ⟨x, mem_iff_getElem?.mpr ⟨j, by rw [getElem?_set_ne hij, hj]⟩, hPx⟩

variable {p : α → Bool}

theorem countP_set_add (ha : xs[i]? = some a) :
    (xs.set i b).countP p + (if p a then 1 else 0) = xs.countP p + if p b then 1 else 0 := by
  obtain ⟨hlt, rfl⟩ := List.getElem?_eq_some_iff.mp ha
  have hle : (if p xs[i] = true then 1 else 0) ≤ xs.countP p := by
    split_ifs with hp
    · exact countP_pos_iff.mpr ⟨xs[i], getElem_mem hlt, hp⟩
    · exact Nat.zero_le _
  rw [countP_set hlt]
  omega

/-- An entry is counted as the one that it replaces. -/
theorem countP_set_eq (ha : xs[i]? = some a) (hp : p b = p a) :
    (xs.set i b).countP p = xs.countP p := by
  have hadd := countP_set_add (p := p) (b := b) ha
  rw [hp] at hadd
  exact Nat.add_right_cancel hadd

theorem countP_set_succ (ha : xs[i]? = some a) (hpa : p a = false) (hpb : p b = true) :
    (xs.set i b).countP p = xs.countP p + 1 := by
  have hadd := countP_set_add (p := p) (b := b) ha
  rw [hpa, hpb] at hadd
  exact hadd

end ReplaceAt

/-! ## Edits of a list

An edit deletes a stretch of a list and inserts something in its place.  Edits that are in
order, none reaching into the next, are applied in one pass that copies what lies between
them; `splice` is that pass.  What an edit deletes often has to stand where it is deleted.
-/

/-- At `start`, `deleted` elements give way to the inserted ones. -/
structure Edit (α : Type*) where
  start : ℕ
  deleted : ℕ
  inserted : List α

namespace Edit

variable {α : Type*}

/-- Where the list goes on after the edit. -/
def stop (e : Edit α) : ℕ := e.start + e.deleted

/-- The edits lie in a list of `size` elements, one after the other, from `cursor` on. -/
def InOrder (size : ℕ) : ℕ → List (Edit α) → Prop
  | cursor, [] => cursor ≤ size
  | cursor, e :: rest => cursor ≤ e.start ∧ InOrder size e.stop rest

instance decidableInOrder (size : ℕ) :
    ∀ (cursor : ℕ) (edits : List (Edit α)), Decidable (InOrder size cursor edits)
  | cursor, [] => inferInstanceAs (Decidable (cursor ≤ size))
  | _, e :: rest =>
    have := decidableInOrder size e.stop rest
    inferInstanceAs (Decidable (_ ∧ _))

/-- The list from `cursor` on, with the edits applied. -/
def splice (xs : List α) : ℕ → List (Edit α) → List α
  | cursor, [] => xs.drop cursor
  | cursor, e :: rest =>
    (xs.drop cursor).take (e.start - cursor) ++ e.inserted ++ splice xs e.stop rest

variable {xs : List α} {size cursor : ℕ} {edits : List (Edit α)}

theorem InOrder.cursor_le (h : InOrder size cursor edits) : cursor ≤ size := by
  induction edits generalizing cursor with
  | nil => exact h
  | cons e rest ih => exact Nat.le_trans h.1 (Nat.le_trans (Nat.le_add_right _ _) (ih h.2))

theorem InOrder.mono {cursor' : ℕ} (h : InOrder size cursor' edits) (hle : cursor ≤ cursor') :
    InOrder size cursor edits := by
  cases edits with
  | nil => exact Nat.le_trans hle h
  | cons e rest => exact ⟨Nat.le_trans hle h.1, h.2⟩

theorem InOrder.stop_le (h : InOrder size cursor edits) {e : Edit α} (he : e ∈ edits) :
    e.stop ≤ size := by
  induction edits generalizing cursor with
  | nil => exact absurd he not_mem_nil
  | cons e' rest ih =>
    rcases mem_cons.mp he with rfl | he
    · exact h.2.cursor_le
    · exact ih h.2 he

/-- Edits that do not reach into one another are in order. -/
theorem InOrder.of_pairwise (hsize : cursor ≤ size)
    (hbound : ∀ e ∈ edits, cursor ≤ e.start ∧ e.stop ≤ size)
    (hapart : edits.Pairwise fun a b => a.stop ≤ b.start) : InOrder size cursor edits := by
  induction edits generalizing cursor with
  | nil => exact hsize
  | cons e rest ih =>
    obtain ⟨hfirst, hrest⟩ := pairwise_cons.mp hapart
    obtain ⟨hstart, hstop⟩ := hbound e mem_cons_self
    refine ⟨hstart, ih hstop (fun e' he' => ⟨hfirst e' he', ?_⟩) hrest⟩
    exact (hbound e' (mem_cons_of_mem _ he')).2

/-- What lies before the first edit is copied. -/
theorem splice_copy {cursor' : ℕ} (hle : cursor ≤ cursor') (h : InOrder size cursor' edits) :
    splice xs cursor edits
      = (xs.drop cursor).take (cursor' - cursor) ++ splice xs cursor' edits := by
  have hdrop : xs.drop cursor' = (xs.drop cursor).drop (cursor' - cursor) := by
    rw [drop_drop]
    congr 1
    omega
  cases edits with
  | nil =>
    show xs.drop cursor = _ ++ xs.drop cursor'
    rw [hdrop, take_append_drop]
  | cons e rest =>
    show (xs.drop cursor).take (e.start - cursor) ++ _ ++ _
      = _ ++ ((xs.drop cursor').take (e.start - cursor') ++ _ ++ _)
    have hsum : e.start - cursor = (cursor' - cursor) + (e.start - cursor') := by
      have := h.1
      omega
    rw [hsum, take_add, hdrop, append_assoc, append_assoc, append_assoc]

/-- An edit at the cursor. -/
theorem splice_cons_self (e : Edit α) (rest : List (Edit α)) :
    splice xs e.start (e :: rest) = e.inserted ++ splice xs e.stop rest := by
  rw [splice, Nat.sub_self, take_zero, nil_append]

/-- Edits of a list leave alone what is appended to it. -/
theorem splice_append (h : InOrder xs.length cursor edits) (tail : List α) :
    splice (xs ++ tail) cursor edits = splice xs cursor edits ++ tail := by
  induction edits generalizing cursor with
  | nil => exact drop_append_of_le_length h
  | cons e rest ih =>
    have hstop : e.stop ≤ xs.length := h.2.cursor_le
    have hstart : e.start ≤ e.stop := Nat.le_add_right _ _
    have hle := h.1
    have hcopy : ((xs ++ tail).drop cursor).take (e.start - cursor)
        = (xs.drop cursor).take (e.start - cursor) := by
      rw [drop_append_of_le_length (by omega), take_append_of_le_length]
      rw [length_drop]
      omega
    rw [splice, splice, hcopy, ih h.2, append_assoc, append_assoc, append_assoc]

theorem InOrder.grow {size' : ℕ} (h : InOrder size cursor edits) (hle : size ≤ size') :
    InOrder size' cursor edits := by
  induction edits generalizing cursor with
  | nil => exact Nat.le_trans h hle
  | cons e rest ih => exact ⟨h.1, ih h.2⟩

/-- What an edit inserts is in the result. -/
theorem mem_splice {e : Edit α} (he : e ∈ edits) {x : α} (hx : x ∈ e.inserted) :
    x ∈ splice xs cursor edits := by
  induction edits generalizing cursor with
  | nil => exact absurd he not_mem_nil
  | cons e' rest ih =>
    rw [splice]
    rcases mem_cons.mp he with rfl | he
    · exact mem_append_left _ (mem_append_right _ hx)
    · exact mem_append_right _ (ih he)

/-! A list that is rewritten from the front: `done`, and what follows the cursor. -/

theorem drop_rewritten (done : List α) {place : ℕ} (hle : cursor ≤ place) :
    (done ++ xs.drop cursor).drop (done.length + (place - cursor)) = xs.drop place := by
  rw [drop_length_add_append, drop_drop, Nat.add_sub_cancel' hle]

theorem take_rewritten (done : List α) (place : ℕ) :
    (done ++ xs.drop cursor).take (done.length + (place - cursor))
      = done ++ (xs.drop cursor).take (place - cursor) := take_length_add_append _

/-- One stretch or a later one of the same length gives way to the same elements with the same
result just where these can change places with what lies between. -/
theorem replace_eq_iff {i j n : ℕ} (ys : List α) (hij : i ≤ j) :
    xs.take i ++ ys ++ xs.drop (i + n) = xs.take j ++ ys ++ xs.drop (j + n) ↔
      ys ++ (xs.drop (i + n)).take (j - i) = (xs.drop i).take (j - i) ++ ys := by
  have hbefore : xs.take j = xs.take i ++ (xs.drop i).take (j - i) := by
    rw [← take_add, Nat.add_sub_cancel' hij]
  have hafter : xs.drop (i + n) = (xs.drop (i + n)).take (j - i) ++ xs.drop (j + n) := by
    have hparts := take_append_drop (j - i) (xs.drop (i + n))
    rw [drop_drop, show i + n + (j - i) = j + n by omega] at hparts
    exact hparts.symm
  calc xs.take i ++ ys ++ xs.drop (i + n) = xs.take j ++ ys ++ xs.drop (j + n)
      ↔ xs.take i ++ ys ++ ((xs.drop (i + n)).take (j - i) ++ xs.drop (j + n))
          = xs.take i ++ (xs.drop i).take (j - i) ++ ys ++ xs.drop (j + n) := by
        rw [← hafter, ← hbefore]
    _ ↔ xs.take i ++ ((ys ++ (xs.drop (i + n)).take (j - i)) ++ xs.drop (j + n))
          = xs.take i ++ ((xs.drop i).take (j - i) ++ ys ++ xs.drop (j + n)) := by
        simp only [append_assoc]
    _ ↔ ys ++ (xs.drop (i + n)).take (j - i) = (xs.drop i).take (j - i) ++ ys := by
        rw [append_right_inj, append_left_inj]

end Edit

section

variable {α : Type*}

/-- The elements stand in the list at a position. -/
def StandsAt (xs ys : List α) (position : ℕ) : Prop :=
  (xs.drop position).take ys.length = ys

instance [DecidableEq α] (xs ys : List α) (position : ℕ) :
    Decidable (StandsAt xs ys position) := inferInstanceAs (Decidable (_ = _))

variable {xs ys : List α} {position : ℕ}

theorem StandsAt.le_length (hne : ys ≠ []) (h : StandsAt xs ys position) :
    position + ys.length ≤ xs.length := by
  have hlen := congrArg List.length h
  rw [length_take, length_drop] at hlen
  have hpos := length_pos_of_ne_nil hne
  omega

theorem StandsAt.uncons {y : α} (h : StandsAt xs (y :: ys) position) :
    (xs.drop position).take 1 = [y] ∧ StandsAt xs ys (position + 1) := by
  rw [StandsAt, length_cons, Nat.add_comm, take_add, drop_drop] at h
  cases hdrop : xs.drop position with
  | nil =>
    have hlen := congrArg List.length h
    have hover : xs.length ≤ position := drop_eq_nil_iff.mp hdrop
    rw [hdrop, drop_of_length_le (by omega)] at hlen
    simp at hlen
  | cons x rest =>
    rw [hdrop] at h
    obtain ⟨hx, hrest⟩ := cons_eq_cons.mp h
    exact ⟨congrArg (· :: []) hx, hrest⟩

theorem StandsAt.append (h : StandsAt xs ys position) (hle : position + ys.length ≤ xs.length)
    (tail : List α) : StandsAt (xs ++ tail) ys position := by
  rw [StandsAt, drop_append_of_le_length (by omega), take_append_of_le_length]
  · exact h
  · rw [length_drop]
    omega

end
