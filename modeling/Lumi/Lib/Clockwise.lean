import Mathlib.Data.List.DropRight
import Mathlib.Data.List.Rotate
import Mathlib.Data.List.Sort

/-!
# Places on a circle

The elements of a linear order stand on a circle, and one goes round it clockwise from a place: first
past the elements from the place on, then past those before it.  Of any set the element that is met
first is determined by the set alone.  In a sorted list it is found by a binary search.
-/

namespace Clockwise

open List

variable {α : Type*}

/-- The search for the first index at which the test holds, from one at which it holds. -/
def lowerBound (test : ℕ → Bool) : ℕ → ℕ → ℕ → ℕ
  | 0, low, _ => low
  | fuel + 1, low, high =>
    if low < high then
      let mid := (low + high) / 2
      if test mid then lowerBound test fuel low mid else lowerBound test fuel (mid + 1) high
    else low

theorem lowerBound_le {test : ℕ → Bool} {fuel low high : ℕ} (hle : low ≤ high) :
    lowerBound test fuel low high ≤ high := by
  induction fuel generalizing low high with
  | zero => exact hle
  | succ fuel ih =>
    rw [lowerBound]
    split
    · dsimp only
      split
      · exact (ih (show low ≤ (low + high) / 2 by omega)).trans (by omega)
      · exact ih (by omega)
    · exact hle

/-- The search ends at the first index at which the test holds. -/
theorem lowerBound_spec {test : ℕ → Bool} (hmono : ∀ i j, i ≤ j → test i = true → test j = true)
    {fuel low high : ℕ} (hle : low ≤ high) (hfuel : high - low ≤ fuel) (hhigh : test high = true) :
    test (lowerBound test fuel low high) = true ∧
      ∀ i, low ≤ i → i < lowerBound test fuel low high → test i = false := by
  induction fuel generalizing low high with
  | zero =>
    obtain rfl : low = high := by omega
    exact ⟨hhigh, fun i hi hlt => absurd hlt (not_lt.mpr hi)⟩
  | succ fuel ih =>
    rw [lowerBound]
    by_cases hlt : low < high
    · rw [if_pos hlt]
      dsimp only
      by_cases hmid : test ((low + high) / 2) = true
      · rw [if_pos hmid]
        exact ih (show low ≤ (low + high) / 2 by omega) (by omega) hmid
      · rw [if_neg hmid]
        obtain ⟨hfound, hbefore⟩ :=
          ih (show (low + high) / 2 + 1 ≤ high by omega) (by omega) hhigh
        refine ⟨hfound, fun i hi hilt => ?_⟩
        rcases Nat.lt_or_ge ((low + high) / 2) i with hright | hleft
        · exact hbefore i hright hilt
        · -- the test cannot hold before an index at which it fails
          by_contra hi'
          exact hmid (hmono i _ hleft (by simpa using hi'))
    · rw [if_neg hlt]
      obtain rfl : low = high := by omega
      exact ⟨hhigh, fun i hi hilt => absurd hilt (not_lt.mpr hi)⟩

variable [LinearOrder α]

/-- The list, begun with the elements from the place on. -/
def clockwise (place : α) (l : List α) : List α :=
  l.dropWhile (· < place) ++ l.takeWhile (· < place)

/-- From the place on, the first element is met before the second. -/
def Sooner (place x y : α) : Prop := (place ≤ x ∧ y < place) ∨ (x < y ∧ (place ≤ x ∨ y < place))

/-- The element of the set that is met first. -/
structure IsFirst (place : α) (s : Set α) (x : α) : Prop where
  mem : x ∈ s
  sooner : ∀ y ∈ s, y ≠ x → Sooner place x y

variable {place x y : α} {l : List α} {s t : Set α}

theorem Sooner.asymm (h : Sooner place x y) : ¬ Sooner place y x := by
  rcases h with ⟨hx, hy⟩ | ⟨hxy, hside⟩
  · rintro (⟨hy', -⟩ | ⟨-, hside'⟩)
    · exact absurd hy (not_lt.mpr hy')
    · exact hside'.elim (fun hy' => absurd hy (not_lt.mpr hy')) fun hx' => absurd hx' (not_lt.mpr hx)
  · rintro (⟨hy', hx'⟩ | ⟨hyx, -⟩)
    · exact hside.elim (fun hx => absurd hx' (not_lt.mpr hx)) fun hy => absurd hy (not_lt.mpr hy')
    · exact absurd hxy (lt_asymm hyx)

theorem IsFirst.unique (hx : IsFirst place s x) (hy : IsFirst place s y) : x = y := by
  by_contra hne
  exact (hx.sooner y hy.mem (Ne.symm hne)).asymm (hy.sooner x hx.mem hne)

/-- What is met first in a set is met first in every part of it that it belongs to. -/
theorem IsFirst.mono (h : IsFirst place s x) (hsub : t ⊆ s) (hx : x ∈ t) : IsFirst place t x :=
  ⟨hx, fun y hy => h.sooner y (hsub hy)⟩

theorem mem_clockwise : x ∈ clockwise place l ↔ x ∈ l := by
  rw [clockwise, mem_append, or_comm, ← mem_append, takeWhile_append_dropWhile]

theorem perm_clockwise (place : α) (l : List α) : (clockwise place l).Perm l := by
  have hswap : (l.dropWhile (· < place) ++ l.takeWhile (· < place)).Perm
      (l.takeWhile (· < place) ++ l.dropWhile (· < place)) := perm_append_comm
  rwa [takeWhile_append_dropWhile] at hswap

/-- A sorted list is gone through in the order in which its elements are met. -/
theorem pairwise_clockwise (h : l.Pairwise (· < ·)) : (clockwise place l).Pairwise (Sooner place) := by
  have hbefore : ∀ z ∈ l.takeWhile (· < place), z < place :=
    fun z hz => by simpa using mem_takeWhile_imp hz
  have hsplit : (l.takeWhile (· < place) ++ l.dropWhile (· < place)).Pairwise (· < ·) := by
    rwa [takeWhile_append_dropWhile]
  obtain ⟨hfront, hback, -⟩ := pairwise_append.mp hsplit
  have hbehind : ∀ z ∈ l.dropWhile (· < place), place ≤ z := by
    intro z hz
    cases hdrop : l.dropWhile (· < place) with
    | nil => simp [hdrop] at hz
    | cons first rest =>
      have hnot := head?_dropWhile_not (· < place) l
      rw [hdrop] at hnot hz hback
      have hfirst : place ≤ first := by simpa using hnot
      rcases mem_cons.mp hz with rfl | hz
      · exact hfirst
      · exact hfirst.trans (rel_of_pairwise_cons hback hz).le
  refine pairwise_append.mpr ⟨?_, ?_, ?_⟩
  · exact hback.imp_of_mem fun hx _ hxy => .inr ⟨hxy, .inl (hbehind _ hx)⟩
  · exact hfront.imp_of_mem fun _ hy hxy => .inr ⟨hxy, .inr (hbefore _ hy)⟩
  · exact fun x hx y hy => .inl ⟨hbehind x hx, hbefore y hy⟩

theorem head?_clockwise_iff (h : l.Pairwise (· < ·)) :
    (clockwise place l).head? = some x ↔ IsFirst place {y | y ∈ l} x := by
  have hfirst : ∀ z, (clockwise place l).head? = some z → IsFirst place {y | y ∈ l} z := by
    intro z hz
    obtain ⟨rest, hrest⟩ := head?_eq_some_iff.mp hz
    have hpairs : (clockwise place l).Pairwise (Sooner place) := pairwise_clockwise h
    rw [hrest, pairwise_cons] at hpairs
    refine ⟨mem_clockwise.mp (hrest ▸ mem_cons_self), fun y hy hne => ?_⟩
    have hy' : y ∈ clockwise place l := mem_clockwise.mpr hy
    rw [hrest] at hy'
    exact hpairs.1 y ((mem_cons.mp hy').resolve_left hne)
  refine ⟨hfirst x, fun hx => ?_⟩
  have hne : clockwise place l ≠ [] := ne_nil_of_mem (mem_clockwise.mpr hx.mem)
  obtain ⟨z, rest, hrest⟩ := exists_cons_of_ne_nil hne
  have hz : (clockwise place l).head? = some z := by rw [hrest]; rfl
  rw [hz, (hfirst z hz).unique hx]

/-! ## Where to begin in a sorted list -/

/-- The index from which the list is gone through: that of the first element from the place on, or
the beginning if there is none. -/
def startIndex (place : α) (l : List α) : ℕ :=
  match l.getLast? with
  | none => 0
  | some last =>
    if last < place then 0
    else lowerBound (fun i => l[i]?.all (place ≤ ·)) l.length 0 (l.length - 1)

omit [LinearOrder α] in
theorem takeWhile_of_index {p : α → Bool} {i : ℕ} (hbefore : ∀ j < i, ∀ y, l[j]? = some y → p y = true)
    (hat : ∃ y, l[i]? = some y ∧ p y = false) :
    l.takeWhile p = l.take i ∧ l.dropWhile p = l.drop i := by
  obtain ⟨y, hy, hp⟩ := hat
  obtain ⟨hi, rfl⟩ := List.getElem?_eq_some_iff.mp hy
  have hfront : ∀ z ∈ l.take i, p z = true := by
    intro z hz
    obtain ⟨j, hj, rfl⟩ := getElem_of_mem hz
    rw [length_take] at hj
    rw [getElem_take]
    exact hbefore j (by omega) _ (getElem?_eq_getElem (by omega))
  have hback : l.drop i = l[i] :: l.drop (i + 1) := drop_eq_getElem_cons hi
  have hsplit := take_append_drop i l
  constructor
  · calc l.takeWhile p = (l.take i ++ l.drop i).takeWhile p := by rw [hsplit]
      _ = l.take i := by
        rw [takeWhile_append_of_pos hfront, hback, takeWhile_cons_of_neg (by simp [hp]),
          append_nil]
  · calc l.dropWhile p = (l.take i ++ l.drop i).dropWhile p := by rw [hsplit]
      _ = l.drop i := by
        rw [dropWhile_append_of_pos hfront, hback, dropWhile_cons_of_neg (by simp [hp])]

/-- From that index on, and round, the list is gone through clockwise. -/
theorem rotate_startIndex (h : l.Pairwise (· < ·)) :
    l.drop (startIndex place l) ++ l.take (startIndex place l) = clockwise place l := by
  have hsorted := pairwise_iff_getElem.mp h
  rw [startIndex]
  split
  · next hnone =>
    rw [getLast?_eq_none_iff.mp hnone]
    rfl
  · next last hlast =>
    obtain ⟨front, rfl⟩ := getLast?_eq_some_iff.mp hlast
    split
    · next hlt =>
      have hall : ∀ y ∈ front ++ [last], decide (y < place) = true := by
        intro y hy
        rw [decide_eq_true_eq]
        rcases mem_append.mp hy with hy | hy
        · exact ((pairwise_append.mp h).2.2 y hy last mem_cons_self).trans hlt
        · rwa [mem_singleton.mp hy]
      rw [clockwise, dropWhile_eq_nil_iff.mpr hall, takeWhile_eq_self_iff.mpr hall,
        drop_zero, take_zero, append_nil, nil_append]
    · next hge =>
      set l := front ++ [last] with hl
      have hlength : l.length = front.length + 1 := by
        rw [hl, length_append, length_singleton]
      set test : ℕ → Bool := fun i => l[i]?.all (place ≤ ·) with htest
      have hmono : ∀ i j, i ≤ j → test i = true → test j = true := by
        intro i j hij hi
        simp only [htest] at hi ⊢
        rcases Nat.lt_or_ge j l.length with hj | hj
        · rw [getElem?_eq_getElem (by omega), Option.all_some, decide_eq_true_eq] at hi
          rw [getElem?_eq_getElem hj, Option.all_some, decide_eq_true_eq]
          rcases Nat.lt_or_eq_of_le hij with hlt | rfl
          · exact hi.trans (hsorted i j (by omega) hj hlt).le
          · exact hi
        · rw [getElem?_eq_none hj]
          rfl
      have hend : test (l.length - 1) = true := by
        simp only [htest]
        rw [← getLast?_eq_getElem?, hlast, Option.all_some, decide_eq_true_eq]
        exact not_lt.mp hge
      obtain ⟨hfound, hbefore⟩ :=
        lowerBound_spec hmono (Nat.zero_le (l.length - 1)) (show _ ≤ l.length by omega) hend
      have hbelow := @lowerBound_le test l.length 0 (l.length - 1) (Nat.zero_le _)
      set i := lowerBound test l.length 0 (l.length - 1)
      have hi : i < l.length := by omega
      obtain ⟨htake, hdrop⟩ := takeWhile_of_index (p := (· < place)) (l := l) (i := i)
        (fun j hj y hy => by simpa [htest, hy] using hbefore j (Nat.zero_le j) hj)
        ⟨l[i], getElem?_eq_getElem hi, by
          simpa [htest, getElem?_eq_getElem hi] using hfound⟩
      rw [clockwise, htake, hdrop]

theorem startIndex_lt (hne : l ≠ []) : startIndex place l < l.length := by
  have hpos := length_pos_of_ne_nil hne
  rw [startIndex]
  split
  · exact hpos
  · split
    · exact hpos
    · exact (lowerBound_le (Nat.zero_le _)).trans_lt (by omega)

omit [LinearOrder α] in
/-- A walk over all indices from one on, round the end. -/
theorem filterMap_getElem?_add {start : ℕ} (h : start ≤ l.length) :
    ((List.range l.length).filterMap fun i => l[(start + i) % l.length]?) =
      l.drop start ++ l.take start := by
  have hsome : (List.range l.length).map (fun i => l[(start + i) % l.length]?) =
      (l.rotate start).map some := by
    refine ext_getElem (by simp) fun i hi hi' => ?_
    rw [length_map, length_range] at hi
    have hmod := Nat.mod_lt (start + i) (Nat.zero_lt_of_lt hi)
    rw [getElem_map, getElem_map, getElem_range, getElem_rotate,
      getElem?_eq_getElem hmod]
    simp only [Nat.add_comm]
  calc ((List.range l.length).filterMap fun i => l[(start + i) % l.length]?)
      = ((List.range l.length).map fun i => l[(start + i) % l.length]?).filterMap id := by
        rw [filterMap_map]
        rfl
    _ = l.rotate start := by
        rw [hsome, filterMap_map]
        exact filterMap_some
    _ = l.drop start ++ l.take start := rotate_eq_drop_append_take h

end Clockwise
