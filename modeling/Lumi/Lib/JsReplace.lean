import Mathlib.Data.List.Infix
import Lumi.Lib.JsText

/-!
# Replacing in texts

`replace` and `replaceAll` with a text to look for: the occurrences that they find, none reaching
into the next, give way to the replacement, in which the patterns `$$`, `$&`, `` $` `` and `$'` are
expanded first.  There are no captures, so every other `$` stands for itself.
-/

namespace Js

open List

/-! ## Expansion of the replacement -/

/-- The replacement, with its patterns expanded for one occurrence. -/
def expand (matched before after : Text) : Text → Text
  | [] => []
  | [c] => [c]
  | c :: d :: rest =>
    if c = 0x24 ∧ d = 0x24 then 0x24 :: expand matched before after rest
    else if c = 0x24 ∧ d = 0x26 then matched ++ expand matched before after rest
    else if c = 0x24 ∧ d = 0x60 then before ++ expand matched before after rest
    else if c = 0x24 ∧ d = 0x27 then after ++ expand matched before after rest
    else c :: expand matched before after (d :: rest)

/-! ## Occurrences -/

/-- `s.lastIndexOf(pattern)`. -/
def lastIndexOf (s pattern : Text) : Option ℕ :=
  (List.range (s.length + 1)).reverse.find? fun i => startsWith (s.drop i) pattern

/-- The occurrences from left to right, from the index `i` on; those that begin in the next `skip`
places are passed over. -/
def matchesFrom (pattern : Text) (i skip : ℕ) : Text → List ℕ
  | [] => if skip = 0 ∧ pattern = [] then [i] else []
  | c :: rest =>
    if skip = 0 ∧ startsWith (c :: rest) pattern then
      i :: matchesFrom pattern (i + 1) (max 1 pattern.length - 1) rest
    else matchesFrom pattern (i + 1) (skip - 1) rest

/-- The places that `replaceAll` replaces. -/
def matchPositions (s pattern : Text) : List ℕ := matchesFrom pattern 0 0 s

section

variable (s pattern replacement : Text)

/-- Where an occurrence gives way to the replacement. -/
def replacementAt (place : ℕ) : Edit UInt16 where
  start := place
  deleted := pattern.length
  inserted := expand pattern (s.take place) (s.drop (place + pattern.length)) replacement

/-- `s.replace(pattern, replacement)`. -/
def replaceFirst : Text :=
  Edit.splice s 0 ((indexOf s pattern 0).toList.map (replacementAt s pattern replacement))

/-- `s.replaceAll(pattern, replacement)`. -/
def replaceAll : Text :=
  Edit.splice s 0 ((matchPositions s pattern).map (replacementAt s pattern replacement))

end

/-- The places of a text where a pattern stands, from left to right: each that does not reach into
the one before. -/
structure AreMatches (s pattern : Text) (places : List ℕ) : Prop where
  apart : places.Pairwise fun a b => a + pattern.length ≤ b
  stands : ∀ place ∈ places, StandsAt s pattern place
  leftmost : ∀ i, StandsAt s pattern i → ∃ place ∈ places, place ≤ i ∧ i < place + pattern.length

section

variable {s pattern replacement : Text}

/-- That a pattern stands in one place only can be seen from the places in the text. -/
theorem standsAt_unique (hne : pattern ≠ []) {place : ℕ} (hplace : place ≤ s.length)
    (h : ∀ i < s.length + 1, StandsAt s pattern i ↔ i = place) (i : ℕ) :
    StandsAt s pattern i ↔ i = place := by
  by_cases hi : i < s.length + 1
  · exact h i hi
  · refine ⟨fun hstands => ?_, fun heq => ?_⟩
    · have hbound := hstands.le_length hne
      omega
    · omega

theorem includes_of_standsAt {place : ℕ} (h : StandsAt s pattern place) :
    includes s pattern = true := by
  rw [includes, any_eq_true]
  exact ⟨s.drop place, (mem_tails _ _).mpr (drop_suffix place s),
    startsWith_drop_iff.mpr h⟩

section

variable (hne : pattern ≠ [])
include hne

theorem indexOf_of_unique {place : ℕ} (h : ∀ i, StandsAt s pattern i ↔ i = place) :
    indexOf s pattern 0 = some place := by
  rw [indexOf_eq_some_iff hne]
  refine ⟨Nat.zero_le _, (h place).mpr rfl, fun j _ hlt hstands => ?_⟩
  exact absurd ((h j).mp hstands) (Nat.ne_of_lt hlt)

theorem lastIndexOf_of_unique {place : ℕ} (h : ∀ i, StandsAt s pattern i ↔ i = place) :
    lastIndexOf s pattern = some place := by
  have hstands := (h place).mpr rfl
  have hbound := hstands.le_length hne
  cases hlast : lastIndexOf s pattern with
  | none =>
    have hno := find?_eq_none.mp hlast place
      (mem_reverse.mpr (mem_range.mpr (by omega)))
    exact absurd (startsWith_drop_iff.mpr hstands) hno
  | some i =>
    rw [lastIndexOf] at hlast
    have hi := find?_some hlast
    rw [(h i).mp (startsWith_drop_iff.mp hi)]

/-- The scan finds the places from its index on. -/
theorem matchesFrom_eq {i skip : ℕ} {rest : Text} {places : List ℕ} (hrest : s.drop i = rest)
    (hapart : places.Pairwise fun a b => a + pattern.length ≤ b)
    (hstands : ∀ place ∈ places, i + skip ≤ place ∧ StandsAt s pattern place)
    (hleftmost : ∀ j, i + skip ≤ j → StandsAt s pattern j →
      ∃ place ∈ places, place ≤ j ∧ j < place + pattern.length) :
    matchesFrom pattern i skip rest = places := by
  have hpos := length_pos_of_ne_nil hne
  induction rest generalizing i skip places with
  | nil =>
    have hend : s.length ≤ i := drop_eq_nil_iff.mp hrest
    have hnone : places = [] := eq_nil_iff_forall_not_mem.mpr fun place hplace => by
      obtain ⟨hle, hplace⟩ := hstands place hplace
      have hbound := hplace.le_length hne
      omega
    rw [matchesFrom, if_neg fun h => hne h.2, hnone]
  | cons c rest ih =>
    have hnext : s.drop (i + 1) = rest := by
      rw [← drop_drop, hrest]
      rfl
    have hhere : startsWith (c :: rest) pattern = true ↔ StandsAt s pattern i := by
      rw [← hrest]
      exact startsWith_drop_iff
    by_cases hmatch : skip = 0 ∧ startsWith (c :: rest) pattern = true
    · -- the text stands here, so here is the first of the places
      obtain ⟨rfl, hstart⟩ := hmatch
      obtain ⟨place, hplace, hle, hlt⟩ := hleftmost i (Nat.le_refl _) (hhere.mp hstart)
      have hfirst : ∃ more, places = i :: more := by
        cases places with
        | nil => exact absurd hplace not_mem_nil
        | cons first more =>
          have hge := (hstands first mem_cons_self).1
          have heq : first = i := by
            rcases mem_cons.mp hplace with rfl | hmem
            · omega
            · have hafter := (pairwise_cons.mp hapart).1 place hmem
              omega
          exact ⟨more, by rw [heq]⟩
      obtain ⟨more, rfl⟩ := hfirst
      obtain ⟨hfar, hapart⟩ := pairwise_cons.mp hapart
      rw [matchesFrom, if_pos ⟨rfl, hstart⟩]
      congr 1
      refine ih hnext hapart (fun place hplace => ?_) fun j hj hjstands => ?_
      · have hafter := hfar place hplace
        exact ⟨by omega, (hstands place (mem_cons_of_mem _ hplace)).2⟩
      · obtain ⟨place, hplace, hle, hlt⟩ := hleftmost j (by omega) hjstands
        rcases mem_cons.mp hplace with rfl | hmem
        · omega
        · exact ⟨place, hmem, hle, hlt⟩
    · rw [matchesFrom, if_neg hmatch]
      refine ih hnext hapart (fun place hplace => ?_) fun j hj hjstands =>
        hleftmost j (by omega) hjstands
      obtain ⟨hle, hplaceStands⟩ := hstands place hplace
      refine ⟨?_, hplaceStands⟩
      by_contra hlt
      have hskip : skip = 0 := by omega
      have heq : place = i := by omega
      exact hmatch ⟨hskip, hhere.mpr (heq ▸ hplaceStands)⟩

theorem AreMatches.matchPositions_eq {places : List ℕ} (h : AreMatches s pattern places) :
    matchPositions s pattern = places :=
  matchesFrom_eq hne drop_zero h.apart (fun place hplace => ⟨Nat.zero_le _, h.stands place hplace⟩)
    fun j _ hj => h.leftmost j hj

/-! ## What is replaced -/

theorem replaceFirst_of_unique {place : ℕ} (h : ∀ i, StandsAt s pattern i ↔ i = place) :
    replaceFirst s pattern replacement
      = Edit.splice s 0 [replacementAt s pattern replacement place] := by
  rw [replaceFirst, indexOf_of_unique hne h]
  rfl

theorem AreMatches.replaceAll_eq {places : List ℕ} (h : AreMatches s pattern places) :
    replaceAll s pattern replacement
      = Edit.splice s 0 (places.map (replacementAt s pattern replacement)) := by
  rw [replaceAll, h.matchPositions_eq hne]

end

end

end Js
