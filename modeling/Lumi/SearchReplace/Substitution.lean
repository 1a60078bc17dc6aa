import Mathlib.Data.List.Pairwise
import Lumi.SearchReplace.Agreement

/-!
# Where blocks are found, and what they make

The spots at which the first constructor finds blocks, and its result as a simultaneous
substitution.
-/

open List Option

namespace Lumi.SearchReplace

open Js

/-! ## Where blocks are found by the first constructor

A spot is a block with the line of the file where its SEARCH lines stand; they stand nowhere
else.  The blocks may be given in any order.  One that lies after the place is found at its
spot unless its text begins earlier, in the middle of a line; one that lies before the place
gets to the search of the whole file only if no later lines look like it up to white space.
-/

/-- A block, and the line where its SEARCH lines stand. -/
structure Spot where
  position : ℕ
  block : Block

namespace Spot

def search (s : Spot) : List Text := s.block.search

/-- The block with its REPLACE lines, which are given by the spot's line. -/
def fill (replace : ℕ → List Text) (s : Spot) : Block :=
  { s.block with replace := replace s.position }

/-- Where the SEARCH lines begin in the file. -/
def start (originalContent : Text) (s : Spot) : ℕ :=
  lineOffset (splitLines originalContent) s.position

/-- Where they stop, with a newline after each. -/
def stop (originalContent : Text) (s : Spot) : ℕ :=
  s.start originalContent + (endLines s.search).length

/-- Another line follows, if only an empty one. -/
def Ended (originalContent : Text) (s : Spot) : Prop :=
  s.position + s.search.length < (splitLines originalContent).length

instance (originalContent : Text) (s : Spot) : Decidable (s.Ended originalContent) :=
  inferInstanceAs (Decidable (_ < _))

/-- The one occurrence is before the other. -/
def Before (a b : Spot) : Prop := a.position + a.search.length ≤ b.position

instance : DecidableRel Before := fun a b =>
  inferInstanceAs (Decidable (a.position + a.search.length ≤ b.position))

/-- The occurrences do not overlap. -/
def Apart (a b : Spot) : Prop := a.Before b ∨ b.Before a

instance : DecidableRel Apart := fun a b =>
  inferInstanceAs (Decidable (a.Before b ∨ b.Before a))

instance : Std.Symm Apart := ⟨fun _ _ h => h.symm⟩

end Spot

/-- The SEARCH lines of each block occur once in the file, and no two occurrences overlap. -/
structure AreSpots (originalContent : Text) (spots : List Spot) : Prop where
  wellFormed : ∀ s ∈ spots, { s.block with replace := [] }.WellFormed
  once : ∀ s ∈ spots, ∀ i, StandsAt (textLines originalContent) s.search i ↔ i = s.position
  apart : spots.Pairwise Spot.Apart

/-- The block at the spot is found there, when it is looked for from `last` on. -/
def Spot.InTurn (originalContent : Text) (last : ℕ) (s : Spot) : Prop :=
  if last ≤ s.start originalContent then
    ∀ j, last ≤ j → j < s.start originalContent → ¬ StandsAt originalContent (endLines s.search) j
  else
    (∀ j, j < s.start originalContent ∨ last ≤ j →
      ¬ StandsAt originalContent (endLines s.search) j) ∧
    ∀ i, i + s.search.length ≤ (splitLines originalContent).length →
      last ≤ lineOffset (splitLines originalContent) i →
      ¬ AnchorsAt (splitLines originalContent) s.search i

/-- Every block is found at its spot, in the order in which they are given. -/
def AllInTurn (originalContent : Text) : ℕ → List Spot → Prop
  | _, [] => True
  | last, s :: rest => s.InTurn originalContent last ∧
      AllInTurn originalContent
        (if last ≤ s.start originalContent then s.stop originalContent else last) rest

section

variable {originalContent : Text} {spots : List Spot}

variable {s : Spot}

theorem AreSpots.tail (h : AreSpots originalContent (s :: spots)) :
    AreSpots originalContent spots where
  wellFormed s' hs' := h.wellFormed s' (mem_cons_of_mem _ hs')
  once s' hs' := h.once s' (mem_cons_of_mem _ hs')
  apart := (pairwise_cons.mp h.apart).2

section

variable (h : AreSpots originalContent spots)
include h

section

variable (hs : s ∈ spots)
include hs

theorem AreSpots.search_ne :
    s.search ≠ [] := (h.wellFormed s hs).nonempty

theorem AreSpots.standsAt :
    StandsAt (splitLines originalContent) s.search s.position ∧
      s.position + s.search.length ≤ (textLines originalContent).length := by
  have hstands := (h.once s hs s.position).mpr rfl
  have hbound := hstands.le_length (h.search_ne hs)
  rw [splitLines_eq]
  exact ⟨hstands.append hbound _, hbound⟩

theorem AreSpots.le_length :
    s.position + s.search.length ≤ (splitLines originalContent).length := by
  have hbound := (h.standsAt hs).2
  rw [splitLines_eq, length_append]
  omega

theorem AreSpots.newline_notMem :
    ∀ line ∈ s.search, newline ∉ line := fun line hline =>
  ((h.wellFormed s hs).search line hline).1

theorem AreSpots.stop_eq :
    s.stop originalContent
      = lineOffset (splitLines originalContent) (s.position + s.search.length) := by
  rw [lineOffset_add, (h.standsAt hs).1]
  rfl

/-- What is found before the spot ends before it, and what is found at the spot is the spot. -/
theorem AreSpots.stop_of_found {last : ℕ} {found : ℕ × ℕ}
    (hfind : findInFile originalContent (endLines s.search) last = some found) :
    (found.1 = s.start originalContent → found.2 = s.stop originalContent) ∧
      (found.1 < s.start originalContent → found.2 < s.stop originalContent) := by
  have hlines := textLines_endLines (h.newline_notMem hs)
  have hpos := length_pos_of_ne_nil (h.search_ne hs)
  have hcases : found.2 = found.1 + (endLines s.search).length ∨
      ∃ i, i + s.search.length ≤ (splitLines originalContent).length ∧
        found = (lineOffset (splitLines originalContent) i,
          lineOffset (splitLines originalContent) (i + s.search.length)) := by
    rcases or_eq_some_iff.mp hfind with hmatch | ⟨-, hmatch⟩
    · obtain ⟨-, ⟨-, hstop⟩ | hfound⟩ := findMatch_cases (by rwa [hlines]) hmatch
      · exact .inl hstop
      · rw [hlines] at hfound
        exact .inr hfound
    · obtain ⟨i, -, rfl⟩ := map_eq_some_iff.mp hmatch
      exact .inl rfl
  rcases hcases with hstop | ⟨i, hi, rfl⟩
  · rw [hstop, Spot.stop]
    omega
  · rw [h.stop_eq hs]
    have hbound := h.le_length hs
    have hlt : ∀ j k, j < k → k ≤ (splitLines originalContent).length →
        lineOffset (splitLines originalContent) j < lineOffset (splitLines originalContent) k :=
      fun j k hjk hk => lineOffset_lt hjk hk
    constructor
    · intro heq
      have hposition : i = s.position := by
        rcases Nat.lt_trichotomy i s.position with hbefore | heq' | hafter
        · exact absurd heq (Nat.ne_of_lt (hlt i s.position hbefore (by omega)))
        · exact heq'
        · exact absurd heq (Nat.ne_of_gt (hlt s.position i hafter (by omega)))
      rw [hposition]
    · intro hbefore
      have hposition : i < s.position := by
        by_contra hle
        exact absurd (@lineOffset_mono (splitLines originalContent) _ _ (Nat.le_of_not_lt hle))
          (Nat.not_le.mpr hbefore)
      exact hlt _ _ (by omega) hbound

/-- A block that another line follows is found at its spot just where it is in turn. -/
theorem AreSpots.inTurn_iff (hended : s.Ended originalContent) (last : ℕ) :
    s.InTurn originalContent last ↔ findInFile originalContent (endLines s.search) last
      = some (s.start originalContent, s.stop originalContent) := by
  have hne : endLines s.search ≠ [] := (h.wellFormed s hs).searchContent_ne
  have hlines := textLines_endLines (h.newline_notMem hs)
  have hpos := length_pos_of_ne_nil (h.search_ne hs)
  have hstands : StandsAt originalContent (endLines s.search) (s.start originalContent) :=
    standsAt_endLines (h.standsAt hs).1 hended
  rw [Spot.InTurn]
  split
  · next hle =>
    -- the text is found where it begins first
    cases hexact : indexOf originalContent (endLines s.search) last with
    | none => exact absurd hstands ((indexOf_eq_none_iff hne).mp hexact _ hle)
    | some i =>
      have hfind : findInFile originalContent (endLines s.search) last
          = some (i, i + (endLines s.search).length) := by
        rw [findInFile, findMatch, hexact]
        rfl
      obtain ⟨hi, hstands', hfirst⟩ := (indexOf_eq_some_iff hne).mp hexact
      rw [hfind]
      constructor
      · intro hnone
        have hieq : i = s.start originalContent := by
          rcases Nat.lt_trichotomy i (s.start originalContent) with hlt | heq | hgt
          · exact absurd hstands' (hnone i hi hlt)
          · exact heq
          · exact absurd hstands (hfirst _ hle hgt)
        rw [hieq]
        rfl
      · intro heq j hj hlt
        have hieq : i = s.start originalContent := congrArg Prod.fst (Option.some.inj heq)
        exact hfirst j hj (hieq ▸ hlt)
  · next hbefore =>
    have hfallbacks := @fallbacks_eq_none_iff originalContent _
      (h.search_ne hs) (h.newline_notMem hs) last
    constructor
    · rintro ⟨honce, hanchors⟩
      obtain ⟨htrimmed, hanchor⟩ := hfallbacks.mpr hanchors
      have hexact : indexOf originalContent (endLines s.search) last = none :=
        (indexOf_eq_none_iff hne).mpr fun j hj => honce j (.inr hj)
      have hwhole : indexOf originalContent (endLines s.search) 0
          = some (s.start originalContent) :=
        (indexOf_eq_some_iff hne).mpr
          ⟨Nat.zero_le _, hstands, fun j _ hlt => honce j (.inl hlt)⟩
      rw [findInFile, findMatch, hexact, htrimmed, hanchor, hwhole]
      rfl
    · intro hfind
      rcases or_eq_some_iff.mp hfind with hmatch | ⟨hnone, hwhole⟩
      · have hle := (findMatch_le (by rwa [hlines]) hmatch).1
        exact absurd hle hbefore
      · obtain ⟨hexact, hfall⟩ := or_eq_none_iff.mp hnone
        obtain ⟨htrimmed, hanchor⟩ := or_eq_none_iff.mp hfall
        obtain ⟨i, hi, heq⟩ := map_eq_some_iff.mp hwhole
        have hieq : i = s.start originalContent := congrArg Prod.fst heq
        obtain ⟨-, -, hfirst⟩ := (indexOf_eq_some_iff hne).mp hi
        refine ⟨fun j hj => ?_, hfallbacks.mp ⟨htrimmed, hanchor⟩⟩
        rcases hj with hlt | hle
        · exact hfirst j (Nat.zero_le _) (hieq ▸ hlt)
        · exact (indexOf_eq_none_iff hne).mp (map_eq_none_iff.mp hexact) j hle

end

end

end

namespace Spot

/-! ## Blocks as a simultaneous substitution

The file with every occurrence replaced is what the first constructor makes of the blocks, for
all replacements, just where each block is found at its spot and none lies at an end of the
file without a newline.  Where each is found does not depend on what it is replaced with.  So
replacements that cannot be mistaken for each other, nor for anything in the file, tell from
the result where the blocks were found.
-/

/-- The order of the occurrences. -/
def byPosition (a b : Spot) : Prop := a.position ≤ b.position

instance : DecidableRel byPosition := fun a b =>
  inferInstanceAs (Decidable (a.position ≤ b.position))

instance : Std.Total byPosition := ⟨fun a b => Nat.le_total a.position b.position⟩

instance : IsTrans Spot byPosition := ⟨fun _ _ _ hab hbc => Nat.le_trans hab hbc⟩

/-- The lines as they stand at the spot: the last one is not ended at an end of the file without
a newline. -/
def occurrence (originalContent : Text) (s : Spot) (lines : List Text) : Text :=
  if s.Ended originalContent then endLines lines else joinLines lines

/-- The SEARCH lines give way to the REPLACE lines. -/
def edit (originalContent : Text) (replace : ℕ → List Text) (s : Spot) : Edit UInt16 :=
  ⟨s.start originalContent, (s.occurrence originalContent s.search).length,
    s.occurrence originalContent (replace s.position)⟩

end Spot

/-- The file with every occurrence replaced, and every other character unchanged. -/
def substitute (originalContent : Text) (replace : ℕ → List Text) (spots : List Spot) : Text :=
  Edit.splice originalContent 0
    ((spots.insertionSort Spot.byPosition).map (Spot.edit originalContent replace))

/-- Lines that may stand in a block. -/
def Replaceable (replace : ℕ → List Text) : Prop :=
  ∀ n, ∀ line ∈ replace n, newline ∉ line ∧ Unmarked line

section

variable {originalContent : Text} {spots : List Spot} {replace : ℕ → List Text}

section

variable (h : AreSpots originalContent spots)
include h

theorem AreSpots.fill_wellFormed (hreplace : Replaceable replace) :
    ∀ b ∈ spots.map (Spot.fill replace), b.WellFormed := by
  intro b hb
  obtain ⟨s, hs, rfl⟩ := mem_map.mp hb
  obtain ⟨hblanks, hstart, hmiddle, hfinish, hne, hsearch, -⟩ := h.wellFormed s hs
  exact ⟨hblanks, hstart, hmiddle, hfinish, hne, hsearch, hreplace s.position⟩

theorem AreSpots.sorted : (spots.insertionSort Spot.byPosition).Pairwise Spot.Before := by
  have hperm := perm_insertionSort Spot.byPosition spots
  have hapart := hperm.symm.pairwise h.apart fun hab => hab.symm
  refine ((pairwise_insertionSort Spot.byPosition spots).and hapart).imp_of_mem ?_
  rintro a b - hb ⟨hle, hbefore | hafter⟩
  · exact hbefore
  · have hpos := length_pos_of_ne_nil (h.search_ne (hperm.subset hb))
    have hle : a.position ≤ b.position := hle
    have hafter : b.position + b.search.length ≤ a.position := hafter
    omega

/-- Spots with one position are one spot. -/
theorem AreSpots.eq_of_position {a b : Spot} (ha : a ∈ spots) (hb : b ∈ spots)
    (heq : a.position = b.position) : a = b := by
  by_contra hne
  have hposA := length_pos_of_ne_nil (h.search_ne ha)
  have hposB := length_pos_of_ne_nil (h.search_ne hb)
  rcases h.apart.forall ha hb hne with hbefore | hafter
  · have hbefore : a.position + a.search.length ≤ b.position := hbefore
    omega
  · have hafter : b.position + b.search.length ≤ a.position := hafter
    omega

theorem AreSpots.edit_stop_of_ended {s : Spot} (hs : s ∈ spots) (hended : s.Ended originalContent) :
    (s.edit originalContent replace).stop = s.stop originalContent ∧
      s.start originalContent < s.stop originalContent ∧
      s.stop originalContent ≤ originalContent.length := by
  have hstands := standsAt_endLines (h.standsAt hs).1 hended
  have hne : endLines s.search ≠ [] := (h.wellFormed s hs).searchContent_ne
  refine ⟨?_, Nat.lt_add_of_pos_right (length_pos_of_ne_nil hne), hstands.le_length hne⟩
  show s.start originalContent + (s.occurrence originalContent s.search).length = _
  rw [Spot.occurrence, if_pos hended]
  rfl

theorem AreSpots.edit_stop_of_not_ended {s : Spot} (hs : s ∈ spots)
    (hended : ¬ s.Ended originalContent) :
    s.position + s.search.length = (splitLines originalContent).length ∧
      (s.edit originalContent replace).stop = originalContent.length := by
  have hbound := h.le_length hs
  have hpos := length_pos_of_ne_nil (h.search_ne hs)
  have hlast : s.position + s.search.length = (splitLines originalContent).length := by
    have : ¬ s.position + s.search.length < (splitLines originalContent).length := hended
    omega
  have hlines : (splitLines originalContent).drop s.position = s.search := by
    have hstands := (h.standsAt hs).1
    rwa [StandsAt, take_of_length_le] at hstands
    rw [length_drop]
    omega
  have hlength := @length_joinLines (splitLines originalContent) s.position (by omega)
  rw [joinLines_splitLines, hlines] at hlength
  refine ⟨hlast, ?_⟩
  show s.start originalContent + (s.occurrence originalContent s.search).length = _
  rw [Spot.occurrence, if_neg hended, hlength]
  rfl

/-- The edits of the spots, one after the other, are in order. -/
theorem AreSpots.inOrder :
    Edit.InOrder originalContent.length 0
      ((spots.insertionSort Spot.byPosition).map (Spot.edit originalContent replace)) := by
  have hperm := perm_insertionSort Spot.byPosition spots
  refine Edit.InOrder.of_pairwise (Nat.zero_le _) (fun e he => ⟨Nat.zero_le _, ?_⟩) ?_
  · obtain ⟨s, hs, rfl⟩ := mem_map.mp he
    have hs := hperm.subset hs
    by_cases hended : s.Ended originalContent
    · obtain ⟨hstop, -, hbound⟩ := @AreSpots.edit_stop_of_ended _ _ replace h _ hs hended
      rwa [hstop]
    · exact Nat.le_of_eq (h.edit_stop_of_not_ended hs hended).2
  · refine pairwise_map.mpr (h.sorted.imp_of_mem ?_)
    intro a b ha hb hbefore
    have ha := hperm.subset ha
    have hb := hperm.subset hb
    have hbefore : a.position + a.search.length ≤ b.position := hbefore
    by_cases hended : a.Ended originalContent
    · rw [(h.edit_stop_of_ended ha hended).1, h.stop_eq ha]
      exact lineOffset_mono hbefore
    · have hlast := (@AreSpots.edit_stop_of_not_ended _ _ replace h _ ha hended).1
      have hbound := h.le_length hb
      have hpos := length_pos_of_ne_nil (h.search_ne hb)
      omega

end

end

/-! ### Blocks that are found at their spots -/

/-- What the first constructor stores for a block that is found at its spot. -/
def Spot.replacement (originalContent : Text) (replace : ℕ → List Text) (s : Spot) : Replacement :=
  ⟨s.start originalContent, s.stop originalContent, endLines (replace s.position)⟩

section

variable {originalContent : Text} {spots : List Spot} {replace : ℕ → List Text}

section

variable (h : AreSpots originalContent spots)
include h

theorem AreSpots.locateBlocks_eq (hended : ∀ s ∈ spots, s.Ended originalContent) {last : ℕ}
    (hturn : AllInTurn originalContent last spots) :
    locateBlocks originalContent last (spots.map (Spot.fill replace))
      = some (spots.map (Spot.replacement originalContent replace)) := by
  induction spots generalizing last with
  | nil => rfl
  | cons s rest ih =>
    have hs : s ∈ s :: rest := mem_cons_self
    obtain ⟨hfirst, hturn⟩ := hturn
    have hfind := (h.inTurn_iff hs (hended s hs) last).mp hfirst
    have hplace : placeAfter last (s.start originalContent, s.stop originalContent)
        = if last ≤ s.start originalContent then s.stop originalContent else last := by
      unfold placeAfter
      by_cases hle : last ≤ s.start originalContent
      · rw [if_pos hle, if_neg (Nat.not_lt.mpr hle)]
      · rw [if_neg hle, if_pos (Nat.lt_of_not_le hle)]
    have hrest := ih h.tail (fun s' hs' => hended s' (mem_cons_of_mem _ hs')) hturn
    have hsearch : findInFile originalContent (s.fill replace).searchContent last
        = some (s.start originalContent, s.stop originalContent) := hfind
    rw [map_cons, locateBlocks, hsearch, bind_some, hplace, hrest]
    rfl

/-- Rebuilding is splicing, where the replacements are the edits of spots in order. -/
theorem AreSpots.rebuild_eq {sorted : List Spot}
    (hsub : ∀ s ∈ sorted, s ∈ spots ∧ s.Ended originalContent) {cursor : ℕ}
    (horder : Edit.InOrder originalContent.length cursor
      (sorted.map (Spot.edit originalContent replace))) :
    rebuild originalContent cursor (sorted.map (Spot.replacement originalContent replace))
      = Edit.splice originalContent cursor (sorted.map (Spot.edit originalContent replace)) := by
  induction sorted generalizing cursor with
  | nil => exact slice_to_length horder
  | cons s rest ih =>
    obtain ⟨hs, hended⟩ := hsub s mem_cons_self
    obtain ⟨hle, horder⟩ := horder
    obtain ⟨hstop, hlt, hbound⟩ := @AreSpots.edit_stop_of_ended _ _ replace h _ hs hended
    have hrest := ih (fun s' hs' => hsub s' (mem_cons_of_mem _ hs')) horder
    have hcopy : slice originalContent cursor (s.start originalContent)
        = (originalContent.drop cursor).take (s.start originalContent - cursor) :=
      slice_eq hle (by omega)
    have hinserted : (s.edit originalContent replace).inserted = endLines (replace s.position) :=
      if_pos hended
    rw [hstop] at hrest
    rw [map_cons, map_cons, Edit.splice, hstop, hinserted, ← hrest]
    show slice originalContent cursor (s.start originalContent) ++ _ ++ _ = _
    rw [hcopy]
    rfl

theorem AreSpots.sort_replacements :
    (spots.map (Spot.replacement originalContent replace)).insertionSort Replacement.before
      = (spots.insertionSort Spot.byPosition).map (Spot.replacement originalContent replace) := by
  refine (map_insertionSort _ _ _ _ fun a ha b hb => ?_).symm
  have hboundA := h.le_length ha
  have hposA := length_pos_of_ne_nil (h.search_ne ha)
  constructor
  · intro hle
    exact Int.ofNat_le.mpr (lineOffset_mono hle)
  · intro hle
    have hle : lineOffset (splitLines originalContent) a.position
        ≤ lineOffset (splitLines originalContent) b.position := Int.ofNat_le.mp hle
    by_contra hlt
    exact absurd (lineOffset_lt (Nat.lt_of_not_le hlt) (by omega)) (Nat.not_lt.mpr hle)

/-- Where every block is found at its spot, the file is rebuilt as the substitution. -/
theorem AreSpots.construct_eq (hreplace : Replaceable replace) {trailing : List Text}
    (htrailing : ∀ line ∈ trailing, IsBlank line) (hended : ∀ s ∈ spots, s.Ended originalContent)
    (hturn : AllInTurn originalContent 0 spots) :
    ∃ matchIndices, constructNewFileContent (encodeDiff (spots.map (Spot.fill replace)) trailing)
        originalContent true .v1
      = .ok ⟨substitute originalContent replace spots, matchIndices⟩ := by
  have hperm := perm_insertionSort Spot.byPosition spots
  have hfound := (@constructNewFileContentV1_blocks originalContent _ _
    (h.fill_wellFormed hreplace) htrailing).2 _ (h.locateBlocks_eq hended hturn)
  have hrebuild : rebuild originalContent 0 ((spots.insertionSort Spot.byPosition).map
      (Spot.replacement originalContent replace)) = substitute originalContent replace spots :=
    h.rebuild_eq (fun s hs => ⟨hperm.subset hs, hended s (hperm.subset hs)⟩) h.inOrder
  rw [h.sort_replacements, hrebuild] at hfound
  exact ⟨_, hfound⟩

end

end

end Lumi.SearchReplace
