import Lumi.SearchReplace.Substitution

/-!
# Replacements that tell where they are

Every spot gets an empty line and a line that is longer than the file, and of a length of its
own.  From a text that is pieced together of these and of stretches of the file, the stretches
and the spots between them can be read off, and the lengths of the stretches say where each
block was found.
-/

namespace Lumi.SearchReplace

open Js List

/-- A line that is longer than the file, one for each spot. -/
def longLine (originalContent : Text) (n : ℕ) : Text :=
  List.replicate (originalContent.length + 1 + n) 0x78

def longReplace (originalContent : Text) (n : ℕ) : List Text := [[], longLine originalContent n]

section

variable (originalContent : Text)

theorem newline_notMem_longLine (n : ℕ) : newline ∉ longLine originalContent n := fun hmem =>
  absurd (eq_of_mem_replicate hmem) (by decide)

theorem replaceable_longReplace : Replaceable (longReplace originalContent) := by
  intro n line hline
  rcases mem_cons.mp hline with rfl | hline
  · exact ⟨not_mem_nil, by decide⟩
  · rw [mem_singleton.mp hline]
    refine ⟨newline_notMem_longLine originalContent n, unmarked_of_head fun c hc => ?_⟩
    rw [eq_of_mem_replicate (mem_of_mem_head? hc)]
    decide

theorem endLines_longReplace (n : ℕ) : endLines (longReplace originalContent n)
    = newline :: longLine originalContent n ++ [newline] := by
  simp [endLines, longReplace]

theorem length_endLines_longReplace (n : ℕ) :
    (endLines (longReplace originalContent n)).length = originalContent.length + 1 + n + 2 := by
  rw [endLines_longReplace, length_append, length_cons, longLine, length_replicate]
  rfl

theorem joinLines_longReplace (n : ℕ) : joinLines (longReplace originalContent n)
    = newline :: longLine originalContent n := by
  have hjoin := joinLines_append [[]] (cons_ne_nil (longLine originalContent n) [])
  rw [singleton_append] at hjoin
  refine hjoin.trans ?_
  rw [joinLines, joinWith, intercalate_singleton]
  rfl

/-- The lines of a stretch of the file, a replacement, and what follows. -/
theorem splitLines_longReplace (gap rest : Text) (n : ℕ) :
    splitLines (gap ++ endLines (longReplace originalContent n) ++ rest)
      = splitLines gap ++ longLine originalContent n :: splitLines rest := by
  have htext : gap ++ endLines (longReplace originalContent n) ++ rest
      = gap ++ newline :: (longLine originalContent n ++ newline :: rest) := by
    rw [endLines_longReplace]
    simp
  have hline : splitLines (longLine originalContent n) = [longLine originalContent n] :=
    splitOn_eq_singleton (newline_notMem_longLine originalContent n)
  have hafter : splitLines (longLine originalContent n ++ newline :: rest)
      = splitLines (longLine originalContent n) ++ splitLines rest :=
    splitOn_append_cons_self _ _
  have hbefore : splitLines (gap ++ newline :: (longLine originalContent n ++ newline :: rest))
      = splitLines gap ++ splitLines (longLine originalContent n ++ newline :: rest) :=
    splitOn_append_cons_self _ _
  rw [htext, hbefore, hafter, hline, singleton_append]

end

/-- Two lists that are split at their first elements with a property. -/
theorem append_cons_inj_of_first {α : Type*} {P : α → Prop} {xs ys xs' ys' : List α} {a b : α}
    (hxs : ∀ x ∈ xs, ¬ P x) (hys : ∀ y ∈ ys, ¬ P y) (ha : P a) (hb : P b)
    (h : xs ++ a :: xs' = ys ++ b :: ys') : xs = ys ∧ a = b ∧ xs' = ys' := by
  induction xs generalizing ys with
  | nil =>
    cases ys with
    | nil => exact ⟨rfl, cons_eq_cons.mp h⟩
    | cons y ys => exact absurd ((cons_eq_cons.mp h).1 ▸ ha) (hys y mem_cons_self)
  | cons x xs ih =>
    cases ys with
    | nil => exact absurd ((cons_eq_cons.mp h).1 ▸ hb) (hxs x mem_cons_self)
    | cons y ys =>
      obtain ⟨rfl, htail⟩ := cons_eq_cons.mp h
      obtain ⟨rfl, hrest⟩ := ih (fun z hz => hxs z (mem_cons_of_mem _ hz))
        (fun z hz => hys z (mem_cons_of_mem _ hz)) htail
      exact ⟨rfl, hrest⟩

/-- Stretches of the file and the replacements between them are read off a text. -/
theorem gap_inj {originalContent gap gap' rest rest' : Text} {n n' : ℕ}
    (hgap : gap.length ≤ originalContent.length) (hgap' : gap'.length ≤ originalContent.length)
    (h : gap ++ endLines (longReplace originalContent n) ++ rest
      = gap' ++ endLines (longReplace originalContent n') ++ rest') :
    gap = gap' ∧ n = n' ∧ rest = rest' := by
  have hshort : ∀ {s : Text}, s.length ≤ originalContent.length →
      ∀ line ∈ splitLines s, ¬ originalContent.length < line.length := by
    intro s hs line hline
    have hle := length_le_of_mem_splitLines hline
    omega
  have hlong : ∀ n, originalContent.length < (longLine originalContent n).length := by
    intro n
    rw [longLine, length_replicate]
    omega
  have hlines := congrArg splitLines h
  rw [splitLines_longReplace, splitLines_longReplace] at hlines
  obtain ⟨hfirst, hline, hlast⟩ := append_cons_inj_of_first
    (P := fun line : Text => originalContent.length < line.length) (hshort hgap) (hshort hgap')
    (hlong n) (hlong n') hlines
  refine ⟨?_, ?_, ?_⟩
  · rw [← joinLines_splitLines gap, hfirst, joinLines_splitLines]
  · have hlength := congrArg List.length hline
    rw [longLine, longLine, length_replicate, length_replicate] at hlength
    omega
  · rw [← joinLines_splitLines rest, hlast, joinLines_splitLines]

section

variable {originalContent : Text} {spots : List Spot}

/-- The replacement is what the constructor stored for the block at the spot. -/
def Fills (originalContent : Text) (s : Spot) (r : Replacement) : Prop :=
  ∃ found : ℕ × ℕ, r = ⟨found.1, found.2, endLines (longReplace originalContent s.position)⟩ ∧
    (found.1 = s.start originalContent → found.2 = s.stop originalContent) ∧
    (found.1 < s.start originalContent → found.2 < s.stop originalContent)

variable {replacements : List Replacement}

theorem AreSpots.fills (h : AreSpots originalContent spots) {last : ℕ}
    (hlocate : locateBlocks originalContent last
      (spots.map (Spot.fill (longReplace originalContent))) = some replacements) :
    ∀ r ∈ replacements, ∃ s ∈ spots, Fills originalContent s r := by
  induction spots generalizing last replacements with
  | nil =>
    obtain rfl := Option.some.inj hlocate
    exact fun r hr => absurd hr not_mem_nil
  | cons s rest ih =>
    obtain ⟨found, hfind, hrest⟩ := Option.bind_eq_some_iff.mp hlocate
    obtain ⟨others, hothers, rfl⟩ := Option.map_eq_some_iff.mp hrest
    intro r hr
    rcases mem_cons.mp hr with rfl | hr
    · exact ⟨s, mem_cons_self, found, rfl, h.stop_of_found mem_cons_self hfind⟩
    · obtain ⟨s', hs', hfills⟩ := ih h.tail hothers r hr
      exact ⟨s', mem_cons_of_mem _ hs', hfills⟩

/-- After the last replacement comes a stretch of the file. -/
theorem rebuild_tail (hne : replacements ≠ [])
    (hfills : ∀ r ∈ replacements, ∃ s ∈ spots, Fills originalContent s r) (currentPos : ℤ) :
    ∃ front tail, rebuild originalContent currentPos replacements = front ++ newline :: tail ∧
      tail.length ≤ originalContent.length := by
  induction replacements generalizing currentPos with
  | nil => exact absurd rfl hne
  | cons r rest ih =>
    rw [rebuild]
    by_cases hrest : rest = []
    · obtain ⟨s, -, found, rfl, -⟩ := hfills r mem_cons_self
      rw [hrest, endLines_longReplace]
      refine ⟨slice originalContent currentPos found.1 ++
        newline :: longLine originalContent s.position,
        slice originalContent found.2 originalContent.length, ?_, length_slice_le _ _ _⟩
      simp [rebuild]
    · obtain ⟨front, tail, heq, hlength⟩ := ih hrest
        (fun r' hr' => hfills r' (mem_cons_of_mem _ hr')) r.stop
      exact ⟨slice originalContent currentPos r.start ++ r.content ++ front, tail,
        by rw [heq, append_assoc _ front], hlength⟩

/-- At an end of the file without a newline, the substitution has none either. -/
theorem AreSpots.splice_tail (h : AreSpots originalContent spots) {sorted : List Spot}
    (hsub : ∀ s ∈ sorted, s ∈ spots) (hsorted : sorted.Pairwise Spot.Before) {s : Spot}
    (hs : s ∈ sorted) (hended : ¬ s.Ended originalContent) (cursor : ℕ) :
    ∃ front, Edit.splice originalContent cursor
      (sorted.map (Spot.edit originalContent (longReplace originalContent)))
        = front ++ newline :: longLine originalContent s.position := by
  induction sorted generalizing cursor with
  | nil => exact absurd hs not_mem_nil
  | cons s' rest ih =>
    obtain ⟨hfirst, hsorted⟩ := pairwise_cons.mp hsorted
    rw [map_cons, Edit.splice]
    rcases mem_cons.mp hs with rfl | hs
    · obtain ⟨hlast, hstop⟩ := @AreSpots.edit_stop_of_not_ended _ _
        (longReplace originalContent) h _ (hsub s hs) hended
      have hrest : rest = [] := by
        by_contra hne
        obtain ⟨z, others, rfl⟩ := exists_cons_of_ne_nil hne
        have hz : z ∈ spots := hsub z (by simp)
        have hbefore : s.position + s.search.length ≤ z.position := hfirst z mem_cons_self
        have hbound := h.le_length hz
        have hpos := length_pos_of_ne_nil (h.search_ne hz)
        omega
      have hinserted : (s.edit originalContent (longReplace originalContent)).inserted
          = newline :: longLine originalContent s.position :=
        (if_neg hended).trans (joinLines_longReplace originalContent s.position)
      rw [hrest, hinserted, hstop, map_nil, Edit.splice, drop_length, append_nil]
      exact ⟨_, rfl⟩
    · obtain ⟨front, heq⟩ := ih (fun z hz => hsub z (mem_cons_of_mem _ hz)) hsorted hs
        (s'.edit originalContent (longReplace originalContent)).stop
      rw [heq, ← append_assoc]
      exact ⟨_, rfl⟩

/-- What follows the last newline of a text. -/
theorem length_le_of_append_newline {front front' tail line : Text} (hline : newline ∉ line)
    (h : front ++ newline :: tail = front' ++ newline :: line) : line.length ≤ tail.length := by
  rcases append_eq_append_iff.mp h with ⟨between, -, htail⟩ | ⟨between, -, hline'⟩
  · have hlength := congrArg List.length htail
    rw [length_append, length_cons, length_cons] at hlength
    omega
  · cases between with
    | nil => exact Nat.le_of_eq (congrArg List.length (cons_eq_cons.mp hline').2)
    | cons c between =>
      have hmem : newline ∈ line := by
        rw [(cons_eq_cons.mp hline').2]
        exact mem_append_right _ mem_cons_self
      exact absurd hmem hline

/-- The lengths of the stretches say where the blocks were found. -/
theorem AreSpots.starts_of_rebuild_eq (h : AreSpots originalContent spots)
    (hended : ∀ s ∈ spots, s.Ended originalContent) {sorted : List Spot}
    (hfills : ∀ r ∈ replacements, ∃ s ∈ spots, Fills originalContent s r)
    (hsub : ∀ s ∈ sorted, s ∈ spots) (hlength : replacements.length = sorted.length)
    {cursor cursor' : ℕ} (hle : cursor ≤ cursor')
    (horder : Edit.InOrder originalContent.length cursor'
      (sorted.map (Spot.edit originalContent (longReplace originalContent))))
    (heq : rebuild originalContent cursor replacements = Edit.splice originalContent cursor'
      (sorted.map (Spot.edit originalContent (longReplace originalContent)))) :
    cursor = cursor' ∧ ∀ r ∈ replacements, ∃ s ∈ spots, Fills originalContent s r ∧
      r.start = s.start originalContent := by
  induction replacements generalizing sorted cursor cursor' with
  | nil =>
    obtain rfl : sorted = [] := length_eq_zero_iff.mp hlength.symm
    have hcursor : cursor' ≤ originalContent.length := horder
    have hdrop : originalContent.drop cursor = originalContent.drop cursor' :=
      (slice_to_length (hle.trans hcursor)).symm.trans heq
    have hlengths := congrArg List.length hdrop
    rw [length_drop, length_drop] at hlengths
    exact ⟨by omega, fun r hr => absurd hr not_mem_nil⟩
  | cons r rest ih =>
    cases sorted with
    | nil => exact absurd hlength (Nat.succ_ne_zero _)
    | cons y others =>
      obtain ⟨s, hs, found, rfl, hstop, hbefore⟩ := hfills r mem_cons_self
      have hy := hsub y mem_cons_self
      obtain ⟨hcursor, horder⟩ := horder
      obtain ⟨hedit, hlt, hbound⟩ := @AreSpots.edit_stop_of_ended _ _
        (longReplace originalContent) h _ hy (hended y hy)
      have hinserted : (y.edit originalContent (longReplace originalContent)).inserted
          = endLines (longReplace originalContent y.position) := if_pos (hended y hy)
      have hstart : (y.edit originalContent (longReplace originalContent)).start
          = y.start originalContent := rfl
      rw [hstart] at hcursor
      rw [rebuild, map_cons, Edit.splice, hinserted, hedit, hstart] at heq
      obtain ⟨hgap, hposition, hrest⟩ := gap_inj (length_slice_le _ _ _)
        (by rw [length_take, length_drop]; omega) heq
      obtain rfl := h.eq_of_position hs hy hposition
      -- the stretches before the block are of one length
      have hlengths := congrArg List.length hgap
      rw [length_slice (by omega), length_take, length_drop] at hlengths
      have hstarts : found.1 ≤ s.start originalContent := by omega
      have hstops : found.2 ≤ s.stop originalContent := by
        rcases Nat.lt_or_eq_of_le hstarts with hlt' | heq'
        · exact Nat.le_of_lt (hbefore hlt')
        · exact Nat.le_of_eq (hstop heq')
      rw [hedit] at horder
      obtain ⟨hsame, hall⟩ := ih (fun r' hr' => hfills r' (mem_cons_of_mem _ hr'))
        (fun z hz => hsub z (mem_cons_of_mem _ hz)) (Nat.succ.inj hlength) hstops horder
        hrest
      have hfound : found.1 = s.start originalContent := by
        rcases Nat.lt_or_eq_of_le hstarts with hlt' | heq'
        · exact absurd hsame (Nat.ne_of_lt (hbefore hlt'))
        · exact heq'
      refine ⟨by omega, fun r' hr' => ?_⟩
      rcases mem_cons.mp hr' with rfl | hr'
      · exact ⟨s, hs, ⟨found, rfl, hstop, hbefore⟩, congrArg Int.ofNat hfound⟩
      · exact hall r' hr'

/-- Where every replacement starts at a spot, the blocks were found in turn. -/
theorem AreSpots.allInTurn (h : AreSpots originalContent spots)
    (hended : ∀ s ∈ spots, s.Ended originalContent) {given : List Spot}
    (hgiven : ∀ s ∈ given, s ∈ spots) {last : ℕ}
    (hlocate : locateBlocks originalContent last
      (given.map (Spot.fill (longReplace originalContent))) = some replacements)
    (hstarts : ∀ r ∈ replacements, ∃ s ∈ spots, Fills originalContent s r ∧
      r.start = s.start originalContent) : AllInTurn originalContent last given := by
  induction given generalizing last replacements with
  | nil => trivial
  | cons s rest ih =>
    have hs := hgiven s mem_cons_self
    obtain ⟨found, hfind, hrest⟩ := Option.bind_eq_some_iff.mp hlocate
    obtain ⟨others, hothers, rfl⟩ := Option.map_eq_some_iff.mp hrest
    obtain ⟨s', hs', ⟨found', heq, -⟩, hstart⟩ := hstarts _ mem_cons_self
    have hcontent : endLines (longReplace originalContent s.position)
        = endLines (longReplace originalContent s'.position) := congrArg Replacement.content heq
    have hposition : s.position = s'.position := by
      have hlengths := congrArg List.length hcontent
      rw [length_endLines_longReplace, length_endLines_longReplace] at hlengths
      omega
    obtain rfl := h.eq_of_position hs hs' hposition
    have hfirst : found.1 = s.start originalContent := Int.ofNat_inj.mp hstart
    have hfound : found = (s.start originalContent, s.stop originalContent) :=
      Prod.ext hfirst ((h.stop_of_found hs hfind).1 hfirst)
    rw [hfound] at hfind hothers
    have hplace : (if last ≤ s.start originalContent then s.stop originalContent else last)
        = placeAfter last (s.start originalContent, s.stop originalContent) := by
      unfold placeAfter
      by_cases hle : last ≤ s.start originalContent
      · rw [if_pos hle, if_neg (Nat.not_lt.mpr hle)]
      · rw [if_neg hle, if_pos (Nat.lt_of_not_le hle)]
    refine ⟨(h.inTurn_iff hs (hended s hs) last).mpr hfind, ?_⟩
    rw [hplace]
    exact ih (fun z hz => hgiven z (mem_cons_of_mem _ hz)) hothers
      fun r hr => hstarts r (mem_cons_of_mem _ hr)

/-- For all replacements the file is the substitution, just where no block lies at an end of the
file without a newline, and every block is found in turn. -/
theorem substitutes_iff (h : AreSpots originalContent spots) {trailing : List Text}
    (htrailing : ∀ line ∈ trailing, IsBlank line) :
    (∀ replace, Replaceable replace →
      ∃ matchIndices, constructNewFileContent (encodeDiff (spots.map (Spot.fill replace)) trailing)
          originalContent true .v1
        = .ok ⟨substitute originalContent replace spots, matchIndices⟩) ↔
      (∀ s ∈ spots, s.Ended originalContent) ∧ AllInTurn originalContent 0 spots := by
  constructor
  · intro hall
    have hperm := perm_insertionSort Spot.byPosition spots
    have hreplace := replaceable_longReplace originalContent
    obtain ⟨hmissing, hfound⟩ := @constructNewFileContentV1_blocks
      originalContent _ _ (h.fill_wellFormed hreplace) htrailing
    obtain ⟨matchIndices, hresult⟩ := hall _ hreplace
    cases hlocate : locateBlocks originalContent 0
        (spots.map (Spot.fill (longReplace originalContent))) with
    | none =>
      obtain ⟨error, herror⟩ := hmissing hlocate
      exact absurd (herror.symm.trans hresult) (by simp)
    | some replacements =>
      have hrebuild : rebuild originalContent 0
          (replacements.insertionSort Replacement.before)
            = substitute originalContent (longReplace originalContent) spots :=
        congrArg NewFile.newContent
          (Except.ok.inj ((hfound replacements hlocate).symm.trans hresult))
      have hfills : ∀ r ∈ replacements.insertionSort Replacement.before,
          ∃ s ∈ spots, Fills originalContent s r := fun r hr =>
        h.fills hlocate r ((mem_insertionSort _).mp hr)
      have hended : ∀ s ∈ spots, s.Ended originalContent := by
        intro s hs
        by_contra hopen
        have hmem : s ∈ spots.insertionSort Spot.byPosition := hperm.symm.subset hs
        have hne : replacements.insertionSort Replacement.before ≠ [] := by
          have hlength := locateBlocks_length hlocate
          rw [← length_pos_iff_ne_nil, length_insertionSort, hlength, length_map]
          exact length_pos_of_mem hs
        obtain ⟨front, tail, hactual, hlength⟩ := rebuild_tail hne hfills 0
        obtain ⟨front', hexpected⟩ := h.splice_tail (fun z hz => hperm.subset hz) h.sorted hmem
          hopen 0
        have hle := length_le_of_append_newline
          (newline_notMem_longLine originalContent s.position)
          (hactual.symm.trans (hrebuild.trans hexpected))
        rw [longLine, length_replicate] at hle
        omega
      refine ⟨hended, h.allInTurn hended (fun s hs => hs) hlocate fun r hr => ?_⟩
      have hlength : (replacements.insertionSort Replacement.before).length
          = (spots.insertionSort Spot.byPosition).length := by
        rw [length_insertionSort, length_insertionSort, locateBlocks_length hlocate,
          length_map]
      obtain ⟨-, hstarts⟩ := h.starts_of_rebuild_eq hended hfills (fun z hz => hperm.subset hz)
        hlength (Nat.le_refl 0) h.inOrder hrebuild
      exact hstarts r ((mem_insertionSort _).mpr hr)
  · rintro ⟨hended, hturn⟩ replace hreplace
    exact h.construct_eq hreplace htrailing hended hturn

end

section

/-- A block with plain markers. -/
def plainBlock (search : List Text) : Block :=
  ⟨[], searchBlockStart, search, searchBlockEnd, [], replaceBlockEnd⟩

/-- The second line and then the first. -/
def swappedSpots : List Spot := [⟨1, plainBlock [text "b"]⟩, ⟨0, plainBlock [text "a"]⟩]

theorem standsAt_singleton_iff {lines : List Text} {line : Text} {i : ℕ} :
    StandsAt lines [line] i ↔ lines[i]? = some line := by
  rw [StandsAt, length_singleton]
  constructor
  · intro h
    have hfirst := congrArg (·[0]?) h
    simpa using hfirst
  · intro h
    obtain ⟨hi, rfl⟩ := List.getElem?_eq_some_iff.mp h
    rw [take_one_drop_eq_of_lt_length hi, get_eq_getElem]

theorem areSpots_swapped {originalContent : Text} {rest : List Text}
    (hlines : textLines originalContent = text "a" :: text "b" :: rest)
    (hrest : text "a" ∉ rest ∧ text "b" ∉ rest) : AreSpots originalContent swappedSpots where
  wellFormed := by
    intro s hs
    rcases mem_cons.mp hs with rfl | hs
    · exact ⟨by decide, by decide, by decide, by decide, by decide, by decide, by decide⟩
    · rw [mem_singleton.mp hs]
      exact ⟨by decide, by decide, by decide, by decide, by decide, by decide, by decide⟩
  once := by
    have hb : ∀ i, StandsAt (textLines originalContent) [text "b"] i ↔ i = 1 := by
      intro i
      rw [standsAt_singleton_iff, hlines]
      match i with
      | 0 => simp; decide
      | 1 => simp
      | n + 2 => simpa using fun h => hrest.2 (mem_of_getElem? h)
    have ha : ∀ i, StandsAt (textLines originalContent) [text "a"] i ↔ i = 0 := by
      intro i
      rw [standsAt_singleton_iff, hlines]
      match i with
      | 0 => simp
      | 1 => simp; decide
      | n + 2 => simpa using fun h => hrest.1 (mem_of_getElem? h)
    intro s hs
    rcases mem_cons.mp hs with rfl | hs
    · exact hb
    · rw [mem_singleton.mp hs]
      exact ha
  apart := by decide

/-- Out of order, too, the blocks are found, where no later line looks like the first. -/
theorem swapped_blocks_substitute :
    let original := text "a\nb\n"
    ∀ replace, Replaceable replace →
      ∃ matchIndices, constructNewFileContent
          (encodeDiff (swappedSpots.map (Spot.fill replace)) []) original true .v1
        = .ok ⟨substitute original replace swappedSpots, matchIndices⟩ := by
  intro original
  refine (substitutes_iff (@areSpots_swapped _ [] (by decide) (by decide))
    (by decide)).mpr ⟨by decide, ?_, ?_, trivial⟩
  · have hfirst : ∀ j < 2, ¬ StandsAt original (endLines [text "b"]) j := by decide
    exact (if_pos (by decide)).mpr fun j _ hj => hfirst j hj
  · have honce : ∀ j, ¬ (4 ≤ j ∧ StandsAt original (endLines [text "a"]) j) := by
      rintro j ⟨hj, hstands⟩
      have hbound : j + 2 ≤ 4 := hstands.le_length (by decide)
      omega
    have hanchors : ∀ i < 3, 4 ≤ lineOffset (splitLines original) i →
        ¬ AnchorsAt (splitLines original) [text "a"] i := by decide
    refine (if_neg (by decide)).mpr ⟨fun j hj => ?_, fun i hi hle => hanchors i ?_ hle⟩
    · rcases hj with hj | hj
      · exact absurd hj (Nat.not_lt_zero j)
      · exact fun hstands => honce j ⟨hj, hstands⟩
    · exact Nat.lt_of_succ_le hi

/-- A later line that differs in white space is replaced for the first one. -/
theorem near_duplicate_is_replaced :
    let original := text "a\nb\na \n"
    let replace : ℕ → List Text := fun n => if n = 0 then [text "A"] else [text "B"]
    let diff := text "------- SEARCH\nb\n=======\nB\n+++++++ REPLACE\n" ++
      text "------- SEARCH\na\n=======\nA\n+++++++ REPLACE"
    AreSpots original swappedSpots ∧ Replaceable replace ∧
      encodeDiff (swappedSpots.map (Spot.fill replace)) [] = diff ∧
      substitute original replace swappedSpots = text "A\nB\na \n" ∧
      constructNewFileContent diff original true .v1 = .ok ⟨text "a\nB\nA\n", [2, 4]⟩ ∧
      ¬ ∃ matchIndices, constructNewFileContent diff original true .v1
        = .ok ⟨substitute original replace swappedSpots, matchIndices⟩ := by
  intro original replace diff
  have hresult : constructNewFileContent diff original true .v1
      = .ok ⟨text "a\nB\nA\n", [2, 4]⟩ := by rfl
  have hexpected : substitute original replace swappedSpots = text "A\nB\na \n" := by decide
  refine ⟨@areSpots_swapped _ [text "a "] (by decide) (by decide), ?_, by decide, hexpected,
    hresult, ?_⟩
  · intro n line hline
    have hlines : ∀ line ∈ [text "A", text "B"], newline ∉ line ∧ Unmarked line := by decide
    refine hlines line ?_
    unfold replace at hline
    split at hline
    · rw [mem_singleton.mp hline]
      exact mem_cons_self
    · rw [mem_singleton.mp hline]
      exact mem_cons_of_mem _ mem_cons_self
  · rintro ⟨matchIndices, heq⟩
    have hcontent : text "a\nB\nA\n" = substitute original replace swappedSpots :=
      congrArg NewFile.newContent (Except.ok.inj (hresult.symm.trans heq))
    exact absurd (hcontent.trans hexpected) (by decide)

end

end Lumi.SearchReplace
