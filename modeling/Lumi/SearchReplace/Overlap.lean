import Lumi.SearchReplace.ConstructorV1

/-!
# Replacements that overlap

The file is rebuilt on the assumption that no two replacements overlap, and nothing checks it.  A
block that is found from the cursor on lies behind all blocks that moved the cursor.  Only a block
that is found before the cursor, out of order, can meet another, and it is stored all the same.
-/

namespace Lumi.SearchReplace

open Js List

/-! ## Ranges in a file -/

namespace Replacement

/-- The characters up to `stop` end where the other range starts, in a file of `size` characters. -/
def EndsBefore (size : ℕ) (a b : Replacement) : Prop := min a.stop size ≤ b.start

instance (size : ℕ) : DecidableRel (EndsBefore size) := fun a b =>
  inferInstanceAs (Decidable (min a.stop size ≤ b.start))

/-- The two ranges have no character in common. -/
def Apart (size : ℕ) (a b : Replacement) : Prop := a.EndsBefore size b ∨ b.EndsBefore size a

instance (size : ℕ) : DecidableRel (Apart size) := fun a b =>
  inferInstanceAs (Decidable (a.EndsBefore size b ∨ b.EndsBefore size a))

instance (size : ℕ) : Std.Symm (Apart size) := ⟨fun _ _ h => h.symm⟩

/-- A range that starts in the file, and is empty in an empty file only. -/
structure InFile (size : ℕ) (r : Replacement) : Prop where
  nonneg : 0 ≤ r.start
  start_le : r.start ≤ size
  le_stop : r.start ≤ r.stop
  nonempty : size = 0 ∨ r.start < r.stop

/-- The range gives way to the content. -/
def edit (size : ℕ) (r : Replacement) : Edit UInt16 :=
  ⟨r.start.toNat, (min r.stop size - r.start).toNat, r.content⟩

variable {size : ℕ}

theorem InFile.edit_stop {r : Replacement} (h : r.InFile size) :
    (r.edit size).stop = (min r.stop size).toNat := by
  have hstart := h.nonneg
  have hsize := h.start_le
  have hstop := h.le_stop
  show r.start.toNat + (min r.stop size - r.start).toNat = _
  omega

instance : Std.Total before := ⟨fun a b => Int.le_total a.start b.start⟩

instance : IsTrans Replacement before := ⟨fun _ _ _ hab hbc => Int.le_trans hab hbc⟩

/-- Sorted by their starts, ranges without a common character end each before the next. -/
theorem pairwise_endsBefore_iff {replacements : List Replacement}
    (h : ∀ r ∈ replacements, r.InFile size) :
    (replacements.insertionSort before).Pairwise (EndsBefore size) ↔
      replacements.Pairwise (Apart size) := by
  have hperm := perm_insertionSort before replacements
  constructor
  · intro hsorted
    exact hperm.pairwise (hsorted.imp fun hab => .inl hab) fun hab => hab.symm
  · intro hapart
    have hboth := (pairwise_insertionSort before replacements).and
      (hperm.symm.pairwise hapart fun hab => hab.symm)
    refine hboth.imp_of_mem fun {a b} ha hb hab => ?_
    obtain ⟨hle, hbefore | hafter⟩ := hab
    · exact hbefore
    · have hle : a.start ≤ b.start := hle
      have hafter : min b.stop size ≤ a.start := hafter
      have hb := h b (hperm.subset hb)
      have hstop := hb.le_stop
      have hstart := hb.start_le
      show min a.stop size ≤ b.start
      rcases hb.nonempty with hzero | hlt
      · have hnonneg := hb.nonneg
        omega
      · omega

end Replacement

theorem slice_of_nonneg {α : Type*} {xs : List α} {start stop : ℤ} (hstart : 0 ≤ start)
    (hstop : 0 ≤ stop) (hle : stop ≤ xs.length) :
    slice xs start stop = (xs.drop (min start xs.length).toNat).take
      (stop.toNat - (min start xs.length).toNat) := by
  have hfrom : relativeIndex xs start = (min start xs.length).toNat := by
    rw [relativeIndex, if_neg (by omega)]
    omega
  have hto : relativeIndex xs stop = stop.toNat := by
    rw [relativeIndex, if_neg (by omega)]
    omega
  rw [slice, hfrom, hto]

variable {originalContent : Text}

/-- Rebuilding is splicing, where each range ends before the next. -/
theorem rebuild_eq_splice {replacements : List Replacement}
    (hrange : ∀ r ∈ replacements, r.InFile originalContent.length) {cursor : ℤ}
    (hcursor : 0 ≤ cursor)
    (hfirst : ∀ r ∈ replacements, min cursor originalContent.length ≤ r.start)
    (happart : replacements.Pairwise (Replacement.EndsBefore originalContent.length)) :
    rebuild originalContent cursor replacements
        = Edit.splice originalContent (min cursor originalContent.length).toNat
            (replacements.map (Replacement.edit originalContent.length)) ∧
      Edit.InOrder originalContent.length (min cursor originalContent.length).toNat
        (replacements.map (Replacement.edit originalContent.length)) := by
  induction replacements generalizing cursor with
  | nil =>
    refine ⟨?_, by show (min cursor originalContent.length).toNat ≤ _; omega⟩
    rw [rebuild, slice_of_nonneg hcursor (by omega) (by omega), take_of_length_le]
    · rfl
    · rw [length_drop]
      omega
  | cons r rest ih =>
    have hr := hrange r mem_cons_self
    have hnonneg := hr.nonneg
    have hle := hr.le_stop
    obtain ⟨hnext, hrest⟩ := pairwise_cons.mp happart
    obtain ⟨hsplice, horder⟩ := @ih (fun r' hr' => hrange r' (mem_cons_of_mem _ hr'))
      r.stop (by omega) hnext hrest
    have hgap := @slice_of_nonneg _ originalContent _ _ hcursor hnonneg hr.start_le
    have hstart := hfirst r mem_cons_self
    constructor
    · rw [map_cons, Edit.splice, hr.edit_stop, ← hsplice, rebuild, hgap]
      rfl
    · refine ⟨?_, ?_⟩
      · show (min cursor originalContent.length).toNat ≤ r.start.toNat
        omega
      · rw [hr.edit_stop]
        exact horder

/-! ## What is stored -/

/-- The block that is read, as it would be stored. -/
def StateV1.candidate (st : StateV1) : Replacement :=
  ⟨st.searchMatchIndex, st.searchEndIndex, st.currentReplaceContent⟩

/-- A block without an end marker is stored at the end of the diff. -/
def StateV1.close (st : StateV1) : StateV1 :=
  if st.inReplace && st.searchMatchIndex ≠ -1 then st.store else st

/-- The lines that the loop of `constructNewFileContentV1` goes through. -/
def linesV1 (diffContent : Text) : List Text :=
  dropPartialMarker (fun line => isSearchBlockStart line || isSearchBlockEnd line ||
    isReplaceBlockEnd line) (splitLines diffContent)

/-- The replacements from which the file is rebuilt. -/
def replacementsV1 (diffContent originalContent : Text) : Except Text (List Replacement) :=
  ((linesV1 diffContent).foldlM (processLineV1 originalContent) .start).map fun st =>
    st.close.replacements.insertionSort Replacement.before

theorem constructNewFileContentV1_eq_rebuild (diffContent originalContent : Text) :
    constructNewFileContentV1 diffContent originalContent true
      = (replacementsV1 diffContent originalContent).map fun replacements =>
          ⟨rebuild originalContent 0 replacements, replacements.map Replacement.start⟩ := by
  show Except.map _ ((linesV1 diffContent).foldlM (processLineV1 originalContent) .start) = _
  rw [replacementsV1]
  cases (linesV1 diffContent).foldlM (processLineV1 originalContent) .start with
  | error e => rfl
  | ok st => rfl

/-- What a state is sure of: ranges lie in the file, and a block in order behind the cursor. -/
structure StateV1.Sound (originalContent : Text) (st : StateV1) : Prop where
  cursor : 0 ≤ st.lastProcessedIndex
  search : ∃ lines : List Text, (∀ line ∈ lines, newline ∉ line) ∧
    st.currentSearchContent = endLines lines
  candidate : st.searchMatchIndex ≠ -1 → st.candidate.InFile originalContent.length ∧
    (st.pendingOutOfOrderReplacement = false → st.lastProcessedIndex ≤ st.searchMatchIndex)
  stored : ∀ r ∈ st.replacements, r.InFile originalContent.length

theorem lineOffset_splitLines_le {s : Text} {i : ℕ} (hi : i < (splitLines s).length) :
    lineOffset (splitLines s) i ≤ s.length := by
  have hlength := length_joinLines hi
  rw [joinLines_splitLines] at hlength
  omega

variable {lines : List Text}

/-- A block is found in the file. -/
theorem locateV1_inFile (hlines : ∀ line ∈ lines, newline ∉ line) {last : ℤ} {found : ℤ × ℤ}
    (h : locateV1 originalContent (endLines lines) last = .ok found) (content : Text) :
    (⟨found.1, found.2, content⟩ : Replacement).InFile originalContent.length := by
  unfold locateV1 at h
  split_ifs at h with hempty hzero
  · obtain rfl := Except.ok.inj h
    exact ⟨Int.le_refl 0, Int.natCast_nonneg _, Int.le_refl 0, .inl hzero⟩
  · have hpos : 0 < (endLines lines).length := length_pos_of_ne_nil hempty
    -- the SEARCH text stands somewhere, or as many lines lie there
    have hrange : ∀ start stop : ℕ, start ≤ originalContent.length → start < stop →
        (⟨start, stop, content⟩ : Replacement).InFile originalContent.length := by
      intro start stop hstart hlt
      exact ⟨Int.natCast_nonneg _, Int.ofNat_le.mpr hstart, Int.ofNat_le.mpr (Nat.le_of_lt hlt),
        Or.inr (Int.ofNat_lt.mpr hlt)⟩
    cases hfind : findInFile originalContent (endLines lines) last.toNat with
    | none =>
      rw [hfind] at h
      cases h
    | some range =>
      rw [hfind] at h
      obtain rfl := Except.ok.inj h
      rcases Option.or_eq_some_iff.mp hfind with hmatch | ⟨-, hwhole⟩
      · have hsize : 0 < (textLines (endLines lines)).length := by
          rw [textLines_endLines hlines]
          refine length_pos_of_ne_nil fun hnil => hempty ?_
          rw [hnil]
          rfl
        obtain ⟨-, ⟨hstands, hstop⟩ | ⟨i, hi, rfl⟩⟩ := findMatch_cases hsize hmatch
        · have hbound := hstands.le_length hempty
          exact hrange _ _ (by omega) (by omega)
        · exact hrange _ _ (lineOffset_splitLines_le (by omega)) (lineOffset_lt (by omega) hi)
      · obtain ⟨i, hi, rfl⟩ := Option.map_eq_some_iff.mp hwhole
        obtain ⟨-, hstands, -⟩ := (indexOf_eq_some_iff hempty).mp hi
        have hbound := hstands.le_length hempty
        exact hrange _ _ (by omega) (by omega)

/-- What a round does, by the line that it reads. -/
inductive RoundV1 (originalContent line : Text) (st : StateV1) : StateV1 → Prop
  | start (hmark : isSearchBlockStart line = true) : RoundV1 originalContent line st
      { st with inSearch := true, currentSearchContent := [], currentReplaceContent := [] }
  | middle (hmark : isSearchBlockEnd line = true) (found : ℤ × ℤ) (outOfOrder : Bool)
      (hlocate : locateV1 originalContent st.currentSearchContent st.lastProcessedIndex = .ok found)
      (horder : outOfOrder
        = (st.pendingOutOfOrderReplacement || found.1 < st.lastProcessedIndex)) :
      RoundV1 originalContent line st
        { st with
          inSearch := false
          inReplace := true
          searchMatchIndex := found.1
          searchEndIndex := found.2
          pendingOutOfOrderReplacement := outOfOrder
          result :=
            if outOfOrder then st.result
            else st.result ++ slice originalContent st.lastProcessedIndex found.1 }
  | finish (hmark : isReplaceBlockEnd line = true) (hmatch : st.searchMatchIndex ≠ -1) :
      RoundV1 originalContent line st st.store
  | search (hmark : Unmarked line) (hsearch : st.inSearch = true) : RoundV1 originalContent line st
      { st with currentSearchContent := st.currentSearchContent ++ (line ++ [newline]) }
  | replace (hmark : Unmarked line) (hsearch : st.inSearch = false) (hreplace : st.inReplace = true) :
      RoundV1 originalContent line st
        { st with
          currentReplaceContent := st.currentReplaceContent ++ (line ++ [newline])
          result :=
            if st.searchMatchIndex ≠ -1 && !st.pendingOutOfOrderReplacement then
              st.result ++ (line ++ [newline])
            else st.result }
  | skip (hmark : Unmarked line) (hsearch : st.inSearch = false) (hreplace : st.inReplace = false) :
      RoundV1 originalContent line st st

variable {st st' : StateV1}

variable {originalContent line : Text}

theorem roundV1_of_ok (h : processLineV1 originalContent st line = .ok st') :
    RoundV1 originalContent line st st' := by
  unfold processLineV1 at h
  by_cases hstart : isSearchBlockStart line = true
  · rw [if_pos hstart] at h
    exact Except.ok.inj h ▸ .start hstart
  rw [if_neg hstart] at h
  by_cases hend : isSearchBlockEnd line = true
  · rw [if_pos hend] at h
    cases hlocate : locateV1 originalContent st.currentSearchContent st.lastProcessedIndex with
    | error e =>
      rw [hlocate] at h
      cases h
    | ok found =>
      rw [hlocate] at h
      exact Except.ok.inj h ▸ .middle hend found _ hlocate rfl
  rw [if_neg hend] at h
  by_cases hfinish : isReplaceBlockEnd line = true
  · rw [if_pos hfinish] at h
    by_cases hmatch : st.searchMatchIndex = -1
    · rw [if_pos hmatch] at h
      cases h
    · rw [if_neg hmatch] at h
      exact Except.ok.inj h ▸ .finish hfinish hmatch
  rw [if_neg hfinish] at h
  have hmark : Unmarked line := ⟨Bool.eq_false_iff.mpr hstart, Bool.eq_false_iff.mpr hend,
    Bool.eq_false_iff.mpr hfinish⟩
  by_cases hsearch : st.inSearch = true
  · rw [if_pos hsearch] at h
    exact Except.ok.inj h ▸ .search hmark hsearch
  rw [if_neg hsearch] at h
  by_cases hreplace : st.inReplace = true
  · rw [if_pos hreplace] at h
    exact Except.ok.inj h ▸ .replace hmark (Bool.eq_false_iff.mpr hsearch) hreplace
  · rw [if_neg hreplace] at h
    exact Except.ok.inj h ▸
      .skip hmark (Bool.eq_false_iff.mpr hsearch) (Bool.eq_false_iff.mpr hreplace)

/-- A replacement is stored at an end marker only. -/
theorem RoundV1.replacements (h : RoundV1 originalContent line st st') :
    (isReplaceBlockEnd line = true ∧ st.searchMatchIndex ≠ -1 ∧ st' = st.store) ∨
      (isReplaceBlockEnd line = false ∧ st'.replacements = st.replacements) := by
  cases h with
  | start hmark =>
    refine .inr ⟨Bool.eq_false_iff.mpr fun hfinish => ?_, rfl⟩
    rw [(not_search_of_isReplaceBlockEnd hfinish).1] at hmark
    cases hmark
  | middle hmark =>
    refine .inr ⟨Bool.eq_false_iff.mpr fun hfinish => ?_, rfl⟩
    rw [(not_search_of_isReplaceBlockEnd hfinish).2] at hmark
    cases hmark
  | finish hmark hmatch => exact .inl ⟨hmark, hmatch, rfl⟩
  | search hmark => exact .inr ⟨hmark.2.2, rfl⟩
  | replace hmark => exact .inr ⟨hmark.2.2, rfl⟩
  | skip hmark => exact .inr ⟨hmark.2.2, rfl⟩

theorem StateV1.Sound.store {st : StateV1} (h : st.Sound originalContent)
    (hmatch : st.searchMatchIndex ≠ -1) : st.store.Sound originalContent where
  cursor := by
    have hcursor := h.cursor
    have hstart := (h.candidate hmatch).1.nonneg
    have hstop := (h.candidate hmatch).1.le_stop
    show 0 ≤ if st.pendingOutOfOrderReplacement then st.lastProcessedIndex else st.searchEndIndex
    split_ifs
    · exact hcursor
    · exact hstart.trans hstop
  search := ⟨[], fun line hline => absurd hline not_mem_nil, rfl⟩
  candidate := fun hne => absurd rfl hne
  stored := by
    intro r hr
    rcases mem_append.mp hr with hr | hr
    · exact h.stored r hr
    · rw [mem_singleton.mp hr]
      exact (h.candidate hmatch).1

/-- **Step lemma.**  Every round keeps the ranges in the file. -/
theorem StateV1.Sound.processLine (h : st.Sound originalContent) (hline : newline ∉ line)
    (hstep : processLineV1 originalContent st line = .ok st') : st'.Sound originalContent := by
  have hempty : ∃ lines : List Text, (∀ line ∈ lines, newline ∉ line) ∧ [] = endLines lines :=
    ⟨[], fun _ hline => absurd hline not_mem_nil, rfl⟩
  obtain ⟨lines, hlines, hsearch⟩ := h.search
  -- the range does not depend on what the block is replaced with
  have hcandidate (content : Text) : st.searchMatchIndex ≠ -1 →
      (⟨st.searchMatchIndex, st.searchEndIndex, content⟩ : Replacement).InFile
          originalContent.length ∧
        (st.pendingOutOfOrderReplacement = false → st.lastProcessedIndex ≤ st.searchMatchIndex) :=
    fun hne => ⟨⟨(h.candidate hne).1.nonneg, (h.candidate hne).1.start_le,
      (h.candidate hne).1.le_stop, (h.candidate hne).1.nonempty⟩, (h.candidate hne).2⟩
  cases roundV1_of_ok hstep with
  | start => exact ⟨h.cursor, hempty, hcandidate _, h.stored⟩
  | middle _ found outOfOrder hlocate horder =>
    refine ⟨h.cursor, h.search, fun _ => ⟨locateV1_inFile hlines (hsearch ▸ hlocate) _, ?_⟩,
      h.stored⟩
    intro hinorder
    have hinorder : outOfOrder = false := hinorder
    rw [horder, Bool.or_eq_false_iff, decide_eq_false_iff_not] at hinorder
    exact Int.not_lt.mp hinorder.2
  | finish _ hmatch => exact h.store hmatch
  | search =>
    refine ⟨h.cursor, ⟨lines ++ [line], ?_, ?_⟩, hcandidate _, h.stored⟩
    · intro l hl
      rcases mem_append.mp hl with hl | hl
      · exact hlines l hl
      · exact mem_singleton.mp hl ▸ hline
    · show st.currentSearchContent ++ _ = _
      rw [hsearch, endLines, endLines, flatMap_append, flatMap_singleton]
  | replace => exact ⟨h.cursor, h.search, hcandidate _, h.stored⟩
  | skip => exact h

theorem StateV1.sound_start (originalContent : Text) : StateV1.start.Sound originalContent where
  cursor := Int.le_refl 0
  search := ⟨[], fun _ hline => absurd hline not_mem_nil, rfl⟩
  candidate := fun hne => absurd rfl hne
  stored := fun _ hr => absurd hr not_mem_nil

/-- **Run lemma.** -/
theorem StateV1.Sound.foldlM (h : st.Sound originalContent)
    (hlines : ∀ line ∈ lines, newline ∉ line)
    (hrun : lines.foldlM (processLineV1 originalContent) st = .ok st') :
    st'.Sound originalContent := by
  induction lines generalizing st with
  | nil => exact Except.ok.inj hrun ▸ h
  | cons line rest ih =>
    cases hstep : processLineV1 originalContent st line with
    | error e =>
      rw [foldlM_cons_error hstep] at hrun
      cases hrun
    | ok mid =>
      rw [foldlM_cons_ok hstep] at hrun
      exact ih (h.processLine (hlines line mem_cons_self) hstep)
        (fun l hl => hlines l (mem_cons_of_mem _ hl)) hrun

theorem StateV1.Sound.close {st : StateV1} (h : st.Sound originalContent) :
    st.close.Sound originalContent := by
  unfold StateV1.close
  split_ifs with hopen
  · exact h.store (of_decide_eq_true (Bool.and_eq_true_iff.mp hopen).2)
  · exact h

theorem newline_notMem_linesV1 (diffContent : Text) :
    ∀ line ∈ linesV1 diffContent, newline ∉ line := by
  intro line hline
  unfold linesV1 dropPartialMarker at hline
  split_ifs at hline
  · exact newline_notMem_splitLines (dropLast_subset _ hline)
  · exact newline_notMem_splitLines hline

/-! ## Which blocks can meet another -/

/-- Where the block is out of order, it meets no range that is stored; where it is in order, none
that reaches past the cursor. -/
def StateV1.Clear (originalContent : Text) (st : StateV1) : Prop :=
  ∀ r ∈ st.replacements,
    st.pendingOutOfOrderReplacement = true ∨ st.lastProcessedIndex < r.stop →
    r.Apart originalContent.length st.candidate

instance (originalContent : Text) (st : StateV1) : Decidable (st.Clear originalContent) :=
  List.decidableBAll _ _

/-- Whenever a block of the lines is to be stored, it is clear of others. -/
def StoresClear (originalContent : Text) : StateV1 → List Text → Prop
  | st, [] => st.inReplace = true ∧ st.searchMatchIndex ≠ -1 → st.Clear originalContent
  | st, line :: rest =>
    (isReplaceBlockEnd line = true → st.Clear originalContent) ∧
      match processLineV1 originalContent st line with
      | .ok st' => StoresClear originalContent st' rest
      | .error _ => True

instance decidableStoresClear (originalContent : Text) :
    (st : StateV1) → (lines : List Text) → Decidable (StoresClear originalContent st lines)
  | st, [] =>
    inferInstanceAs (Decidable (st.inReplace = true ∧ st.searchMatchIndex ≠ -1 →
      st.Clear originalContent))
  | st, line :: rest =>
    have : Decidable (match processLineV1 originalContent st line with
        | .ok st' => StoresClear originalContent st' rest
        | .error _ => True) :=
      match processLineV1 originalContent st line with
      | .ok st' => decidableStoresClear originalContent st' rest
      | .error _ => .isTrue trivial
    inferInstanceAs (Decidable ((isReplaceBlockEnd line = true → st.Clear originalContent) ∧ _))

theorem StateV1.Sound.pairwise_store {st : StateV1} (h : st.Sound originalContent)
    (hmatch : st.searchMatchIndex ≠ -1) :
    st.store.replacements.Pairwise (Replacement.Apart originalContent.length) ↔
      st.replacements.Pairwise (Replacement.Apart originalContent.length) ∧
        st.Clear originalContent := by
  show (st.replacements ++ [st.candidate]).Pairwise _ ↔ _
  rw [pairwise_append]
  constructor
  · rintro ⟨hstored, -, hall⟩
    exact ⟨hstored, fun r hr _ => hall r hr _ mem_cons_self⟩
  · rintro ⟨hstored, hclear⟩
    refine ⟨hstored, pairwise_singleton _ _, fun r hr c hc => ?_⟩
    rw [mem_singleton.mp hc]
    by_cases hout : st.pendingOutOfOrderReplacement = true ∨ st.lastProcessedIndex < r.stop
    · exact hclear r hr hout
    · -- a block in order lies behind what ends before the cursor
      obtain ⟨hinorder, hstop⟩ := not_or.mp hout
      have hle := (h.candidate hmatch).2 (Bool.eq_false_iff.mpr hinorder)
      refine .inl ?_
      show min r.stop originalContent.length ≤ st.searchMatchIndex
      omega

/-- **Run lemma.**  No two ranges meet just if every block is stored clear of the others. -/
theorem pairwise_apart_iff (h : st.Sound originalContent) (hlines : ∀ line ∈ lines, newline ∉ line)
    (hrun : lines.foldlM (processLineV1 originalContent) st = .ok st') :
    st'.close.replacements.Pairwise (Replacement.Apart originalContent.length) ↔
      st.replacements.Pairwise (Replacement.Apart originalContent.length) ∧
        StoresClear originalContent st lines := by
  induction lines generalizing st with
  | nil =>
    obtain rfl : st = st' := Except.ok.inj hrun
    rw [StateV1.close, StoresClear]
    by_cases hopen : st.inReplace = true ∧ st.searchMatchIndex ≠ -1
    · rw [if_pos (by simpa using hopen), h.pairwise_store hopen.2]
      exact and_congr_right fun _ => ⟨fun hclear _ => hclear, fun hclear => hclear hopen⟩
    · rw [if_neg (by simpa using hopen)]
      exact ⟨fun hall => ⟨hall, fun hyes => absurd hyes hopen⟩, And.left⟩
  | cons line rest ih =>
    rw [foldlM_cons] at hrun
    cases hstep : processLineV1 originalContent st line with
    | error e =>
      rw [hstep] at hrun
      cases hrun
    | ok mid =>
      rw [hstep] at hrun
      have hmid := h.processLine (hlines line mem_cons_self) hstep
      rw [ih hmid (fun l hl => hlines l (mem_cons_of_mem _ hl)) hrun, StoresClear, hstep]
      obtain ⟨hfinish, hmatch, rfl⟩ | ⟨hfinish, hstored⟩ := (roundV1_of_ok hstep).replacements
      · rw [h.pairwise_store hmatch, and_assoc]
        exact and_congr_right fun _ => and_congr_left fun _ =>
          ⟨fun hclear _ => hclear, fun hclear => hclear hfinish⟩
      · rw [hstored]
        refine and_congr_right fun _ => ⟨fun hrest => ⟨fun hyes => ?_, hrest⟩, And.right⟩
        rw [hfinish] at hyes
        cases hyes

/-- The file is the original with each range replaced once, and no two ranges meet. -/
def ReplacedOnce (originalContent : Text) (replacements : List Replacement) (newContent : Text) :
    Prop :=
  replacements.Pairwise (Replacement.EndsBefore originalContent.length) ∧
    Edit.InOrder originalContent.length 0
      (replacements.map (Replacement.edit originalContent.length)) ∧
    newContent = Edit.splice originalContent 0
      (replacements.map (Replacement.edit originalContent.length))

section

/-- Two blocks, of which the second lies before the first. -/
def swappedDiff : Text :=
  text "------- SEARCH\nb\n=======\nB\n+++++++ REPLACE\n" ++
    text "------- SEARCH\na\n=======\nA\n+++++++ REPLACE"

/-- All three lines are replaced, and then the second of them. -/
def nestedDiff : Text :=
  text "------- SEARCH\na\nb\nc\n=======\nX\n+++++++ REPLACE\n" ++
    text "------- SEARCH\nb\n=======\nY\n+++++++ REPLACE"

end

end Lumi.SearchReplace
