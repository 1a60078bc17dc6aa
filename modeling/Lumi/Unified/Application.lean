import Lumi.Unified.Format

/-!
# Where hunks are applied

`findHunkMatch` takes the line number of a hunk as it is, though the hunks before may have
moved the lines.  A hunk with old lines is then found where it stands if these do not stand at
its number, nor anywhere before; a pure insertion has nothing to look for, and is a line early
besides, since its number is that of the line before it.  Where every hunk is found in its
place, the new text comes of the old one.
-/

namespace Lumi.Unified

open Js List

/-! ## Texts and their diffs -/

/-- No line ends with a carriage return. -/
def IsLF (s : Text) : Prop := ∀ line ∈ splitLines s, line.getLast? ≠ some 0xD

instance (s : Text) : Decidable (IsLF s) := inferInstanceAs (Decidable (∀ _ ∈ _, _ ≠ _))

/-- The hunks are in order, their old lines stand in the old text, and with the new ones in
their place it is the new text. -/
structure IsDiff (old new : Text) (hunks : List DiffHunk) : Prop where
  order : Edit.InOrder (textLines old).length 0 (hunks.map DiffHunk.edit)
  stands : ∀ h ∈ hunks, StandsAt (textLines old) (oldLines h.lines) h.position
  result : textLines new = Edit.splice (textLines old) 0 (hunks.map DiffHunk.edit)

/-! ## Where a hunk is found -/

/-- The hunk is found in its place: a pure insertion where its number is one more than the
place, or where it is past the end; another one where its number says, or where its old lines
stand neither there nor before. -/
def FoundInPlace (fileLines : List Text) (h : DiffHunk) (place : ℕ) : Prop :=
  if oldLines h.lines = [] then
    h.position = place + 1 ∨ place = fileLines.length ∧ fileLines.length < h.position
  else
    h.position = place ∨ ¬ StandsAt fileLines (oldLines h.lines) h.position ∧
      ∀ i < place, ¬ StandsAt fileLines (oldLines h.lines) i

instance (fileLines : List Text) (h : DiffHunk) (place : ℕ) :
    Decidable (FoundInPlace fileLines h place) := by
  unfold FoundInPlace
  infer_instance

/-- Every hunk is found in its place, in the text that those before have left: `done`, and
what follows `cursor`. -/
def Placed (fileLines : List Text) : ℕ → List Text → List DiffHunk → Prop
  | _, _, [] => True
  | cursor, done, h :: rest =>
    FoundInPlace (done ++ fileLines.drop cursor) h (done.length + (h.position - cursor)) ∧
    Placed fileLines h.edit.stop
      (done ++ (fileLines.drop cursor).take (h.position - cursor) ++ newLines h.lines) rest

theorem expectedOldLines_patchLine (lines : List (HunkLine Text)) :
    expectedOldLines (lines.map patchLine) = oldLines lines := by
  rw [expectedOldLines, filterMap_map, oldLines]
  congr 1
  funext l
  cases l <;> rfl

theorem replacementLines_patchLine (lines : List (HunkLine Text)) :
    replacementLines (lines.map patchLine) = newLines lines := by
  rw [replacementLines, filterMap_map, newLines]
  congr 1
  funext l
  cases l <;> rfl

variable {fileLines expected : List Text}

theorem linesMatch_iff (hne : expected ≠ []) (i : ℕ) :
    linesMatch fileLines i expected = true ↔ StandsAt fileLines expected i := by
  rw [linesMatch, matchAt, map_id, map_id, Bool.and_eq_true, decide_eq_true_iff,
    decide_eq_true_iff]
  exact ⟨And.right, fun h => ⟨h.le_length hne, h⟩⟩

/-- The scan finds the first place where the lines stand. -/
theorem scan_stands {place : ℕ} (hne : expected ≠ []) (hstands : StandsAt fileLines expected place) :
    ∃ first ≤ place,
      scan fileLines expected (fun i => linesMatch fileLines i expected) = some first ∧
      StandsAt fileLines expected first ∧ ∀ i < first, ¬ StandsAt fileLines expected i := by
  have hbound := hstands.le_length hne
  obtain ⟨first, hfirst⟩ : ∃ first,
      scan fileLines expected (fun i => linesMatch fileLines i expected) = some first := by
    rw [← Option.isSome_iff_exists, scan, find?_isSome]
    exact ⟨place, mem_range.mpr (by omega), (linesMatch_iff hne place).mpr hstands⟩
  obtain ⟨hmatch, -, hbefore⟩ := find?_range_eq_some.mp hfirst
  rw [linesMatch_iff hne] at hmatch
  have hnone : ∀ i < first, ¬ StandsAt fileLines expected i := by
    intro i hi hstands'
    have hno := hbefore i hi
    rw [(linesMatch_iff hne i).mpr hstands'] at hno
    exact absurd hno (by decide)
  exact ⟨first, Nat.le_of_not_lt fun hlt => hnone place hlt hstands, hfirst, hmatch, hnone⟩

/-- Where the lines stand is found by the scan, unless they stand before. -/
theorem scan_eq_some_iff {place : ℕ} (hne : expected ≠ [])
    (hstands : StandsAt fileLines expected place) :
    ∃ first, scan fileLines expected (fun i => linesMatch fileLines i expected) = some first ∧
      (first = place ↔ ∀ i < place, ¬ StandsAt fileLines expected i) := by
  obtain ⟨first, hle, hfirst, hmatch, hnone⟩ := scan_stands hne hstands
  refine ⟨first, hfirst, fun heq => heq ▸ hnone, fun hplace => ?_⟩
  rcases Nat.eq_or_lt_of_le hle with heq | hlt
  · exact heq
  · exact absurd hmatch (hplace first hlt)

theorem findHunkMatch_iff {fileLines : List Text} {h : DiffHunk} {place : ℕ}
    (hstands : StandsAt fileLines (oldLines h.lines) place) (hle : place ≤ fileLines.length) :
    findHunkMatch fileLines h.patchHunk = place ↔ FoundInPlace fileLines h place := by
  have hexpected : expectedOldLines h.patchHunk.lines = oldLines h.lines :=
    expectedOldLines_patchLine h.lines
  have hnumber : h.patchHunk.oldStart = h.oldStart := rfl
  by_cases hold : oldLines h.lines = []
  · rw [findHunkMatch, hexpected, hnumber, DiffHunk.oldStart, FoundInPlace, if_pos hold,
      if_pos hold, if_pos (length_eq_zero_iff.mpr hold)]
    omega
  · have hlength : (oldLines h.lines).length ≠ 0 := by rwa [Ne, length_eq_zero_iff]
    have hcandidate : h.oldStart - 1 = h.position := by
      rw [DiffHunk.oldStart, if_neg hold, Nat.add_sub_cancel]
    rw [findHunkMatch, hexpected, hnumber, hcandidate, FoundInPlace, if_neg hold, if_neg hlength]
    by_cases hmatch : StandsAt fileLines (oldLines h.lines) h.position
    · have hnone : ¬ (¬ StandsAt fileLines (oldLines h.lines) h.position ∧
          ∀ i < place, ¬ StandsAt fileLines (oldLines h.lines) i) := fun hno => hno.1 hmatch
      rw [if_pos ((linesMatch_iff hold h.position).mpr hmatch), or_iff_left hnone]
      exact Int.ofNat_inj
    · obtain ⟨first, hfirst, hplace⟩ := scan_eq_some_iff hold hstands
      have hne : h.position ≠ place := fun heq => hmatch (heq ▸ hstands)
      rw [if_neg (mt (linesMatch_iff hold h.position).mp hmatch), hfirst, or_iff_right hne,
        ← hplace]
      exact ⟨fun heq => ⟨hmatch, Int.ofNat_inj.mp heq⟩, fun heq => congrArg _ heq.2⟩

/-! ## Application -/

/-- **Step lemma.**  A hunk that is found in its place is applied there. -/
theorem applyLoop_cons {fileLines done : List Text} {cursor : ℕ} {h : DiffHunk}
    {rest : List PatchHunk} (hle : cursor ≤ h.position) (hstop : h.edit.stop ≤ fileLines.length)
    (hstands : StandsAt fileLines (oldLines h.lines) h.position)
    (hfound : FoundInPlace (done ++ fileLines.drop cursor) h
      (done.length + (h.position - cursor))) :
    applyLoop (done ++ fileLines.drop cursor) (h.patchHunk :: rest)
      = applyLoop (done ++ (fileLines.drop cursor).take (h.position - cursor) ++ newLines h.lines ++
          fileLines.drop h.edit.stop) rest := by
  have hedit : h.edit.stop = h.position + (oldLines h.lines).length := rfl
  have hdrop : (done ++ fileLines.drop cursor).drop (done.length + (h.position - cursor))
      = fileLines.drop h.position := Edit.drop_rewritten done hle
  have hsize : (done ++ fileLines.drop cursor).length
      = done.length + (fileLines.length - cursor) := by
    rw [length_append, length_drop]
  have hplace : findHunkMatch (done ++ fileLines.drop cursor) h.patchHunk
      = ((done.length + (h.position - cursor) : ℕ) : ℤ) := by
    refine (findHunkMatch_iff ?_ (by omega)).mpr hfound
    rw [StandsAt, hdrop]
    exact hstands
  have hbefore : slice (done ++ fileLines.drop cursor) 0
      ((done.length + (h.position - cursor) : ℕ) : ℤ)
      = done ++ (fileLines.drop cursor).take (h.position - cursor) := by
    refine (@slice_eq _ _ 0 _ (Nat.zero_le _) (by omega)).trans ?_
    rw [drop_zero, Nat.sub_zero]
    exact Edit.take_rewritten done h.position
  have hafter : slice (done ++ fileLines.drop cursor)
      (((done.length + (h.position - cursor) : ℕ) : ℤ) + (oldLines h.lines).length)
      (done ++ fileLines.drop cursor).length = fileLines.drop h.edit.stop := by
    refine (@slice_to_length _ _ (done.length + (h.position - cursor) +
      (oldLines h.lines).length) (by omega)).trans ?_
    rw [← drop_drop, hdrop, drop_drop, hedit]
  have hexpected : expectedOldLines h.patchHunk.lines = oldLines h.lines :=
    expectedOldLines_patchLine h.lines
  have hnew : replacementLines h.patchHunk.lines = newLines h.lines :=
    replacementLines_patchLine h.lines
  rw [applyLoop, hplace, if_neg (by omega), hexpected, hnew, hbefore, hafter]

/-- **Run lemma.**  Hunks that are found in their places are applied as the edits that they are. -/
theorem applyLoop_placed {fileLines done : List Text} {cursor : ℕ} {hunks : List DiffHunk}
    (horder : Edit.InOrder fileLines.length cursor (hunks.map DiffHunk.edit))
    (hstands : ∀ h ∈ hunks, StandsAt fileLines (oldLines h.lines) h.position)
    (hplaced : Placed fileLines cursor done hunks) :
    applyLoop (done ++ fileLines.drop cursor) (hunks.map DiffHunk.patchHunk)
      = .ok (done ++ Edit.splice fileLines cursor (hunks.map DiffHunk.edit)) := by
  induction hunks generalizing cursor done with
  | nil => rfl
  | cons h rest ih =>
    obtain ⟨hfound, hplaced⟩ := hplaced
    have hrest := ih horder.2 (fun h' hh' => hstands h' (mem_cons_of_mem _ hh')) hplaced
    rw [map_cons, applyLoop_cons horder.1 horder.2.cursor_le
      (hstands h mem_cons_self) hfound, hrest]
    show Except.ok (done ++ _ ++ _ ++ _) = Except.ok (done ++ (_ ++ _ ++ _))
    rw [append_assoc, append_assoc, append_assoc]
    rfl

/-! ## The whole diff -/

theorem splitBreaks_eq {s : Text} (h : IsLF s) : splitBreaks s = splitLines s :=
  splitBreaks_eq_of_dropLast fun line hline => h line (dropLast_subset _ hline)

/-- A line of a hunk is one of the old text or of the new one. -/
theorem IsDiff.isLine {old new : Text} {hunks : List DiffHunk} (hdiff : IsDiff old new hunks)
    (hold : IsLF old) (hnew : IsLF new) {h : DiffHunk} (hh : h ∈ hunks) {l : HunkLine Text}
    (hl : l ∈ h.lines) : IsLine l.encode := by
  have htext : ∀ {s : Text}, IsLF s → ∀ line ∈ textLines s, IsLine line := by
    intro s hs line hline
    have hmem : line ∈ splitLines s := by
      rw [splitLines_eq]
      exact mem_append_left _ hline
    exact ⟨newline_notMem_splitLines hmem, hs line hmem⟩
  have holdLine : ∀ line ∈ oldLines h.lines, IsLine line := by
    intro line hline
    rw [← hdiff.stands h hh] at hline
    exact htext hold line (mem_of_mem_drop (mem_of_mem_take hline))
  have hnewLine : ∀ line ∈ newLines h.lines, IsLine line := by
    intro line hline
    refine htext hnew line ?_
    rw [hdiff.result]
    exact Edit.mem_splice (mem_map_of_mem hh) hline
  have hsign : ∀ sign : UInt16, sign ≠ newline ∧ sign ≠ 0xD → ∀ line, IsLine line →
      IsLine (sign :: line) := fun sign hsign line hline =>
    @IsLine.append [sign] _ (by simp [hsign.1.symm, hsign.2.symm]) hline
  cases l with
  | context line =>
    exact hsign _ (by decide) line (holdLine line (mem_filterMap.mpr ⟨_, hl, rfl⟩))
  | delete line =>
    exact hsign _ (by decide) line (holdLine line (mem_filterMap.mpr ⟨_, hl, rfl⟩))
  | insert line =>
    exact hsign _ (by decide) line (hnewLine line (mem_filterMap.mpr ⟨_, hl, rfl⟩))

namespace IsDiff

variable {old new : Text} {hunks : List DiffHunk} (hdiff : IsDiff old new hunks)
include hdiff

/-- The hunks are in order in the lines of the old text, with what follows the last newline. -/
theorem order_splitLines : Edit.InOrder (splitLines old).length 0 (hunks.map DiffHunk.edit) := by
  refine hdiff.order.grow ?_
  rw [splitLines_eq, length_append]
  exact Nat.le_add_right _ _

theorem stands_splitLines :
    ∀ h ∈ hunks, StandsAt (splitLines old) (oldLines h.lines) h.position := by
  intro h hh
  rw [splitLines_eq]
  exact (hdiff.stands h hh).append (hdiff.order.stop_le (mem_map_of_mem hh)) _

/-- The edits leave the end of the old text. -/
theorem splice_splitLines :
    Edit.splice (splitLines old) 0 (hunks.map DiffHunk.edit) = textLines new ++ lineEnd old := by
  rw [splitLines_eq, Edit.splice_append hdiff.order, ← hdiff.result]

end IsDiff

/-- The end of the old text is that of the new one, where both texts end their last line, or
neither does, or there is no line to end. -/
theorem joinLines_textLines {old new : Text} (hend : (EndsLine old ↔ EndsLine new) ∨ new = []) :
    joinLines (textLines new ++ lineEnd old) = new := by
  rcases hend with hend | rfl
  · have hlineEnd : lineEnd old = lineEnd new := by
      unfold lineEnd
      exact if_congr hend rfl rfl
    rw [hlineEnd, ← splitLines_eq, joinLines_splitLines]
  · unfold lineEnd
    split <;> rfl

/-- A diff of a text with hunks, none of whose lines looks like a name, is read back as one
update, and gives the new text if every hunk is found in its place. -/
theorem unified_diff_applies {old new path : Text} {names : DiffNames} {hunks : List DiffHunk}
    (hold : IsLF old) (hnew : IsLF new) (hdiff : IsDiff old new hunks) (hnames : names.Names path)
    (hne : hunks ≠ []) (hread : ∀ h ∈ hunks, h.Readable)
    (hend : (EndsLine old ↔ EndsLine new) ∨ new = [])
    (hplaced : Placed (splitLines old) 0 [] hunks) (ended : Bool) :
    parseUnifiedDiff (encodeDiff names hunks ended)
        = [⟨.update, path, hunks.map DiffHunk.patchHunk, none⟩] ∧
      applyHunks old (hunks.map DiffHunk.patchHunk) = .ok new := by
  have hparse := parseUnifiedDiff_encodeDiff hnames hne hread
    (fun h hh l hl => hdiff.isLine hold hnew hh hl) ended
  refine ⟨hparse, ?_⟩
  have hloop := @applyLoop_placed _ [] _ _ hdiff.order_splitLines hdiff.stands_splitLines hplaced
  rw [drop_zero, nil_append, nil_append, hdiff.splice_splitLines] at hloop
  rw [applyHunks, splitBreaks_eq hold, hloop]
  exact congrArg Except.ok (joinLines_textLines hend)

/-- The names of a file `f`. -/
def plainNames : DiffNames := ⟨[], text "a/f", text "b/f"⟩

/-- The second hunk is looked for at a stale number, and is found in its place all the same. -/
theorem shifted_hunk_applies :
    let hunks : List DiffHunk := [
      ⟨0, [(.insert (text "0"), false), (.context (text "a"), false)], 1, ⟨false, false, []⟩⟩,
      ⟨1, [(.delete (text "b"), false), (.context (text "c"), true)], 3,
        ⟨false, true, text " b()"⟩⟩]
    parseUnifiedDiff (encodeDiff plainNames hunks true)
        = [⟨.update, text "f", hunks.map DiffHunk.patchHunk, none⟩] ∧
      applyHunks (text "a\nb\nc") (hunks.map DiffHunk.patchHunk) = .ok (text "0\na\nc") := by
  intro hunks
  refine unified_diff_applies (by decide) (by decide) ?_ ?_ (by decide) ?_ (by decide) ?_ true
  · exact ⟨⟨by decide, by decide, Nat.le_refl 3⟩, by decide, by decide⟩
  · exact ⟨by decide, by decide, by decide, by decide, by decide, by decide⟩
  · intro h hh
    rcases mem_cons.mp hh with rfl | hh
    · exact ⟨by decide, by decide, by decide⟩
    · rw [mem_singleton.mp hh]
      exact ⟨by decide, by decide, by decide⟩
  · exact ⟨by decide, by decide, trivial⟩

/-- A line that is inserted without context lands before the line that it should follow. -/
theorem insertion_is_a_line_early :
    let old := text "a\nb\n"
    let new := text "a\nx\nb\n"
    let hunks : List DiffHunk := [⟨1, [(.insert (text "x"), false)], 2, ⟨false, true, []⟩⟩]
    IsLF old ∧ IsLF new ∧ IsDiff old new hunks ∧ plainNames.Names (text "f") ∧
      encodeDiff plainNames hunks true = text "--- a/f\n+++ b/f\n@@ -1,0 +2 @@\n+x\n" ∧
      parseUnifiedDiff (encodeDiff plainNames hunks true)
        = [⟨.update, text "f", hunks.map DiffHunk.patchHunk, none⟩] ∧
      applyHunks old (hunks.map DiffHunk.patchHunk) = .ok (text "x\na\nb\n") ∧
      applyHunks old (hunks.map DiffHunk.patchHunk) ≠ .ok new := by
  intro old new hunks
  have hdiff : IsDiff old new hunks :=
    ⟨⟨by decide, Nat.le_of_ble_eq_true rfl⟩, by decide, by decide⟩
  have hnames : plainNames.Names (text "f") :=
    ⟨by decide, by decide, by decide, by decide, by decide, by decide⟩
  have hread : ∀ h ∈ hunks, h.Readable := by
    intro h hh
    rw [mem_singleton.mp hh]
    exact ⟨by decide, by decide, by decide⟩
  have hparse := parseUnifiedDiff_encodeDiff hnames (cons_ne_nil _ _) hread
    (fun h hh l hl => hdiff.isLine (by decide) (by decide) hh hl) true
  have hzero : decimal 0 = text "0" := by
    rw [decimal]
    rfl
  have hone : decimal 1 = text "1" := by
    rw [decimal]
    rfl
  have htwo : decimal 2 = text "2" := by
    rw [decimal]
    rfl
  have hheader : encodeHeader ⟨false, true, []⟩ 1 0 2 1 = text "@@ -1,0 +2 @@" := by
    rw [encodeHeader, encodeRange, encodeRange, hzero, hone, htwo]
    rfl
  have hencode : hunks.flatMap DiffHunk.encode = [text "@@ -1,0 +2 @@", text "+x"] := by
    rw [← hheader]
    rfl
  have happly : applyHunks old (hunks.map DiffHunk.patchHunk) = .ok (text "x\na\nb\n") := rfl
  refine ⟨by decide, by decide, hdiff, hnames, ?_, hparse, happly, fun heq => ?_⟩
  · rw [encodeDiff, hencode]
    rfl
  · exact absurd (Except.ok.inj (happly.symm.trans heq)) (by decide)

end Lumi.Unified
