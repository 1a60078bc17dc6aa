import Lumi.SearchReplace.Overlap

/-!
# The preview of a diff that is still written

While a diff comes in, the first constructor shows the file as far as it is known: the result grows
line by line, and the final result is rebuilt from the stored replacements instead.  Where blocks are
found in turn the two agree, but for one thing.  A separator that is met again in a replacement copies
the text before the block a second time, and the rebuilt file has it once.
-/

namespace Lumi.SearchReplace

open Js List

/-- What holds in the state before every line, as far as the run gets. -/
def AlongV1 (originalContent : Text) (P : StateV1 → Text → Prop) : StateV1 → List Text → Prop
  | _, [] => True
  | st, line :: rest =>
    P st line ∧
      match processLineV1 originalContent st line with
      | .ok st' => AlongV1 originalContent P st' rest
      | .error _ => True

instance decidableAlongV1 (originalContent : Text) (P : StateV1 → Text → Prop)
    [∀ st line, Decidable (P st line)] :
    (st : StateV1) → (lines : List Text) → Decidable (AlongV1 originalContent P st lines)
  | _, [] => .isTrue trivial
  | st, line :: rest =>
    have : Decidable (match processLineV1 originalContent st line with
        | .ok st' => AlongV1 originalContent P st' rest
        | .error _ => True) :=
      match processLineV1 originalContent st line with
      | .ok st' => decidableAlongV1 originalContent P st' rest
      | .error _ => .isTrue trivial
    inferInstanceAs (Decidable (P st line ∧ _))

namespace StateV1

/-- No search marker stands inside a replacement, and a block is found from the cursor on. -/
def InTurn (originalContent : Text) (st : StateV1) (line : Text) : Prop :=
  (isSearchBlockStart line = true → st.inReplace = false) ∧
    (isSearchBlockEnd line = true →
      ∀ found ∈ (locateV1 originalContent st.currentSearchContent st.lastProcessedIndex).toOption,
        st.lastProcessedIndex ≤ found.1)

instance (originalContent : Text) (st : StateV1) (line : Text) :
    Decidable (st.InTurn originalContent line) :=
  inferInstanceAs (Decidable (_ ∧ (_ → ∀ found ∈ Except.toOption _, _)))

/-- A separator that is met again has no text before the block to copy. -/
def NoEcho (st : StateV1) (line : Text) : Prop :=
  isSearchBlockEnd line = true → st.inReplace = true → st.searchMatchIndex = st.lastProcessedIndex

instance (st : StateV1) (line : Text) : Decidable (st.NoEcho line) :=
  inferInstanceAs (Decidable (_ → _ → _))

variable {originalContent line : Text} {st st' : StateV1}

/-! ## The result so far -/

/-- The result only grows. -/
theorem prefix_of_round (h : RoundV1 originalContent line st st') : st.result <+: st'.result := by
  cases h with
  | start => exact prefix_refl _
  | middle _ found outOfOrder =>
    show st.result <+: if outOfOrder = true then _ else _
    split_ifs
    · exact prefix_refl _
    · exact prefix_append _ _
  | finish => exact prefix_refl _
  | search => exact prefix_refl _
  | replace =>
    show st.result <+: if _ then _ else _
    split_ifs
    · exact prefix_append _ _
    · exact prefix_refl _
  | skip => exact prefix_refl _

/-- The result is what the stored replacements and the open block will be rebuilt as. -/
structure Streamed (originalContent : Text) (st : StateV1) : Prop where
  sound : st.Sound originalContent
  inTurn : st.pendingOutOfOrderReplacement = false
  sorted : st.replacements.Pairwise Replacement.before
  behind : ∀ r ∈ st.replacements, r.start ≤ st.lastProcessedIndex
  reading : st.inReplace = true → st.searchMatchIndex ≠ -1 ∧ st.inSearch = false ∧
    locateV1 originalContent st.currentSearchContent st.lastProcessedIndex
      = .ok (st.searchMatchIndex, st.searchEndIndex)
  idle : st.inReplace = false → st.searchMatchIndex = -1 ∧ st.currentReplaceContent = []
  rebuilt : ∃ front,
    (∀ more, rebuild originalContent 0 (st.replacements ++ more)
      = front ++ rebuild originalContent st.lastProcessedIndex more) ∧
    st.result = front ++ if st.inReplace then
      slice originalContent st.lastProcessedIndex st.searchMatchIndex ++ st.currentReplaceContent
      else []

theorem streamed_start (originalContent : Text) : StateV1.start.Streamed originalContent where
  sound := sound_start originalContent
  inTurn := rfl
  sorted := List.Pairwise.nil
  behind := fun _ hr => absurd hr not_mem_nil
  reading := fun h => absurd h Bool.false_ne_true
  idle := fun _ => ⟨rfl, rfl⟩
  rebuilt := ⟨[], fun _ => rfl, rfl⟩

section

variable (h : st.Streamed originalContent)
include h

/-- Storing the open block does not change what is rebuilt. -/
theorem Streamed.store (hreplace : st.inReplace = true) : st.store.Streamed originalContent := by
  obtain ⟨hmatch, -, -⟩ := h.reading hreplace
  obtain ⟨hrange, hle⟩ := h.sound.candidate hmatch
  have hle : st.lastProcessedIndex ≤ st.searchMatchIndex := hle h.inTurn
  have hstop : st.searchMatchIndex ≤ st.searchEndIndex := hrange.le_stop
  have hcursor : st.store.lastProcessedIndex = st.searchEndIndex := by
    show (if st.pendingOutOfOrderReplacement then _ else _) = _
    rw [h.inTurn]
    rfl
  refine ⟨h.sound.store hmatch, rfl, ?_, ?_, fun hopen => absurd hopen Bool.false_ne_true,
    fun _ => ⟨rfl, rfl⟩, ?_⟩
  · show (st.replacements ++ [st.candidate]).Pairwise _
    refine pairwise_append.mpr ⟨h.sorted, pairwise_singleton _ _, fun r hr c hc => ?_⟩
    rw [mem_singleton.mp hc]
    exact (h.behind r hr).trans hle
  · intro r hr
    rw [hcursor]
    rcases mem_append.mp hr with hr | hr
    · exact (h.behind r hr).trans (hle.trans hstop)
    · rw [mem_singleton.mp hr]
      exact hstop
  · obtain ⟨front, hfront, hresult⟩ := h.rebuilt
    rw [if_pos hreplace] at hresult
    refine ⟨st.result, fun more => ?_, (append_nil _).symm⟩
    calc rebuild originalContent 0 (st.replacements ++ [st.candidate] ++ more)
        = front ++ rebuild originalContent st.lastProcessedIndex (st.candidate :: more) := by
          rw [append_assoc, hfront]
          rfl
      _ = st.result ++ rebuild originalContent st.searchEndIndex more := by
          rw [hresult, append_assoc]
          rfl
      _ = st.result ++ rebuild originalContent st.store.lastProcessedIndex more := by
          rw [hcursor]

/-- **Step lemma.**  Where blocks are found in turn and nothing is copied twice, every round keeps
the result at what will be rebuilt. -/
theorem Streamed.processLine (hline : newline ∉ line) (hturn : st.InTurn originalContent line)
    (hecho : st.NoEcho line) (hstep : processLineV1 originalContent st line = .ok st') :
    st'.Streamed originalContent := by
  have hsound := h.sound.processLine hline hstep
  obtain ⟨front, hfront, hresult⟩ := h.rebuilt
  cases roundV1_of_ok hstep with
  | start hmark =>
    have hclosed := hturn.1 hmark
    refine ⟨hsound, h.inTurn, h.sorted, h.behind, fun hopen => ?_, fun _ => ?_,
      ⟨front, hfront, ?_⟩⟩
    · exact absurd (hopen.symm.trans hclosed) (by decide)
    · exact ⟨(h.idle hclosed).1, rfl⟩
    · show st.result = front ++ if st.inReplace then _ else _
      rw [hresult, hclosed]
      rfl
  | middle hmark found outOfOrder hlocate horder =>
    have hle : st.lastProcessedIndex ≤ found.1 :=
      hturn.2 hmark found (by rw [hlocate]; exact rfl)
    have hin : outOfOrder = false := by
      rw [horder, h.inTurn, Bool.false_or, decide_eq_false_iff_not]
      omega
    subst hin
    refine ⟨hsound, rfl, h.sorted, h.behind, fun _ => ⟨?_, rfl, hlocate⟩,
      fun hclosed => absurd hclosed.symm Bool.false_ne_true, ⟨front, hfront, ?_⟩⟩
    · have hcursor := h.sound.cursor
      show found.1 ≠ -1
      omega
    · show st.result ++ slice originalContent st.lastProcessedIndex found.1
        = front ++ (slice originalContent st.lastProcessedIndex found.1
          ++ st.currentReplaceContent)
      rw [hresult]
      by_cases hreplace : st.inReplace = true
      · -- the block is found where it was found before, at the cursor
        have hsame := Except.ok.inj (hlocate.symm.trans (h.reading hreplace).2.2)
        have hempty : slice originalContent st.lastProcessedIndex st.searchMatchIndex = [] := by
          rw [hecho hmark hreplace, slice, Nat.sub_self, take_zero]
        rw [if_pos hreplace, hsame, hempty, append_nil]
      · rw [if_neg hreplace, (h.idle (Bool.eq_false_iff.mpr hreplace)).2, append_nil,
          append_nil]
  | finish _ hmatch =>
    refine h.store ?_
    by_contra hclosed
    exact hmatch (h.idle (Bool.eq_false_iff.mpr hclosed)).1
  | search _ hsearch =>
    refine ⟨hsound, h.inTurn, h.sorted, h.behind, fun hopen => ?_, h.idle, ⟨front, hfront, hresult⟩⟩
    exact absurd (hsearch.symm.trans (h.reading hopen).2.1) (by decide)
  | replace _ _ hreplace =>
    have hmatch := (h.reading hreplace).1
    refine ⟨hsound, h.inTurn, h.sorted, h.behind, h.reading, fun hclosed => ?_,
      ⟨front, hfront, ?_⟩⟩
    · exact absurd (hreplace.symm.trans hclosed) (by decide)
    · show (if st.searchMatchIndex ≠ -1 && !st.pendingOutOfOrderReplacement then _ else _)
        = front ++ if st.inReplace then _ else _
      rw [h.inTurn, if_pos (by simpa using hmatch), hresult, if_pos hreplace, if_pos hreplace,
        append_assoc, append_assoc]
  | skip => exact h

/-- The rebuilt file begins with the result. -/
theorem Streamed.prefix_rebuild :
    st.result <+:
      rebuild originalContent 0 (st.close.replacements.insertionSort Replacement.before) := by
  have hclosed : ∀ st : StateV1, st.Streamed originalContent → st.inReplace = false →
      st.result <+: rebuild originalContent 0 (st.replacements.insertionSort Replacement.before) := by
    intro st h hclosed
    obtain ⟨front, hfront, hresult⟩ := h.rebuilt
    have hrebuild := hfront []
    rw [append_nil] at hrebuild
    rw [List.Pairwise.insertionSort_eq h.sorted, hrebuild, hresult, hclosed,
      if_neg Bool.false_ne_true, append_nil]
    exact prefix_append _ _
  rw [close]
  by_cases hreplace : st.inReplace = true
  · rw [if_pos (by simpa using ⟨hreplace, (h.reading hreplace).1⟩)]
    exact hclosed st.store (h.store hreplace) rfl
  · rw [if_neg (by simp [hreplace])]
    exact hclosed st h (Bool.eq_false_iff.mpr hreplace)

end

end StateV1

/-! ## Runs over the lines -/

section

variable {originalContent : Text} {lines : List Text} {st st' : StateV1}

theorem prefix_of_foldlM (hrun : lines.foldlM (processLineV1 originalContent) st = .ok st') :
    st.result <+: st'.result := by
  induction lines generalizing st with
  | nil => exact Except.ok.inj hrun ▸ prefix_refl _
  | cons line rest ih =>
    cases hstep : processLineV1 originalContent st line with
    | error e =>
      rw [foldlM_cons_error hstep] at hrun
      cases hrun
    | ok mid =>
      rw [foldlM_cons_ok hstep] at hrun
      exact (StateV1.prefix_of_round (roundV1_of_ok hstep)).trans (ih hrun)

/-- **Run lemma.** -/
theorem StateV1.Streamed.foldlM (h : st.Streamed originalContent)
    (hlines : ∀ line ∈ lines, newline ∉ line)
    (hturn : AlongV1 originalContent (StateV1.InTurn originalContent) st lines)
    (hecho : AlongV1 originalContent StateV1.NoEcho st lines)
    (hrun : lines.foldlM (processLineV1 originalContent) st = .ok st') :
    st'.Streamed originalContent := by
  induction lines generalizing st with
  | nil => exact Except.ok.inj hrun ▸ h
  | cons line rest ih =>
    cases hstep : processLineV1 originalContent st line with
    | error e =>
      rw [foldlM_cons_error hstep] at hrun
      cases hrun
    | ok mid =>
      rw [foldlM_cons_ok hstep] at hrun
      rw [AlongV1, hstep] at hturn hecho
      exact ih (h.processLine (hlines line mem_cons_self) hturn.1 hecho.1 hstep)
        (fun l hl => hlines l (mem_cons_of_mem _ hl)) hturn.2 hecho.2 hrun

/-- A run that succeeds has succeeded on the lines before. -/
theorem foldlM_of_prefix {front : List Text} (hfront : front <+: lines)
    (hrun : lines.foldlM (processLineV1 originalContent) st = .ok st') :
    ∃ mid, front.foldlM (processLineV1 originalContent) st = .ok mid ∧
      mid.result <+: st'.result := by
  obtain ⟨back, rfl⟩ := hfront
  cases hmid : front.foldlM (processLineV1 originalContent) st with
  | error e =>
    rw [foldlM_append_error hmid] at hrun
    cases hrun
  | ok mid =>
    rw [foldlM_append_ok hmid] at hrun
    exact ⟨mid, rfl, prefix_of_foldlM hrun⟩

end

/-! ## The first lines of a diff -/

section

variable (diffContent : Text)

/-- The lines that count among the first `k`: a last one may be the beginning of a marker. -/
def previewLines : ℕ → List Text
  | 0 => []
  | k + 1 => dropPartialMarker (fun line => isSearchBlockStart line || isSearchBlockEnd line ||
      isReplaceBlockEnd line) ((splitLines diffContent).take (k + 1))

theorem prefix_dropPartialMarker (isKnown : Text → Bool) (lines : List Text) :
    dropPartialMarker isKnown lines <+: lines ∧ lines.dropLast <+: dropPartialMarker isKnown lines := by
  unfold dropPartialMarker
  split_ifs
  · exact ⟨List.dropLast_prefix _, prefix_refl _⟩
  · exact ⟨prefix_refl _, dropLast_prefix _⟩

theorem previewLines_prefix_succ (k : ℕ) :
    previewLines diffContent k <+: previewLines diffContent (k + 1) := by
  cases k with
  | zero => exact nil_prefix
  | succ k =>
    by_cases hk : k + 1 < (splitLines diffContent).length
    · have hdrop : ((splitLines diffContent).take (k + 2)).dropLast
          = (splitLines diffContent).take (k + 1) := by
        rw [dropLast_eq_take, take_take, length_take]
        refine congrArg (fun n => (splitLines diffContent).take n) ?_
        omega
      have hless : previewLines diffContent (k + 1) <+: (splitLines diffContent).take (k + 1) :=
        (prefix_dropPartialMarker _ _).1
      have hmore : (splitLines diffContent).take (k + 1) <+: previewLines diffContent (k + 2) :=
        hdrop ▸ (prefix_dropPartialMarker _ _).2
      exact hless.trans hmore
    · have hall : previewLines diffContent (k + 1) = previewLines diffContent (k + 2) := by
        rw [previewLines, previewLines, take_of_length_le (by omega),
          take_of_length_le (by omega)]
      exact ⟨[], by rw [append_nil, hall]⟩

theorem previewLines_mono {k k' : ℕ} (h : k ≤ k') :
    previewLines diffContent k <+: previewLines diffContent k' := by
  induction h with
  | refl => exact prefix_refl _
  | step _ ih => exact ih.trans (previewLines_prefix_succ diffContent _)

theorem previewLines_prefix_linesV1 (k : ℕ) :
    previewLines diffContent k <+: linesV1 diffContent := by
  have hall : previewLines diffContent ((splitLines diffContent).length + k + 1)
      = linesV1 diffContent := by
    rw [previewLines, take_of_length_le (by omega)]
    rfl
  exact hall ▸ previewLines_mono diffContent (by omega)

end

/-- The loop on the first `k` lines. -/
theorem constructNewFileContentV1_take {diffContent originalContent : Text} {k : ℕ} {st : StateV1}
    (hrun : (previewLines diffContent k).foldlM (processLineV1 originalContent) .start = .ok st) :
    constructNewFileContentV1 (joinLines ((splitLines diffContent).take k)) originalContent false
      = .ok ⟨st.result, st.replacements.map Replacement.start⟩ := by
  cases k with
  | zero =>
    obtain rfl : StateV1.start = st := Except.ok.inj hrun
    rfl
  | succ k =>
    have hne : (splitLines diffContent).take (k + 1) ≠ [] := by
      rw [ne_eq, take_eq_nil_iff]
      have hsplit := splitLines_ne_nil diffContent
      tauto
    have hsplit := splitLines_joinLines hne fun line hline =>
      newline_notMem_splitLines (mem_of_mem_take hline)
    rw [constructNewFileContentV1, hsplit]
    have hloop : (dropPartialMarker (fun line => isSearchBlockStart line ||
        isSearchBlockEnd line || isReplaceBlockEnd line)
          ((splitLines diffContent).take (k + 1))).foldlM (processLineV1 originalContent) .start
        = .ok st := hrun
    simp only [hloop]
    rfl

/-- The previews of the first lines grow, and each is the beginning of the file. -/
def Previews (diffContent originalContent newContent : Text) : Prop :=
  ∃ preview : ℕ → NewFile,
    (∀ k, constructNewFileContentV1 (joinLines ((splitLines diffContent).take k)) originalContent
      false = .ok (preview k)) ∧
    (∀ k, (preview k).newContent <+: newContent) ∧
    ∀ k k', k ≤ k' → (preview k).newContent <+: (preview k').newContent

/-- Where blocks are found in turn, and nothing is copied twice, the previews are the file as far as
it is known. -/
theorem previews_of_noEcho {diffContent originalContent : Text} {file : NewFile}
    (hfinal : constructNewFileContentV1 diffContent originalContent true = .ok file)
    (hturn : AlongV1 originalContent (StateV1.InTurn originalContent) .start (linesV1 diffContent))
    (hecho : AlongV1 originalContent StateV1.NoEcho .start (linesV1 diffContent)) :
    Previews diffContent originalContent file.newContent := by
  rw [constructNewFileContentV1_eq_rebuild, replacementsV1] at hfinal
  cases hrun : (linesV1 diffContent).foldlM (processLineV1 originalContent) .start with
  | error e =>
    rw [hrun] at hfinal
    cases hfinal
  | ok st =>
    rw [hrun] at hfinal
    obtain rfl := Except.ok.inj hfinal
    have hstreamed := (StateV1.streamed_start originalContent).foldlM
      (newline_notMem_linesV1 diffContent) hturn hecho hrun
    have hshown (k : ℕ) : ∃ mid,
        (previewLines diffContent k).foldlM (processLineV1 originalContent) .start = .ok mid ∧
          mid.result <+: st.result :=
      foldlM_of_prefix (previewLines_prefix_linesV1 diffContent k) hrun
    choose state hstate hextends using hshown
    refine ⟨fun k => ⟨(state k).result, (state k).replacements.map Replacement.start⟩,
      fun k => constructNewFileContentV1_take (hstate k),
      fun k => (hextends k).trans hstreamed.prefix_rebuild, fun k k' hle => ?_⟩
    obtain ⟨mid, hmid, hgrow⟩ :=
      foldlM_of_prefix (previewLines_mono diffContent hle) (hstate k')
    obtain rfl := Except.ok.inj (hmid.symm.trans (hstate k))
    exact hgrow

section

/-- The second line is replaced, with a line of equals signs in the replacement. -/
def echoDiff : Text := text "------- SEARCH\nb\n=======\nX\n====\nY\n+++++++ REPLACE"

/-- At the beginning of the file there is nothing to copy twice. -/
theorem previews_of_first_block : Previews echoDiff (text "b\nc\n") (text "X\nY\nc\n") :=
  @previews_of_noEcho _ _ ⟨text "X\nY\nc\n", [0]⟩ (by decide +kernel) (by decide +kernel)
    (by decide +kernel)

/-- The line before the block is shown twice. -/
theorem echo_not_previews :
    constructNewFileContentV1 echoDiff (text "a\nb\n") true = .ok ⟨text "a\nX\nY\n", [2]⟩ ∧
      AlongV1 (text "a\nb\n") (StateV1.InTurn (text "a\nb\n")) .start (linesV1 echoDiff) ∧
      ¬ Previews echoDiff (text "a\nb\n") (text "a\nX\nY\n") := by
  refine ⟨by decide +kernel, by decide +kernel, ?_⟩
  rintro ⟨preview, hpreview, hstate, -⟩
  have hshown : constructNewFileContentV1 (joinLines ((splitLines echoDiff).take 7))
      (text "a\nb\n") false = .ok ⟨text "a\nX\na\nY\n", [2]⟩ := by decide +kernel
  have hseven := hstate 7
  rw [← Except.ok.inj (hshown.symm.trans (hpreview 7))] at hseven
  exact absurd hseven (by decide)

end

end Lumi.SearchReplace
