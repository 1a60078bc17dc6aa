import Lumi.Lib.Trim
import Lumi.Mutation.GovernedDiff

/-!
# What a governed patch writes

`applyPatch` computes the new content of its file and writes it where it differs from the old one.
A chunk is idle where it puts back the lines that it takes out, and a patch whose chunks are all
idle writes nothing.  Among idle chunks, one that is not is always written.
-/

namespace Lumi.Mutation

open Js Unified List Option

/-! ## The computation -/

/-- What stands for the replacement text: `$$`, `` $` ``, `$&` and `$'` are patterns in it. -/
def expandReplacement (content search : Text) (position : ℕ) : Text → Text
  | 0x24 :: 0x24 :: rest => 0x24 :: expandReplacement content search position rest
  | 0x24 :: 0x60 :: rest =>
    content.take position ++ expandReplacement content search position rest
  | 0x24 :: 0x26 :: rest => search ++ expandReplacement content search position rest
  | 0x24 :: 0x27 :: rest =>
    content.drop (position + search.length) ++ expandReplacement content search position rest
  | c :: rest => c :: expandReplacement content search position rest
  | [] => []

/-- `content.replace(search, replace)`, of the first occurrence. -/
def applyLineSearchReplace (content search replace : Text) : Text :=
  if search = [] then content
  else
    match indexOf content search 0 with
    | none => content
    | some position =>
      content.take position ++ expandReplacement content search position replace ++
        content.drop (position + search.length)

structure PatchRequest where
  unifiedDiff : Text
  lineSearch : Text
  lineReplace : Text

inductive PatchOutcome
  /-- `patch_invalid` -/
  | invalid
  /-- `No changes applied` -/
  | unchanged
  | written (postContent : Text)
  deriving DecidableEq

/-- What `applyPatch` does once it has read the file. -/
def computePatch (beforeContent : Text) (request : PatchRequest) : PatchOutcome :=
  let outcome (postContent : Text) : PatchOutcome :=
    if beforeContent = postContent then .unchanged else .written postContent
  if trim request.unifiedDiff ≠ [] then
    outcome (applyUnifiedDiff beforeContent request.unifiedDiff)
  else if trim request.lineSearch ≠ [] then
    outcome (applyLineSearchReplace beforeContent request.lineSearch request.lineReplace)
  else .invalid

/-! ## Diffs with chunks -/

variable {lines : List Text}

theorem subset_intercalate {separator line : Text} (h : line ∈ lines) :
    line ⊆ separator.intercalate lines := by
  induction lines with
  | nil => cases h
  | cons first rest ih =>
    by_cases hrest : rest = []
    · subst hrest
      rw [intercalate_singleton, mem_singleton.mp h]
      exact List.Subset.refl first
    · rw [intercalate_cons_of_ne_nil hrest]
      rcases mem_cons.mp h with rfl | h
      · exact fun c hc => mem_append_left _ (mem_append_left _ hc)
      · exact fun c hc => mem_append_right _ (ih h hc)

theorem mem_of_mem_splitLines {s line : Text} (h : line ∈ splitLines s) {c : UInt16}
    (hc : c ∈ line) : c ∈ s := by
  rw [← joinLines_splitLines s]
  exact subset_intercalate h hc

theorem stripReturn_subset (line : Text) : stripReturn line ⊆ line := by
  unfold stripReturn
  split_ifs
  · exact dropLast_subset line
  · exact List.Subset.refl line

/-- A line of a text, without the carriage return, is part of a line feed line. -/
theorem exists_of_mem_splitBreaks {s line : Text} (h : line ∈ splitBreaks s) :
    ∃ line' ∈ splitLines s, line ⊆ line' := by
  rcases mem_append.mp h with h | h
  · obtain ⟨line', hline', rfl⟩ := mem_map.mp h
    exact ⟨line', dropLast_subset _ hline', stripReturn_subset line'⟩
  · exact ⟨line, mem_of_getLast? (mem_toList.mp h), List.Subset.refl line⟩

theorem newline_notMem_splitBreaks {s line : Text} (h : line ∈ splitBreaks s) : newline ∉ line := by
  obtain ⟨line', hline', hsub⟩ := exists_of_mem_splitBreaks h
  exact fun hc => newline_notMem_splitLines hline' (hsub hc)

theorem trim_eq_nil {s : Text} (h : trim s = []) : ∀ c ∈ s, isWhiteSpace c = true :=
  Trim.both_eq_nil_iff.mp h

/-- A diff with a chunk is more than white space. -/
theorem trim_ne_nil {diff : Text} (h : readChunks diff ≠ []) : trim diff ≠ [] := by
  intro htrim
  refine h ?_
  have hspace := trim_eq_nil htrim
  have hlines : ∀ line ∈ splitBreaks diff, startsWith line (text "@@") = false := by
    intro line hline
    rw [Bool.eq_false_iff]
    intro hstarts
    obtain ⟨rest, rfl⟩ := isPrefixOf_iff_prefix.mp hstarts
    obtain ⟨line', hline', hsub⟩ := exists_of_mem_splitBreaks hline
    have hat : isWhiteSpace 0x40 = true :=
      hspace 0x40 (mem_of_mem_splitLines hline' (hsub mem_cons_self))
    exact absurd hat (by decide)
  rw [readChunks, ChunkReader.read_preamble hlines]
  rfl

variable {chunk : Chunk}

theorem lines_readChunkHeader {line : Text} (h : readChunkHeader line = some chunk) :
    chunk.lines = [] := by
  unfold readChunkHeader at h
  split at h
  · simp only [bind_eq_bind, bind_some, bind_eq_some_iff] at h
    obtain ⟨_, -, _, -, _, -, _, -, _, -, h⟩ := h
    rw [← Option.some.inj h]
  · cases h

/-- The lines of the chunks are lines of the diff. -/
theorem ChunkReader.read_lines_mem {P : Text → Prop} {r : ChunkReader} {line : Text} (hline : P line)
    (hr : ∀ chunk ∈ r.all, ∀ l ∈ chunk.lines, P l) :
    ∀ chunk ∈ (r.read line).all, ∀ l ∈ chunk.lines, P l := by
  unfold read
  split
  · exact hr
  · split
    · next header hheader =>
      intro chunk hchunk
      rcases mem_append.mp hchunk with hchunk | hchunk
      · exact hr chunk hchunk
      · obtain rfl := mem_singleton.mp hchunk
        rw [lines_readChunkHeader hheader]
        simp
    · split
      · intro chunk hchunk
        rcases mem_append.mp hchunk with hchunk | hchunk
        · exact hr chunk (mem_append_left _ hchunk)
        · obtain ⟨before, hbefore, rfl⟩ := map_eq_some_iff.mp (mem_toList.mp hchunk)
          intro l hl
          rcases mem_append.mp hl with hl | hl
          · exact hr before (mem_append_right _ (mem_toList.mpr hbefore)) l hl
          · rwa [mem_singleton.mp hl]
      · exact hr

theorem mem_splitBreaks_of_mem_readChunks {diff : Text} (h : chunk ∈ readChunks diff) :
    ∀ line ∈ chunk.lines, line ∈ splitBreaks diff := by
  have hloop : ∀ (lines : List Text) (r : ChunkReader), (∀ line ∈ lines, line ∈ splitBreaks diff) →
      (∀ chunk ∈ r.all, ∀ line ∈ chunk.lines, line ∈ splitBreaks diff) →
      ∀ chunk ∈ (lines.foldl ChunkReader.read r).all, ∀ line ∈ chunk.lines,
        line ∈ splitBreaks diff := by
    intro lines
    induction lines with
    | nil => exact fun _ _ hr => hr
    | cons line rest ih =>
      exact fun r hlines hr => ih _ (fun l hl => hlines l (mem_cons_of_mem _ hl))
        (ChunkReader.read_lines_mem (hlines line mem_cons_self) hr)
  exact hloop _ .empty (fun _ hline => hline) (by simp [ChunkReader.empty, ChunkReader.all]) chunk h

theorem newline_notMem_inserted {diff : Text} (h : chunk ∈ readChunks diff) :
    ∀ line ∈ chunk.inserted, newline ∉ line := by
  intro line hline
  obtain ⟨l, hl, hread⟩ := mem_filterMap.mp hline
  have hfree := newline_notMem_splitBreaks (mem_splitBreaks_of_mem_readChunks h l hl)
  cases l with
  | nil =>
    obtain rfl := Option.some.inj hread
    exact hfree
  | cons c rest =>
    dsimp only at hread
    split_ifs at hread with hc
    obtain rfl := Option.some.inj hread
    exact fun hmem => hfree (mem_cons_of_mem c hmem)

/-! ## Idle chunks -/

/-- Where the chunk is spliced. -/
def Chunk.place (chunk : Chunk) (s : List Text × ℤ) : ℕ :=
  let startIdx := chunk.oldStart - 1 + s.2
  relativeIndex s.1 ((findMatch s.1 chunk.expectedDeleted startIdx).getD startIdx)

/-- The chunk puts back the lines that it takes out. -/
def Chunk.Idle (chunk : Chunk) (s : List Text × ℤ) : Prop :=
  (s.1.drop (chunk.place s)).take chunk.expectedDeleted.length = chunk.inserted

instance (chunk : Chunk) (s : List Text × ℤ) : Decidable (chunk.Idle s) :=
  inferInstanceAs (Decidable (_ = _))

def AllIdle : List Text × ℤ → List Chunk → Prop
  | _, [] => True
  | s, chunk :: rest => chunk.Idle s ∧ AllIdle (applyChunk s chunk) rest

theorem applyChunk_fst (s : List Text × ℤ) (chunk : Chunk) :
    (applyChunk s chunk).1 = s.1.take (chunk.place s) ++ chunk.inserted ++
      s.1.drop (chunk.place s + chunk.expectedDeleted.length) := rfl

/-- The lines are taken apart where the chunk is spliced. -/
theorem lines_eq (s : List Text × ℤ) (chunk : Chunk) :
    s.1 = s.1.take (chunk.place s) ++
      (s.1.drop (chunk.place s)).take chunk.expectedDeleted.length ++
      s.1.drop (chunk.place s + chunk.expectedDeleted.length) := by
  calc s.1 = s.1.take (chunk.place s) ++ s.1.drop (chunk.place s) :=
        (take_append_drop _ _).symm
    _ = s.1.take (chunk.place s) ++ ((s.1.drop (chunk.place s)).take chunk.expectedDeleted.length ++
          (s.1.drop (chunk.place s)).drop chunk.expectedDeleted.length) := by
        rw [take_append_drop chunk.expectedDeleted.length]
    _ = _ := by rw [drop_drop, append_assoc]

variable {s : List Text × ℤ}

/-- **Step lemma.**  A chunk leaves the lines if and only if it is idle. -/
theorem applyChunk_fst_eq_iff : (applyChunk s chunk).1 = s.1 ↔ chunk.Idle s := by
  rw [applyChunk_fst, Chunk.Idle]
  constructor
  · intro heq
    rw [append_assoc] at heq
    have hsplit := heq.trans (lines_eq s chunk)
    rw [append_assoc] at hsplit
    exact (append_cancel_right (append_cancel_left hsplit)).symm
  · intro hidle
    conv_rhs => rw [lines_eq s chunk, hidle]

theorem applyChunks_idle {chunks : List Chunk} (h : AllIdle s chunks) :
    (chunks.foldl applyChunk s).1 = s.1 := by
  induction chunks generalizing s with
  | nil => rfl
  | cons chunk rest ih => exact (ih h.2).trans (applyChunk_fst_eq_iff.mpr h.1)

/-- **Run lemma.**  Among idle chunks, one leaves the lines if and only if it is idle too. -/
theorem applyChunks_eq_iff {front rest : List Chunk} (hfront : AllIdle s front)
    (hrest : AllIdle (applyChunk (front.foldl applyChunk s) chunk) rest) :
    ((front ++ chunk :: rest).foldl applyChunk s).1 = s.1 ↔
      chunk.Idle (front.foldl applyChunk s) := by
  rw [foldl_append, foldl_cons, applyChunks_idle hrest, ← applyChunk_fst_eq_iff,
    applyChunks_idle hfront]

/-! ## What is written -/

theorem newline_notMem_applyChunk (hs : ∀ line ∈ s.1, newline ∉ line)
    (hinserted : ∀ line ∈ chunk.inserted, newline ∉ line) :
    ∀ line ∈ (applyChunk s chunk).1, newline ∉ line := by
  intro line hline
  rw [applyChunk_fst] at hline
  rcases mem_append.mp hline with hline | hline
  · rcases mem_append.mp hline with hline | hline
    · exact hs line (mem_of_mem_take hline)
    · exact hinserted line hline
  · exact hs line (mem_of_mem_drop hline)

theorem newline_notMem_applyChunks {chunks : List Chunk} (hs : ∀ line ∈ s.1, newline ∉ line)
    (hinserted : ∀ chunk ∈ chunks, ∀ line ∈ chunk.inserted, newline ∉ line) :
    ∀ line ∈ (chunks.foldl applyChunk s).1, newline ∉ line := by
  induction chunks generalizing s with
  | nil => exact hs
  | cons chunk rest ih =>
    exact ih (newline_notMem_applyChunk hs (hinserted chunk mem_cons_self))
      fun c hc => hinserted c (mem_cons_of_mem _ hc)

variable {content : Text}

/-- The lines are those of a text, if it is not empty, only where they are its own. -/
theorem joinLines_eq_iff (hcontent : content ≠ []) (hlines : ∀ line ∈ lines, newline ∉ line) :
    joinLines lines = content ↔ lines = splitLines content := by
  constructor
  · rintro rfl
    have hne : lines ≠ [] := by
      rintro rfl
      exact hcontent rfl
    exact (splitLines_joinLines hne hlines).symm
  · rintro rfl
    exact joinLines_splitLines content

theorem applyUnifiedDiff_eq {content diff : Text} (h : readChunks diff ≠ []) :
    applyUnifiedDiff content diff =
      joinLines ((readChunks diff).foldl applyChunk (splitBreaks content, 0)).1 := by
  rw [applyUnifiedDiff, if_neg (by simpa using h)]

variable {request : PatchRequest}

theorem computePatch_eq_unchanged_iff (h : readChunks request.unifiedDiff ≠ []) :
    computePatch content request = .unchanged ↔
      applyUnifiedDiff content request.unifiedDiff = content := by
  unfold computePatch
  rw [if_pos (trim_ne_nil h)]
  dsimp only
  split_ifs with heq
  · exact ⟨fun _ => heq.symm, fun _ => rfl⟩
  · exact ⟨by simp, fun heq' => absurd heq'.symm heq⟩

theorem computePatch_unchanged (hcontent : splitBreaks content = splitLines content)
    (hidle : AllIdle (splitBreaks content, 0) (readChunks request.unifiedDiff))
    (hne : readChunks request.unifiedDiff ≠ []) : computePatch content request = .unchanged := by
  rw [computePatch_eq_unchanged_iff hne, applyUnifiedDiff_eq hne, applyChunks_idle hidle]
  exact (congrArg joinLines hcontent).trans (joinLines_splitLines content)

/-- Among idle chunks, one that is not is written. -/
theorem idle_of_computePatch {front rest : List Chunk} (hne : content ≠ [])
    (hcontent : splitBreaks content = splitLines content)
    (hread : readChunks request.unifiedDiff = front ++ chunk :: rest)
    (hfront : AllIdle (splitBreaks content, 0) front)
    (hrest : AllIdle (applyChunk (front.foldl applyChunk (splitBreaks content, 0)) chunk) rest)
    (h : computePatch content request = .unchanged) :
    chunk.Idle (front.foldl applyChunk (splitBreaks content, 0)) := by
  have hchunks : readChunks request.unifiedDiff ≠ [] := by
    rw [hread]
    simp
  rw [computePatch_eq_unchanged_iff hchunks, applyUnifiedDiff_eq hchunks] at h
  have hlines := @newline_notMem_applyChunks (splitBreaks content, 0)
    (readChunks request.unifiedDiff) (fun _ hline => newline_notMem_splitBreaks hline)
    fun _ hc => newline_notMem_inserted hc
  rw [joinLines_eq_iff hne hlines, ← hcontent, hread] at h
  exact (applyChunks_eq_iff hfront hrest).mp h

/-! ## Exactly or not at all -/

/-- The lines stand somewhere. -/
def Occurs (lines expectedDeleted : List Text) : Prop :=
  ∃ i : ℤ, checkMatch lines expectedDeleted i = true

/-- A diff whose hunks are found in their places gives the new text; a patch whose chunks are idle
writes nothing; and a chunk whose old lines occur nowhere, among idle ones, writes nothing only if
it is idle. -/
theorem governed_diff_applies (old new content : Text) (names : DiffNames) (hunks : List DiffHunk)
    (request : PatchRequest) :
    (IsLF old → IsLF new → IsDiff old new hunks → PlainNames names →
      (∀ h ∈ hunks, IsLine h.format.hint) → (∀ h ∈ hunks, ∀ l ∈ h.lines, ¬LooksLikeName l.encode) →
      ((EndsLine old ↔ EndsLine new) ∨ new = []) → Placed (splitLines old) 0 [] hunks →
      applyUnifiedDiff old (encodeDiff names hunks true) = new) ∧
    (readChunks request.unifiedDiff ≠ [] → splitBreaks content = splitLines content →
      AllIdle (splitBreaks content, 0) (readChunks request.unifiedDiff) →
      computePatch content request = .unchanged) ∧
    ∀ (front : List Chunk) (chunk : Chunk) (rest : List Chunk), content ≠ [] →
      splitBreaks content = splitLines content →
      readChunks request.unifiedDiff = front ++ chunk :: rest →
      ¬Occurs (front.foldl applyChunk (splitBreaks content, 0)).1 chunk.expectedDeleted →
      AllIdle (splitBreaks content, 0) front →
      AllIdle (applyChunk (front.foldl applyChunk (splitBreaks content, 0)) chunk) rest →
      (computePatch content request = .unchanged ↔
        chunk.Idle (front.foldl applyChunk (splitBreaks content, 0))) := by
  refine ⟨applyUnifiedDiff_encodeDiff,
    fun hne hcontent hidle => computePatch_unchanged hcontent hidle hne, ?_⟩
  intro front chunk rest hne hcontent hread _ hfront hrest
  refine ⟨idle_of_computePatch hne hcontent hread hfront hrest, fun hidle => ?_⟩
  have hchunks : readChunks request.unifiedDiff ≠ [] := by
    rw [hread]
    simp
  rw [computePatch_eq_unchanged_iff hchunks, applyUnifiedDiff_eq hchunks, hread,
    (applyChunks_eq_iff hfront hrest).mpr hidle]
  exact (congrArg joinLines hcontent).trans (joinLines_splitLines content)

/-- `a` becomes `x` on the first line. -/
def firstLine : DiffHunk := ⟨0, [(.delete (text "a"), false), (.insert (text "x"), false)], 1,
  ⟨true, true, []⟩⟩

def firstLinePatch : PatchRequest :=
  ⟨text "--- a/f\n+++ b/f\n@@ -1 +1 @@\n-a\n+x\n", [], []⟩

def firstLineChunk : Chunk := ⟨1, 1, 1, 1, [text "-a", text "+x", []]⟩

theorem readChunks_firstLinePatch : readChunks firstLinePatch.unifiedDiff = [firstLineChunk] := by
  decide +kernel

theorem not_occurs_firstLine (h : text "a" ∉ lines) :
    ¬Occurs lines firstLineChunk.expectedDeleted := by
  rintro ⟨i, hi⟩
  simp only [checkMatch, Bool.and_eq_true, decide_eq_true_eq] at hi
  have hmem : text "a" ∈ firstLineChunk.expectedDeleted := by decide
  rw [← hi.2] at hmem
  exact h (mem_of_mem_drop (mem_of_mem_take hmem))

theorem plainNames_plain : PlainNames plainNames := ⟨by decide, by decide⟩

/-- An empty line follows, or the file says `x` already. -/
theorem firstLine_applied :
    applyUnifiedDiff (text "a\n\nb\n") (encodeDiff plainNames [firstLine] true) = text "x\n\nb\n" ∧
      computePatch (text "x\n\n") firstLinePatch = .unchanged ∧
      (computePatch (text "k\nb\n") firstLinePatch = .unchanged ↔
        firstLineChunk.Idle (splitBreaks (text "k\nb\n"), 0)) := by
  refine ⟨(governed_diff_applies _ _ [] _ _ firstLinePatch).1 (by decide) (by decide) ?_
    plainNames_plain (by decide) (by decide) (by decide) ⟨?_, trivial⟩,
    (governed_diff_applies [] [] _ plainNames [] _).2.1 ?_ (by decide) ?_,
    (governed_diff_applies [] [] _ plainNames [] _).2.2 [] _ [] (by decide) (by decide)
      readChunks_firstLinePatch (not_occurs_firstLine (by decide)) trivial trivial⟩
  · exact ⟨⟨by decide, Nat.le_of_ble_eq_true rfl⟩, by decide, by decide⟩
  · decide
  · rw [readChunks_firstLinePatch]
    exact cons_ne_nil _ _
  · rw [readChunks_firstLinePatch]
    exact ⟨by decide, trivial⟩

/-- A line that is not of the hunk is taken out with it, and so is one of another file. -/
theorem firstLine_destroys :
    IsLF (text "a\nb\n") ∧ IsLF (text "x\nb\n") ∧
      IsDiff (text "a\nb\n") (text "x\nb\n") [firstLine] ∧ PlainNames plainNames ∧
      encodeDiff plainNames [firstLine] true = firstLinePatch.unifiedDiff ∧
      applyUnifiedDiff (text "a\nb\n") (encodeDiff plainNames [firstLine] true) = text "x\n\n" ∧
      applyUnifiedDiff (text "a\nb\n") (encodeDiff plainNames [firstLine] true) ≠ text "x\nb\n" ∧
      readChunks firstLinePatch.unifiedDiff = [firstLineChunk] ∧
      ¬Occurs (splitBreaks (text "k\nb\n")) firstLineChunk.expectedDeleted ∧
      computePatch (text "k\nb\n") firstLinePatch = .written (text "x\n\n") := by
  have hone : Unified.decimal 1 = text "1" := by
    rw [Unified.decimal]
    rfl
  have hheader : encodeHeader ⟨true, true, []⟩ 1 1 1 1 = text "@@ -1 +1 @@" := by
    rw [encodeHeader, encodeRange, hone]
    rfl
  have hlines : [firstLine].flatMap DiffHunk.encode = [text "@@ -1 +1 @@", text "-a", text "+x"] := by
    rw [← hheader]
    rfl
  have hencode : encodeDiff plainNames [firstLine] true = firstLinePatch.unifiedDiff := by
    rw [encodeDiff, hlines]
    rfl
  have happly : applyUnifiedDiff (text "a\nb\n") firstLinePatch.unifiedDiff = text "x\n\n" := by
    decide +kernel
  refine ⟨by decide, by decide, ⟨⟨by decide, Nat.le_of_ble_eq_true rfl⟩, by decide, by decide⟩,
    plainNames_plain, hencode, ?_, ?_, readChunks_firstLinePatch,
    not_occurs_firstLine (by decide), by decide +kernel⟩
  · rw [hencode, happly]
  · rw [hencode, happly]
    decide

end Lumi.Mutation
