import Lumi.Mutation.UnifiedDiff
import Lumi.Unified.Application

/-!
# Which diffs are applied exactly

A diff is read back as the hunks that it was printed from, unless a line of one of them, with its
sign, looks like the name of a file; but the end of the diff adds an empty line to the last hunk.
Every hunk with old lines is then found in its place, since the numbers are corrected by the hunks
before, and the last one is if an empty line follows it.
-/

namespace Lumi.Mutation

open Js Unified List

/-! ## Headers -/

theorem readNumbers_encodeRange (start count : ℕ) (short : Bool) (rest : Text) :
    ∃ read, readNumbers (encodeRange start count short ++ 0x20 :: rest)
        = some (start, read, 0x20 :: rest) ∧ read.getD 1 = count := by
  unfold encodeRange readNumbers
  split
  · next hshort =>
    have hcount : count = 1 := by
      simp at hshort
      exact hshort.2
    refine ⟨none, ?_, hcount.symm⟩
    rw [append_nil, readNumber_decimal start fun c hc => by cases hc; decide]
    rfl
  · refine ⟨some count, ?_, rfl⟩
    have hcount : readNumber (Unified.decimal count ++ 0x20 :: rest) = some (count, 0x20 :: rest) :=
      readNumber_decimal count fun c hc => by cases hc; decide
    rw [append_assoc, readNumber_decimal start fun c hc => by cases hc; decide,
      Option.map_some, cons_append]
    simp only [head?_cons, if_true, tail_cons, hcount]

/-- A header is read back as it was printed. -/
theorem readChunkHeader_encodeHeader (f : HeaderFormat) (oldStart oldCount newStart newCount : ℕ) :
    readChunkHeader (encodeHeader f oldStart oldCount newStart newCount)
      = some ⟨oldStart, oldCount, newStart, newCount, []⟩ := by
  obtain ⟨hstarts, _, _, _, _, _, _, hminus, hold, holdCount, hplus, hnew, hnewCount, hend⟩ :=
    pieces_encodeHeader readNumbers_encodeRange f oldStart oldCount newStart newCount
  simp only [readChunkHeader, hstarts, if_true, Option.bind_eq_bind, Option.bind_some, hminus, hold,
    hplus, hnew, hend, holdCount, hnewCount]

/-! ## Lines -/

/-- The line is skipped, as one that names a file. -/
def LooksLikeName (line : Text) : Prop :=
  startsWith line (text "---") = true ∨ startsWith line (text "+++") = true

instance (line : Text) : Decidable (LooksLikeName line) := inferInstanceAs (Decidable (_ ∨ _))

/-- A hunk, as it is read. -/
def chunkOf (h : DiffHunk) : Chunk :=
  ⟨h.oldStart, (oldLines h.lines).length, h.newStart, (newLines h.lines).length,
    h.lines.map HunkLine.encode⟩

/-- The names of a diff are those of no hunk. -/
structure PlainNames (n : DiffNames) : Prop where
  lines : ∀ line ∈ n.encode, IsLine line
  preamble : ∀ line ∈ n.preamble, startsWith line (text "@@") = false

namespace ChunkReader

theorem read_name {r : ChunkReader} {line : Text} (h : LooksLikeName line) : r.read line = r := by
  rw [read, if_pos]
  simpa [LooksLikeName] using h

/-- Before the first header nothing is kept. -/
theorem read_preamble {lines : List Text}
    (h : ∀ line ∈ lines, startsWith line (text "@@") = false) :
    lines.foldl read empty = empty := by
  induction lines with
  | nil => rfl
  | cons line rest ih =>
    have hheader : readChunkHeader line = none := by
      rw [readChunkHeader, h line mem_cons_self]
      rfl
    have hread : empty.read line = empty := by
      unfold read
      rw [hheader]
      dsimp only
      split_ifs <;> rfl
    rw [foldl_cons, hread]
    exact ih fun line hline => h line (mem_cons_of_mem _ hline)

theorem read_names {n : DiffNames} (h : PlainNames n) : n.encode.foldl read empty = empty := by
  have hold : LooksLikeName (text "--- " ++ n.oldName) := Or.inl rfl
  have hnew : LooksLikeName (text "+++ " ++ n.newName) := Or.inr rfl
  rw [DiffNames.encode, foldl_append, read_preamble h.preamble, foldl_cons,
    foldl_cons, read_name hold, read_name hnew]
  rfl

theorem read_header (r : ChunkReader) (h : DiffHunk) :
    r.read (encodeHeader h.format h.oldStart (oldLines h.lines).length h.newStart
      (newLines h.lines).length) =
      ⟨r.all, some ⟨h.oldStart, (oldLines h.lines).length, h.newStart,
        (newLines h.lines).length, []⟩⟩ := by
  have hplain : startsWith (encodeHeader h.format h.oldStart (oldLines h.lines).length h.newStart
      (newLines h.lines).length) (text "---") = false := rfl
  have hplain' : startsWith (encodeHeader h.format h.oldStart (oldLines h.lines).length h.newStart
      (newLines h.lines).length) (text "+++") = false := rfl
  rw [read, hplain, hplain', readChunkHeader_encodeHeader]
  rfl

/-- A line of a hunk is kept, and a mark after it is not. -/
theorem read_line {chunks : List Chunk} {chunk : Chunk} {l : HunkLine Text × Bool}
    (hplain : ¬LooksLikeName l.1.encode) :
    (DiffHunk.encodeLine l).foldl read ⟨chunks, some chunk⟩ =
      ⟨chunks, some { chunk with lines := chunk.lines ++ [l.1.encode] }⟩ := by
  have hskip : (startsWith l.1.encode (text "---") || startsWith l.1.encode (text "+++")) =
      false := by
    rw [Bool.eq_false_iff]
    simpa [LooksLikeName] using hplain
  have hread : ∀ chunk : Chunk, read ⟨chunks, some chunk⟩ l.1.encode =
      ⟨chunks, some { chunk with lines := chunk.lines ++ [l.1.encode] }⟩ := by
    intro chunk
    have hheader : readChunkHeader l.1.encode = none := by
      rcases l with ⟨line | line | line, mark⟩ <;> rfl
    rw [read, hskip, hheader]
    rcases l with ⟨line | line | line, mark⟩ <;> rfl
  obtain ⟨line, mark⟩ := l
  cases mark with
  | false => exact hread chunk
  | true =>
    rw [DiffHunk.encodeLine, if_pos rfl, foldl_cons, hread]
    rfl

theorem read_lines {chunks : List Chunk} {chunk : Chunk} {lines : List (HunkLine Text × Bool)}
    (hplain : ∀ l ∈ lines, ¬LooksLikeName l.1.encode) :
    (lines.flatMap DiffHunk.encodeLine).foldl read ⟨chunks, some chunk⟩ =
      ⟨chunks, some
        { chunk with lines := chunk.lines ++ (lines.map Prod.fst).map HunkLine.encode }⟩ := by
  induction lines generalizing chunk with
  | nil => simp
  | cons l rest ih =>
    rw [flatMap_cons, foldl_append, read_line (hplain l mem_cons_self),
      ih fun l' hl' => hplain l' (mem_cons_of_mem _ hl')]
    simp

/-- **Step lemma.**  A hunk is read as the chunk that is being read. -/
theorem read_hunk (r : ChunkReader) {h : DiffHunk} (hplain : ∀ l ∈ h.lines, ¬LooksLikeName l.encode) :
    h.encode.foldl read r = ⟨r.all, some (chunkOf h)⟩ := by
  rw [DiffHunk.encode, foldl_cons, read_header,
    read_lines fun l hl => hplain l.1 (mem_map_of_mem hl)]
  rfl

/-- **Run lemma.**  The hunks of a diff are read one after the other. -/
theorem all_read_hunks (r : ChunkReader) {hunks : List DiffHunk}
    (hplain : ∀ h ∈ hunks, ∀ l ∈ h.lines, ¬LooksLikeName l.encode) :
    ((hunks.flatMap DiffHunk.encode).foldl read r).all = r.all ++ hunks.map chunkOf := by
  induction hunks generalizing r with
  | nil => simp
  | cons h rest ih =>
    rw [flatMap_cons, foldl_append, read_hunk r (hplain h mem_cons_self),
      ih _ fun h' hh' => hplain h' (mem_cons_of_mem _ hh')]
    simp [all]

end ChunkReader

/-- The empty line after the end of a diff. -/
def Chunk.addEmpty (chunk : Chunk) : Chunk := { chunk with lines := chunk.lines ++ [[]] }

/-- A diff is read as its hunks, the last one with an empty line more. -/
theorem readChunks_encodeDiff {n : DiffNames} {front : List DiffHunk} {last : DiffHunk}
    (hnames : PlainNames n) (hhints : ∀ h ∈ front ++ [last], IsLine h.format.hint)
    (hlines : ∀ h ∈ front ++ [last], ∀ l ∈ h.lines, IsLine l.encode ∧ ¬LooksLikeName l.encode) :
    readChunks (encodeDiff n (front ++ [last]) true) =
      front.map chunkOf ++ [(chunkOf last).addEmpty] := by
  have hplain := fun h hh l hl => (hlines h hh l hl).2
  rw [readChunks, splitBreaks_encodeDiff hnames.lines hhints
    (fun h hh l hl => (hlines h hh l hl).1) true, if_pos rfl, foldl_append, foldl_append,
    ChunkReader.read_names hnames, flatMap_append, foldl_append, flatMap_singleton,
    ChunkReader.read_hunk _ (hplain last (by simp)),
    ChunkReader.all_read_hunks _ fun h hh => hplain h (mem_append_left _ hh)]
  rfl

/-- A diff without hunks is read as no chunk. -/
theorem readChunks_encodeDiff_nil {n : DiffNames} (hnames : PlainNames n) :
    readChunks (encodeDiff n [] true) = [] := by
  rw [readChunks, splitBreaks_encodeDiff hnames.lines (by simp) (by simp) true, if_pos rfl,
    foldl_append, foldl_append, ChunkReader.read_names hnames]
  rfl

/-! ## Places -/

theorem expectedDeleted_chunkOf (h : DiffHunk) : (chunkOf h).expectedDeleted = oldLines h.lines := by
  rw [Chunk.expectedDeleted, chunkOf, filterMap_map, oldLines]
  congr 1
  funext l
  cases l <;> rfl

theorem inserted_chunkOf (h : DiffHunk) : (chunkOf h).inserted = newLines h.lines := by
  rw [Chunk.inserted, chunkOf, filterMap_map, newLines]
  congr 1
  funext l
  cases l <;> rfl

theorem expectedDeleted_addEmpty (chunk : Chunk) :
    chunk.addEmpty.expectedDeleted = chunk.expectedDeleted ++ [[]] :=
  filterMap_append

theorem inserted_addEmpty (chunk : Chunk) : chunk.addEmpty.inserted = chunk.inserted ++ [[]] :=
  filterMap_append

variable {resultLines expectedDeleted : List Text}

theorem checkMatch_natCast_iff {i : ℕ} :
    checkMatch resultLines expectedDeleted i = true ↔
      i + expectedDeleted.length ≤ resultLines.length ∧
        StandsAt resultLines expectedDeleted i := by
  simp only [checkMatch, Bool.and_eq_true, decide_eq_true_eq, Int.toNat_natCast, StandsAt]
  refine and_congr_left fun _ => ?_
  omega

theorem checkMatch_of_neg {i : ℤ} (h : i < 0) :
    checkMatch resultLines expectedDeleted i = false := by
  rw [checkMatch, decide_eq_false (by omega)]
  rfl

/-- One line at an index. -/
theorem checkMatch_singleton_iff {resultLines : List Text} {line : Text} {i : ℕ} :
    checkMatch resultLines [line] i = true ↔ resultLines[i]? = some line := by
  rw [checkMatch_natCast_iff, StandsAt, length_singleton]
  constructor
  · rintro ⟨hle, hstands⟩
    rw [drop_eq_getElem_cons (by omega), take_succ_cons, take_zero] at hstands
    rw [getElem?_eq_getElem (by omega), (cons_eq_cons.mp hstands).1]
  · intro hget
    obtain ⟨hlt, rfl⟩ := List.getElem?_eq_some_iff.mp hget
    refine ⟨hlt, ?_⟩
    rw [drop_eq_getElem_cons hlt]
    rfl

theorem findMatch_of_checkMatch {idx : ℤ} (h : checkMatch resultLines expectedDeleted idx = true) :
    findMatch resultLines expectedDeleted idx = some idx := by
  rw [findMatch, if_pos h]

/-- What does not stand a line early, nor two, is found if it stands here. -/
theorem findMatch_pred {idx : ℤ} (hpred : checkMatch resultLines expectedDeleted (idx - 1) = false)
    (hpred' : checkMatch resultLines expectedDeleted (idx - 2) = false)
    (h : checkMatch resultLines expectedDeleted idx = true) :
    findMatch resultLines expectedDeleted (idx - 1) = some idx := by
  have hback : idx - 1 - ((1 : ℕ) : ℤ) = idx - 2 := by omega
  have hforth : idx - 1 + ((1 : ℕ) : ℤ) = idx := by omega
  rw [findMatch, hpred, if_neg (by decide), range'_succ, findSome?_cons, hback, hpred',
    hforth, h]
  rfl

/-- The last hunk, with the empty line, is found in its place: behind its old lines stands an empty
line; or it has no old lines, an empty line stands in its place, and none on the two lines
before. -/
def LastFound (resultLines : List Text) (h : DiffHunk) (place : ℕ) : Prop :=
  if oldLines h.lines = [] then
    resultLines[place]? = some [] ∧
      ∀ i < place, place ≤ i + 2 → resultLines[i]? ≠ some []
  else resultLines[place + (oldLines h.lines).length]? = some []

instance (resultLines : List Text) (h : DiffHunk) (place : ℕ) :
    Decidable (LastFound resultLines h place) := by
  unfold LastFound
  infer_instance

/-- Every hunk is found in its place, in the text that those before have left: `done`, and what
follows `cursor`.  But for the last one, a hunk with old lines always is. -/
def Placed (fileLines : List Text) : ℕ → List Text → List DiffHunk → Prop
  | _, _, [] => True
  | cursor, done, h :: rest =>
    (if rest = [] then
      LastFound (done ++ fileLines.drop cursor) h (done.length + (h.position - cursor))
    else oldLines h.lines ≠ [] ∨ done.length + (h.position - cursor) = 0) ∧
    Placed fileLines h.edit.stop
      (done ++ (fileLines.drop cursor).take (h.position - cursor) ++ newLines h.lines) rest

/-! ## Application -/

section

variable {fileLines done : List Text} {cursor position : ℕ} (hle : cursor ≤ position)
include hle

theorem drop_place :
    (done ++ fileLines.drop cursor).drop (done.length + (position - cursor))
      = fileLines.drop position := by
  rw [drop_append, drop_of_length_le (by omega), nil_append, drop_drop]
  congr 1
  omega

theorem spliceLines_place (hposition : position ≤ fileLines.length) (count : ℕ) (items : List Text) :
    spliceLines (done ++ fileLines.drop cursor) ((done.length + (position - cursor) : ℕ) : ℤ) count
        items
      = done ++ (fileLines.drop cursor).take (position - cursor) ++ items ++
          fileLines.drop (position + count) := by
  have hsize : (done ++ fileLines.drop cursor).length
      = done.length + (fileLines.length - cursor) := by
    rw [length_append, length_drop]
  have hindex : relativeIndex (done ++ fileLines.drop cursor)
      ((done.length + (position - cursor) : ℕ) : ℤ) = done.length + (position - cursor) :=
    relativeIndex_of_le (by omega)
  dsimp only [spliceLines]
  rw [hindex, take_append, take_of_length_le (by omega), Nat.add_sub_cancel_left,
    ← drop_drop, drop_place hle, drop_drop]

/-- The lines before a position, and an edit there, leave so many lines. -/
theorem length_done (hposition : position ≤ fileLines.length) (inserted : List Text) :
    (done ++ (fileLines.drop cursor).take (position - cursor) ++ inserted).length =
      done.length + (position - cursor) + inserted.length := by
  rw [length_append, length_append, length_take, length_drop]
  omega

end

section

variable {fileLines done : List Text} {cursor : ℕ} {h : DiffHunk} (hle : cursor ≤ h.position)
  (hstop : h.edit.stop ≤ fileLines.length)
  (hstands : StandsAt fileLines (oldLines h.lines) h.position)
include hle hstop hstands

/-- With the old lines at the place of the hunk, what follows them stands behind it. -/
theorem checkMatch_place {following : List Text}
    (hfollowing : StandsAt fileLines following h.edit.stop)
    (hbound : h.edit.stop + following.length ≤ fileLines.length) :
    checkMatch (done ++ fileLines.drop cursor) (oldLines h.lines ++ following)
      ((done.length + (h.position - cursor) : ℕ) : ℤ) = true := by
  have hedit : h.edit.stop = h.position + (oldLines h.lines).length := rfl
  refine checkMatch_natCast_iff.mpr ⟨?_, ?_⟩
  · rw [length_append, length_append, length_drop]
    omega
  · rw [StandsAt, drop_place hle, length_append, take_add, drop_drop, ← hedit]
    exact congrArg₂ (· ++ ·) hstands hfollowing

/-- **Step lemma.**  A hunk before the last one is applied in its place. -/
theorem applyChunk_chunkOf
    (hfound : oldLines h.lines ≠ [] ∨ done.length + (h.position - cursor) = 0) :
    applyChunk (done ++ fileLines.drop cursor, (done.length : ℤ) - cursor) (chunkOf h) =
      (done ++ (fileLines.drop cursor).take (h.position - cursor) ++ newLines h.lines ++
          fileLines.drop h.edit.stop,
        ((done ++ (fileLines.drop cursor).take (h.position - cursor) ++ newLines h.lines).length
          : ℤ) - h.edit.stop) := by
  have hedit : h.edit.stop = h.position + (oldLines h.lines).length := rfl
  have hposition : h.position ≤ fileLines.length := by omega
  have hmatch := @checkMatch_place fileLines done cursor h hle hstop hstands [] rfl (by simpa)
  rw [append_nil] at hmatch
  have hstart : (chunkOf h).oldStart = h.oldStart := rfl
  have hfind : findMatch (done ++ fileLines.drop cursor) (oldLines h.lines)
      ((chunkOf h).oldStart - 1 + ((done.length : ℤ) - cursor)) =
        some ((done.length + (h.position - cursor) : ℕ) : ℤ) := by
    by_cases hold : oldLines h.lines = []
    · -- at the top, the number of the hunk is one before its place
      have hzero := hfound.resolve_left (not_not_intro hold)
      have hidx : ((chunkOf h).oldStart : ℤ) - 1 + ((done.length : ℤ) - cursor) =
          ((done.length + (h.position - cursor) : ℕ) : ℤ) - 1 := by
        rw [hstart, DiffHunk.oldStart, if_pos hold]
        omega
      rw [hidx]
      exact findMatch_pred (checkMatch_of_neg (by omega)) (checkMatch_of_neg (by omega)) hmatch
    · have hidx : ((chunkOf h).oldStart : ℤ) - 1 + ((done.length : ℤ) - cursor) =
          ((done.length + (h.position - cursor) : ℕ) : ℤ) := by
        rw [hstart, DiffHunk.oldStart, if_neg hold]
        omega
      rw [hidx]
      exact findMatch_of_checkMatch hmatch
  dsimp only [applyChunk]
  rw [expectedDeleted_chunkOf, inserted_chunkOf, hfind, Option.getD_some,
    spliceLines_place hle hposition, ← hedit, length_done hle hposition]
  refine congrArg (Prod.mk _) ?_
  omega

/-- The empty line after the last hunk is put back where it was found. -/
theorem applyChunk_addEmpty
    (hfound : LastFound (done ++ fileLines.drop cursor) h (done.length + (h.position - cursor))) :
    (applyChunk (done ++ fileLines.drop cursor, (done.length : ℤ) - cursor)
      (chunkOf h).addEmpty).1 =
      done ++ (fileLines.drop cursor).take (h.position - cursor) ++ newLines h.lines ++
        fileLines.drop h.edit.stop := by
  have hedit : h.edit.stop = h.position + (oldLines h.lines).length := rfl
  have hposition : h.position ≤ fileLines.length := by omega
  have hget : ∀ i, (done ++ fileLines.drop cursor)[done.length + (h.position - cursor) + i]? =
      fileLines[h.position + i]? := by
    intro i
    rw [← getElem?_drop, drop_place hle, getElem?_drop]
  have hempty : fileLines[h.edit.stop]? = some [] := by
    unfold LastFound at hfound
    split_ifs at hfound with hold
    · rw [hedit, hold, ← hget]
      exact hfound.1
    · rw [hedit, ← hget]
      exact hfound
  obtain ⟨hlt, hline⟩ := List.getElem?_eq_some_iff.mp hempty
  have hdrop : fileLines.drop h.edit.stop = [] :: fileLines.drop (h.edit.stop + 1) := by
    rw [drop_eq_getElem_cons hlt, hline]
  have hmatch := @checkMatch_place fileLines done cursor h hle hstop hstands [[]]
    (by rw [StandsAt, hdrop]; rfl) hlt
  have hfind : findMatch (done ++ fileLines.drop cursor) (oldLines h.lines ++ [[]])
      ((chunkOf h).addEmpty.oldStart - 1 + ((done.length : ℤ) - cursor)) =
        some ((done.length + (h.position - cursor) : ℕ) : ℤ) := by
    have hstart : (chunkOf h).addEmpty.oldStart = h.oldStart := rfl
    unfold LastFound at hfound
    split_ifs at hfound with hold
    · have hnone : ∀ k : ℤ, ((done.length + (h.position - cursor) : ℕ) : ℤ) ≤ k + 2 →
          k < ((done.length + (h.position - cursor) : ℕ) : ℤ) →
          checkMatch (done ++ fileLines.drop cursor) [[]] k = false := by
        intro k hge hlt
        by_cases hneg : k < 0
        · exact checkMatch_of_neg hneg
        · obtain ⟨i, rfl⟩ := Int.eq_ofNat_of_zero_le (by omega : 0 ≤ k)
          rw [Bool.eq_false_iff, Ne, checkMatch_singleton_iff]
          exact hfound.2 i (by omega) (by omega)
      have hidx : ((chunkOf h).addEmpty.oldStart : ℤ) - 1 + ((done.length : ℤ) - cursor) =
          ((done.length + (h.position - cursor) : ℕ) : ℤ) - 1 := by
        rw [hstart, DiffHunk.oldStart, if_pos hold]
        omega
      rw [hold, nil_append] at hmatch ⊢
      rw [hidx]
      exact findMatch_pred (hnone _ (by omega) (by omega)) (hnone _ (by omega) (by omega)) hmatch
    · have hidx : ((chunkOf h).addEmpty.oldStart : ℤ) - 1 + ((done.length : ℤ) - cursor) =
          ((done.length + (h.position - cursor) : ℕ) : ℤ) := by
        rw [hstart, DiffHunk.oldStart, if_neg hold]
        omega
      rw [hidx]
      exact findMatch_of_checkMatch hmatch
  dsimp only [applyChunk]
  rw [expectedDeleted_addEmpty, inserted_addEmpty, expectedDeleted_chunkOf, inserted_chunkOf,
    hfind, Option.getD_some, spliceLines_place hle hposition, length_append,
    length_singleton, ← Nat.add_assoc, ← hedit, hdrop]
  simp

end

/-- **Run lemma.**  Hunks that are found in their places are applied as the edits that they are. -/
theorem applyChunks_placed {fileLines done : List Text} {cursor : ℕ} {front : List DiffHunk}
    {last : DiffHunk}
    (horder : Edit.InOrder fileLines.length cursor ((front ++ [last]).map DiffHunk.edit))
    (hstands : ∀ h ∈ front ++ [last], StandsAt fileLines (oldLines h.lines) h.position)
    (hplaced : Placed fileLines cursor done (front ++ [last])) :
    ((front.map chunkOf ++ [(chunkOf last).addEmpty]).foldl applyChunk
      (done ++ fileLines.drop cursor, (done.length : ℤ) - cursor)).1 =
      done ++ Edit.splice fileLines cursor ((front ++ [last]).map DiffHunk.edit) := by
  induction front generalizing done cursor with
  | nil =>
    have hlast : LastFound (done ++ fileLines.drop cursor) last
        (done.length + (last.position - cursor)) := hplaced.1
    rw [map_nil, nil_append, foldl_cons, foldl_nil,
      applyChunk_addEmpty horder.1 horder.2 (hstands last (by simp)) hlast]
    show done ++ _ ++ _ ++ _ = done ++ (_ ++ _ ++ _)
    rw [append_assoc, append_assoc, append_assoc]
    rfl
  | cons h front ih =>
    obtain ⟨hfound, hplaced⟩ := hplaced
    rw [if_neg (by simp)] at hfound
    have hrest := ih horder.2 (fun h' hh' => hstands h' (mem_cons_of_mem _ hh')) hplaced
    rw [map_cons, cons_append, foldl_cons,
      applyChunk_chunkOf horder.1 horder.2.cursor_le (hstands h (by simp)) hfound, hrest]
    show done ++ _ ++ _ ++ _ = done ++ (_ ++ _ ++ _)
    rw [append_assoc, append_assoc, append_assoc]
    rfl

/-! ## The whole diff -/

/-- **A diff whose hunks are found in their places gives the new text.** -/
theorem applyUnifiedDiff_encodeDiff {old new : Text} {names : DiffNames} {hunks : List DiffHunk}
    (hold : IsLF old) (hnew : IsLF new) (hdiff : IsDiff old new hunks) (hnames : PlainNames names)
    (hhints : ∀ h ∈ hunks, IsLine h.format.hint)
    (hplain : ∀ h ∈ hunks, ∀ l ∈ h.lines, ¬LooksLikeName l.encode)
    (hend : (EndsLine old ↔ EndsLine new) ∨ new = [])
    (hplaced : Placed (splitLines old) 0 [] hunks) :
    applyUnifiedDiff old (encodeDiff names hunks true) = new := by
  have hjoin := joinLines_textLines hend
  rcases eq_nil_or_concat' hunks with rfl | ⟨front, last, rfl⟩
  · have hsame : textLines new = textLines old := hdiff.result
    rw [hsame, ← splitLines_eq, joinLines_splitLines] at hjoin
    rw [applyUnifiedDiff, readChunks_encodeDiff_nil hnames]
    exact hjoin
  · have hlines : ∀ h ∈ front ++ [last], ∀ l ∈ h.lines,
        IsLine l.encode ∧ ¬LooksLikeName l.encode :=
      fun h hh l hl => ⟨hdiff.isLine hold hnew hh hl, hplain h hh l hl⟩
    have hloop := @applyChunks_placed _ [] 0 _ _ hdiff.order_splitLines hdiff.stands_splitLines
      hplaced
    rw [drop_zero, nil_append, nil_append, hdiff.splice_splitLines] at hloop
    rw [applyUnifiedDiff, readChunks_encodeDiff hnames hhints hlines, if_neg (by simp),
      splitBreaks_eq hold]
    exact (congrArg joinLines hloop).trans hjoin

end Lumi.Mutation
