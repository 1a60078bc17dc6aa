import Lumi.Lib.HunkLines
import Lumi.ApplyPatch.Parser

/-!
# Exact patches

A hunk whose old lines stand in the file, and nowhere earlier after the hunk before it up to
`canonicalize`, is found where it stands by the first pass of the search, without fuzz.  The
chunks that `peek` makes of its lines are edits in order, and applied to the file they
rewrite just the slice of the hunk.

The chunks are followed through `peek` with what they do to the file from the first line that
is not settled: the pending deletions and insertions are one edit there.
-/

namespace Lumi.ApplyPatch

open Js List

/-! ## Patches that are encoded -/

/-- The lines of a hunk, and the index in the file of the first of its old lines. -/
structure Hunk where
  position : ℕ
  lines : List (HunkLine Text)

namespace Hunk

/-- The slice of the old lines gives way to the new ones. -/
def edit (h : Hunk) : Edit Text := hunkEdit h.position h.lines

def encode (h : Hunk) : List Text := Markers.sectionMark :: h.lines.map HunkLine.encode

end Hunk

def encodeHunks (hunks : List Hunk) : List Text :=
  hunks.flatMap Hunk.encode ++ [Markers.endPatch]

def encodePatch (path : Text) (hunks : List Hunk) : List Text :=
  Markers.beginPatch :: (Markers.updateFile ++ path) :: encodeHunks hunks

section

variable [Runtime]

/-- The lines stand in the file at a position, up to `canonicalize`. -/
def OccursAt (fileLines lines : List Text) (position : ℕ) : Prop :=
  canonicalize (joinLines ((fileLines.drop position).take lines.length))
    = canonicalize (joinLines lines)

/-- The hunks are in order from `cursor` on, their old lines are slices of the file, and none
occurs between the hunk before it and its position. -/
def Exact (fileLines : List Text) : ℕ → List Hunk → Prop
  | _, [] => True
  | cursor, h :: rest =>
    cursor ≤ h.position ∧ oldLines h.lines ≠ [] ∧
    StandsAt fileLines (oldLines h.lines) h.position ∧
    (∀ i, cursor ≤ i → i < h.position → ¬ OccursAt fileLines (oldLines h.lines) i) ∧
    Exact fileLines h.edit.stop rest

/-! ## Sections -/

/-- What a chunk does to the file, if its section is found at `position`. -/
def PatchChunk.editAt (position : ℕ) (c : PatchChunk) : Edit Text :=
  ⟨(c.origIndex + position).toNat, c.delLines.length, c.insLines⟩

namespace Section

/-- What holds in the loop of `peek`: nothing is pending after a line that is kept. -/
structure Valid (st : Section) : Prop where
  deleted : st.delLines.length ≤ st.old.length
  kept : st.mode = .keep → st.delLines = [] ∧ st.insLines = []

section

omit [Runtime]

theorem Valid.start : Valid start := ⟨Nat.le_refl _, fun _ => ⟨rfl, rfl⟩⟩

theorem read_context {st : Section} (h : st.Valid) (line : Text) :
    st.read (HunkLine.context line).encode
      = ⟨st.old ++ [line], [], [], st.chunks ++ st.pending, .keep⟩ := by
  by_cases hmode : st.mode = .keep
  · obtain ⟨hdel, hins⟩ := h.kept hmode
    have hpending : st.pending = [] := by simp [pending, hdel, hins]
    rw [hpending, append_nil]
    obtain ⟨old, delLines, insLines, chunks, mode⟩ := st
    simp only at hmode hdel hins
    subst hmode hdel hins
    rfl
  · have hread : st.read (HunkLine.context line).encode
        = { st.flush with old := st.flush.old ++ [line], mode := .keep } := by
      simp [read, HunkLine.encode, modeOf, hmode]
    rw [hread]
    rfl

theorem read_delete (st : Section) (line : Text) :
    st.read (HunkLine.delete line).encode
      = { st with delLines := st.delLines ++ [line], old := st.old ++ [line], mode := .delete } :=
  rfl

theorem read_insert (st : Section) (line : Text) :
    st.read (HunkLine.insert line).encode
      = { st with insLines := st.insLines ++ [line], mode := .add } :=
  rfl

/-- What is pending is an edit that begins with the pending deletions. -/
theorem splice_pending {st : Section} (h : st.Valid) {xs : List Text} {position : ℕ}
    {edits : List (Edit Text)} (hedits : Edit.InOrder xs.length (position + st.old.length) edits) :
    Edit.InOrder xs.length (position + st.old.length - st.delLines.length)
        (st.pending.map (PatchChunk.editAt position) ++ edits) ∧
      Edit.splice xs (position + st.old.length - st.delLines.length)
        (st.pending.map (PatchChunk.editAt position) ++ edits)
        = st.insLines ++ Edit.splice xs (position + st.old.length) edits := by
  have hle := h.deleted
  by_cases hnone : st.insLines.length > 0 || st.delLines.length > 0
  · have hpending : st.pending.map (PatchChunk.editAt position)
        = [⟨position + st.old.length - st.delLines.length, st.delLines.length, st.insLines⟩] := by
      have hstart : ((st.old.length : ℤ) - st.delLines.length + position).toNat
          = position + st.old.length - st.delLines.length := by omega
      rw [pending, if_pos hnone, map_singleton, PatchChunk.editAt, hstart]
    have hstop : position + st.old.length - st.delLines.length + st.delLines.length
        = position + st.old.length := by omega
    rw [hpending, singleton_append]
    refine ⟨⟨Nat.le_refl _, ?_⟩, ?_⟩
    · rw [Edit.stop, hstop]
      exact hedits
    · refine (Edit.splice_cons_self ⟨_, _, _⟩ edits).trans ?_
      rw [Edit.stop, hstop]
  · have hins : st.insLines = [] := by
      rw [← length_eq_zero_iff]
      simp at hnone
      simp [hnone.1]
    have hdel : st.delLines = [] := by
      rw [← length_eq_zero_iff]
      simp at hnone
      simp [hnone.2]
    rw [pending, if_neg hnone, hins, hdel]
    exact ⟨hedits, rfl⟩

end

/-- The chunks that come of the lines rewrite them in the file, from the first line that is not
settled. -/
structure Settles (st : Section) (lines : List (HunkLine Text)) (chunks : List PatchChunk) :
    Prop where
  nonneg : ∀ c ∈ chunks, 0 ≤ c.origIndex
  rewrites : ∀ (xs : List Text) (position : ℕ) (edits : List (Edit Text)),
    StandsAt xs (oldLines lines) (position + st.old.length) →
    Edit.InOrder xs.length (position + st.old.length + (oldLines lines).length) edits →
    Edit.InOrder xs.length (position + st.old.length - st.delLines.length)
        (chunks.map (PatchChunk.editAt position) ++ edits) ∧
      Edit.splice xs (position + st.old.length - st.delLines.length)
          (chunks.map (PatchChunk.editAt position) ++ edits)
        = st.insLines ++ newLines lines ++
          Edit.splice xs (position + st.old.length + (oldLines lines).length) edits

section

omit [Runtime]

theorem nonneg_pending {st : Section} (h : st.Valid) : ∀ c ∈ st.pending, 0 ≤ c.origIndex := by
  intro c hc
  have hle := h.deleted
  unfold pending at hc
  split at hc
  · rw [mem_singleton.mp hc]
    show (0 : ℤ) ≤ st.old.length - st.delLines.length
    omega
  · exact absurd hc not_mem_nil

theorem settles_nil {st : Section} (h : st.Valid) : Settles st [] st.pending where
  nonneg := nonneg_pending h
  rewrites := by
    intro xs position edits _ hedits
    have hspec := splice_pending h hedits
    rwa [newLines, filterMap_nil, append_nil]

theorem settles_context {st : Section} (h : st.Valid) {line : Text} {rest : List (HunkLine Text)}
    {chunks : List PatchChunk}
    (hrest : Settles (st.read (HunkLine.context line).encode) rest chunks) :
    Settles st (.context line :: rest) (st.pending ++ chunks) where
  nonneg := by
    intro c hc
    rcases mem_append.mp hc with hc | hc
    · exact nonneg_pending h c hc
    · exact hrest.nonneg c hc
  rewrites := by
    intro xs position edits hstands hedits
    obtain ⟨hline, hstands⟩ := hstands.uncons
    have hcontent := hrest.rewrites xs position edits
    rw [read_context h, length_append, length_singleton, ← Nat.add_assoc,
      length_nil, Nat.sub_zero, nil_append] at hcontent
    obtain ⟨horder, hsplice⟩ := hcontent hstands (by
      have hlength : position + st.old.length + 1 + (oldLines rest).length
          = position + st.old.length + (oldLines (.context line :: rest)).length := by
        show _ = _ + ((oldLines rest).length + 1)
        omega
      rwa [hlength])
    obtain ⟨horder', hsplice'⟩ := splice_pending h (horder.mono (Nat.le_succ _))
    rw [map_append, append_assoc]
    refine ⟨horder', hsplice'.trans ?_⟩
    -- the line that is kept is copied
    rw [Edit.splice_copy (Nat.le_succ _) horder, hsplice, Nat.succ_sub (Nat.le_refl _),
      Nat.sub_self, hline]
    have hlength : position + st.old.length + (oldLines (.context line :: rest)).length
        = position + st.old.length + 1 + (oldLines rest).length := by
      show _ + ((oldLines rest).length + 1) = _
      omega
    rw [hlength, append_assoc]
    rfl

theorem settles_delete {st : Section} {line : Text} {rest : List (HunkLine Text)}
    {chunks : List PatchChunk}
    (hrest : Settles (st.read (HunkLine.delete line).encode) rest chunks) :
    Settles st (.delete line :: rest) chunks where
  nonneg := hrest.nonneg
  rewrites := by
    intro xs position edits hstands hedits
    obtain ⟨-, hstands⟩ := hstands.uncons
    have hcontent := hrest.rewrites xs position edits
    have hlength : position + st.old.length + (oldLines (.delete line :: rest)).length
        = position + st.old.length + 1 + (oldLines rest).length := by
      show _ + ((oldLines rest).length + 1) = _
      omega
    have hstart : position + st.old.length + 1 - (st.delLines.length + 1)
        = position + st.old.length - st.delLines.length := by omega
    rw [read_delete, length_append, length_append, length_singleton,
      ← Nat.add_assoc, hstart] at hcontent
    rw [hlength] at hedits ⊢
    exact hcontent hstands hedits

theorem settles_insert {st : Section} {line : Text} {rest : List (HunkLine Text)}
    {chunks : List PatchChunk}
    (hrest : Settles (st.read (HunkLine.insert line).encode) rest chunks) :
    Settles st (.insert line :: rest) chunks where
  nonneg := hrest.nonneg
  rewrites := by
    intro xs position edits hstands hedits
    obtain ⟨horder, hsplice⟩ := hrest.rewrites xs position edits hstands hedits
    refine ⟨horder, hsplice.trans ?_⟩
    show (st.insLines ++ [line]) ++ _ ++ _ = st.insLines ++ (line :: _) ++ _
    rw [append_assoc st.insLines, singleton_append]
    rfl

end

/-- The loop of `peek` on lines of a hunk. -/
def readLines (st : Section) (lines : List (HunkLine Text)) : Section :=
  lines.foldl (fun st l => st.read l.encode) st

omit [Runtime] in
theorem Valid.read {st : Section} (h : st.Valid) (l : HunkLine Text) :
    (st.read l.encode).Valid := by
  have hle := h.deleted
  cases l with
  | context line =>
    rw [read_context h]
    exact ⟨Nat.zero_le _, fun _ => ⟨rfl, rfl⟩⟩
  | delete line =>
    rw [read_delete]
    refine ⟨?_, fun hmode => Mode.noConfusion hmode⟩
    rw [length_append, length_append]
    omega
  | insert line =>
    rw [read_insert]
    exact ⟨hle, fun hmode => Mode.noConfusion hmode⟩

omit [Runtime] in
theorem settles_readLines {st : Section} (h : st.Valid) (lines : List (HunkLine Text)) :
    (st.readLines lines).old = st.old ++ oldLines lines ∧
      ∃ chunks, (st.readLines lines).chunks ++ (st.readLines lines).pending = st.chunks ++ chunks ∧
        Settles st lines chunks := by
  induction lines generalizing st with
  | nil => exact ⟨(append_nil _).symm, st.pending, rfl, settles_nil h⟩
  | cons l rest ih =>
    obtain ⟨hold, chunks, hchunks, hsettles⟩ := ih (h.read l)
    have hcons : st.readLines (l :: rest) = (st.read l.encode).readLines rest := rfl
    rw [hcons, hold, hchunks]
    cases l with
    | context line =>
      refine ⟨?_, st.pending ++ chunks, ?_, settles_context h hsettles⟩
      · rw [read_context h]
        exact append_assoc _ _ _
      · rw [read_context h]
        exact append_assoc _ _ _
    | delete line =>
      refine ⟨?_, chunks, rfl, settles_delete hsettles⟩
      rw [read_delete]
      exact append_assoc _ _ _
    | insert line => exact ⟨rfl, chunks, rfl, settles_insert hsettles⟩

end Section

/-! ## Hunks -/

section

omit [Runtime]

/-- A line of a hunk is none of the lines at which `peek` stops. -/
theorem readSection_cons (st : Section) (l : HunkLine Text) (rest : List Text) :
    readSection st (l.encode :: rest) = readSection (st.read l.encode) rest := by
  cases l <;> rfl

theorem readSection_lines (st : Section) (lines : List (HunkLine Text)) {stop : Text}
    {rest : List Text} (hstop : startsWithAny peekStops stop = true) :
    readSection st (lines.map HunkLine.encode ++ stop :: rest)
      = .ok (st.readLines lines, stop :: rest) := by
  induction lines generalizing st with
  | nil =>
    show readSection st (stop :: rest) = .ok (st, stop :: rest)
    rw [readSection, hstop, Bool.or_true, if_pos rfl]
  | cons l others ih =>
    rw [map_cons, cons_append, readSection_cons, ih]
    rfl

theorem peek_lines (lines : List (HunkLine Text)) {stop : Text} {rest : List Text}
    (hstop : startsWithAny peekStops stop = true) (hend : stop ≠ Markers.endFile) :
    ∃ chunks, peek (lines.map HunkLine.encode ++ stop :: rest)
        = .ok ⟨oldLines lines, chunks, stop :: rest, false⟩ ∧
      Section.Settles .start lines chunks := by
  obtain ⟨hold, chunks, hchunks, hsettles⟩ := Section.settles_readLines .start lines
  refine ⟨chunks, ?_, hsettles⟩
  have hhead : (stop :: rest).head? ≠ some Markers.endFile := fun h => hend (Option.some.inj h)
  rw [peek, readSection_lines .start lines hstop]
  show (if (stop :: rest).head? = some Markers.endFile then _ else _) = _
  rw [if_neg hhead, hchunks, hold]
  rfl

end

theorem fst_findExact (lines : List Text) (size : ℕ) (canonicalContext : Text) (indices : List ℤ)
    (best : ℚ) :
    (findExact lines size canonicalContext indices best).1
      = indices.find? fun i =>
          canonicalize (joinLines (segmentAt lines size i)) = canonicalContext := by
  induction indices generalizing best with
  | nil => rfl
  | cons i rest ih =>
    rw [find?_cons]
    rw [findExact]
    by_cases hsegment : canonicalize (joinLines (segmentAt lines size i)) = canonicalContext
    · rw [if_pos hsegment, decide_eq_true hsegment]
    · rw [if_neg hsegment, decide_eq_false hsegment]
      exact ih _

/-- The context is found where it stands first, without fuzz. -/
theorem findContext_exact {fileLines context : List Text} {start position : ℕ}
    (hne : context ≠ []) (hstands : StandsAt fileLines context position) (hle : start ≤ position)
    (hfirst : ∀ i, start ≤ i → i < position → ¬ OccursAt fileLines context i) :
    findContext fileLines context start false = ((position : ℤ), 0, 1) := by
  have hlen := hstands.le_length hne
  have hpos := length_pos_of_ne_nil hne
  have hsegment {i : ℕ} (hi : i ≤ position) : segmentAt fileLines context.length i
      = (fileLines.drop i).take context.length := by
    have hslice := @slice_eq _ fileLines _ _ (Nat.le_add_right i context.length) (by omega)
    rwa [Nat.add_sub_cancel_left] at hslice
  have hfound : ((indicesFrom start fileLines.length).find? fun i =>
      canonicalize (joinLines (segmentAt fileLines context.length i))
        = canonicalize (joinLines context)) = some (position : ℤ) := by
    have hat (k : ℕ) : (start : ℤ) + k = ((start + k : ℕ) : ℤ) := by omega
    rw [indicesFrom, find?_map, Option.map_eq_some_iff]
    refine ⟨position - start, ?_, by omega⟩
    rw [find?_range_eq_some]
    refine ⟨?_, ?_, fun j hj => ?_⟩
    · rw [Function.comp_apply, hat, Nat.add_sub_cancel' hle, hsegment (Nat.le_refl _), hstands]
      exact decide_eq_true rfl
    · rw [mem_range]
      omega
    · have hbefore : start + j < position := by omega
      rw [Function.comp_apply, hat, hsegment (Nat.le_of_lt hbefore), Bool.not_eq_true']
      exact decide_eq_false (hfirst (start + j) (Nat.le_add_right _ _) hbefore)
  obtain ⟨best, hexact⟩ : ∃ best, findExact fileLines context.length
      (canonicalize (joinLines context)) (indicesFrom start fileLines.length) 0
        = (some (position : ℤ), best) :=
    ⟨_, Prod.ext ((fst_findExact ..).trans hfound) rfl⟩
  simp only [findContext, if_neg (Nat.pos_iff_ne_zero.mp hpos), findCore, hexact]
  rfl

/-- A chunk, moved to where its section is found. -/
def PatchChunk.shift (position : ℕ) (c : PatchChunk) : PatchChunk :=
  { c with origIndex := c.origIndex + position }

variable {fileLines : List Text}

/-- **Step lemma.**  A round of the loop finds the hunk where it stands. -/
theorem updateStep_hunk (path : Text) {h : Hunk} {cursor : ℕ} (chunks : List PatchChunk) (fuzz : ℕ)
    (warnings : List PatchWarning) {stop : Text} {rest : List Text}
    (hstop : startsWithAny peekStops stop = true) (hend : stop ≠ Markers.endFile)
    (hle : cursor ≤ h.position) (hne : oldLines h.lines ≠ [])
    (hstands : StandsAt fileLines (oldLines h.lines) h.position)
    (hfirst : ∀ i, cursor ≤ i → i < h.position → ¬ OccursAt fileLines (oldLines h.lines) i) :
    ∃ found, Section.Settles .start h.lines found ∧
      updateStep fileLines path ⟨h.encode ++ stop :: rest, cursor, chunks, fuzz, warnings⟩
        = .ok ⟨stop :: rest, h.edit.stop, chunks ++ found.map (PatchChunk.shift h.position), fuzz,
            warnings⟩ := by
  obtain ⟨found, hpeek, hsettles⟩ := @peek_lines h.lines _ rest hstop hend
  refine ⟨found, hsettles, ?_⟩
  have hcontext := findContext_exact hne hstands hle hfirst
  have hposition : ¬ (h.position : ℤ) = -1 := by omega
  have hsection : startsWith Markers.sectionMark (text "@@ ") = false := by decide
  simp only [updateStep, Hunk.encode, cons_append, head?_cons, Option.bind_some, hsection,
    Bool.false_eq_true, if_false, Option.isSome_none, Bool.not_false, Bool.true_and, decide_true,
    Bool.not_true, Bool.false_and, Bool.false_or, if_true, tail_cons, Option.map_none,
    Option.filter_none, Option.bind_none, Option.getD_none, Nat.add_zero, hpeek]
  show (if (findContext fileLines (oldLines h.lines) cursor false).1 = -1 then _ else _) = _
  rw [hcontext, if_neg hposition]
  rfl

theorem updateLoop_succ {path : Text} {steps : ℕ} {st st' : Update}
    (hmark : (st.rest.head?.map (startsWithAny updateStops)).getD false = false)
    (hstep : updateStep fileLines path st = .ok st') :
    updateLoop fileLines path (steps + 1) st = updateLoop fileLines path steps st' := by
  rw [updateLoop, hmark, hstep]
  rfl

def PatchChunk.edit (c : PatchChunk) : Edit Text :=
  ⟨c.origIndex.toNat, c.delLines.length, c.insLines⟩

/-- The loop finds every hunk where it stands, and the chunks do what the hunks do. -/
theorem updateLoop_hunks (path : Text) {hunks : List Hunk} {cursor : ℕ}
    (hcursor : cursor ≤ fileLines.length) (hexact : Exact fileLines cursor hunks) {steps : ℕ}
    (hsteps : hunks.length < steps) (chunks : List PatchChunk) (fuzz : ℕ)
    (warnings : List PatchWarning) :
    ∃ index found,
      updateLoop fileLines path steps ⟨encodeHunks hunks, cursor, chunks, fuzz, warnings⟩
        = some (.ok ⟨[Markers.endPatch], index, chunks ++ found, fuzz, warnings⟩) ∧
      (∀ c ∈ found, 0 ≤ c.origIndex) ∧
      Edit.InOrder fileLines.length cursor (found.map PatchChunk.edit) ∧
      Edit.splice fileLines cursor (found.map PatchChunk.edit)
        = Edit.splice fileLines cursor (hunks.map Hunk.edit) := by
  induction hunks generalizing cursor steps chunks with
  | nil =>
    obtain ⟨steps, rfl⟩ : ∃ n, steps = n + 1 := ⟨steps - 1, by simp at hsteps; omega⟩
    refine ⟨cursor, [], ?_, fun c hc => absurd hc not_mem_nil, hcursor, rfl⟩
    rw [append_nil]
    rfl
  | cons h rest ih =>
    obtain ⟨hle, hne, hstands, hfirst, hrest⟩ := hexact
    obtain ⟨steps, rfl⟩ : ∃ n, steps = n + 1 := ⟨steps - 1, by simp at hsteps; omega⟩
    have hstop := hstands.le_length hne
    -- the next line is the marker of the next hunk, or the end of the patch
    obtain ⟨stop, others, hlines, hstops, hend⟩ : ∃ stop others,
        encodeHunks rest = stop :: others ∧ startsWithAny peekStops stop = true ∧
          stop ≠ Markers.endFile := by
      cases rest with
      | nil => exact ⟨_, _, rfl, by decide, by decide⟩
      | cons h' rest => exact ⟨_, _, rfl, by decide, by decide⟩
    obtain ⟨found, hsettles, hstep⟩ := @updateStep_hunk _ _ path _ _ chunks fuzz
      warnings _ others hstops hend hle hne hstands hfirst
    obtain ⟨index, found', hloop, hnonneg, horder, hsplice⟩ := @ih h.edit.stop hstop hrest steps
      (Nat.lt_of_succ_lt_succ hsteps)
      (chunks ++ found.map (PatchChunk.shift h.position))
    have hencode : encodeHunks (h :: rest) = h.encode ++ stop :: others := by
      rw [← hlines]
      exact append_assoc _ _ _
    obtain ⟨horder', hsplice'⟩ := hsettles.rewrites fileLines h.position
      (found'.map PatchChunk.edit) hstands horder
    have hedits : (found.map (PatchChunk.shift h.position) ++ found').map PatchChunk.edit
        = found.map (PatchChunk.editAt h.position) ++ found'.map PatchChunk.edit := by
      rw [map_append, map_map]
      rfl
    refine ⟨index, found.map (PatchChunk.shift h.position) ++ found', ?_, ?_, ?_, ?_⟩
    · have hmark : ((h.encode ++ stop :: others).head?.map
          (startsWithAny updateStops)).getD false = false := by
        rw [Hunk.encode, cons_append, head?_cons, Option.map_some, Option.getD_some]
        decide
      rw [hencode, ← append_assoc, ← hloop, hlines]
      exact updateLoop_succ hmark hstep
    · intro c hc
      rcases mem_append.mp hc with hc | hc
      · obtain ⟨c', hc', rfl⟩ := mem_map.mp hc
        have hfound := hsettles.nonneg c' hc'
        show (0 : ℤ) ≤ c'.origIndex + h.position
        omega
      · exact hnonneg c hc
    · rw [hedits]
      exact horder'.mono hle
    · have hnew : Edit.splice fileLines h.position
          (found.map (PatchChunk.editAt h.position) ++ found'.map PatchChunk.edit)
            = newLines h.lines ++ Edit.splice fileLines h.edit.stop
                (found'.map PatchChunk.edit) := hsplice'
      calc Edit.splice fileLines cursor
            ((found.map (PatchChunk.shift h.position) ++ found').map PatchChunk.edit)
          = (fileLines.drop cursor).take (h.position - cursor) ++
              Edit.splice fileLines h.position
                (found.map (PatchChunk.editAt h.position) ++ found'.map PatchChunk.edit) := by
            rw [hedits]
            exact Edit.splice_copy hle horder'
        _ = (fileLines.drop cursor).take (h.position - cursor) ++
              (newLines h.lines ++ Edit.splice fileLines h.edit.stop
                (found'.map PatchChunk.edit)) := by
            rw [hnew]
        _ = Edit.splice fileLines cursor ((h :: rest).map Hunk.edit) := by
            rw [hsplice, ← append_assoc]
            rfl

/-! ## Application -/

omit [Runtime] in
/-- Chunks in order are applied as the edits that they are. -/
theorem applyLoop_eq (path : Text) (lines : List Text) {cursor : ℕ} {chunks : List PatchChunk}
    (hnonneg : ∀ c ∈ chunks, 0 ≤ c.origIndex)
    (horder : Edit.InOrder lines.length cursor (chunks.map PatchChunk.edit)) :
    applyLoop path false lines cursor chunks
      = .ok (Edit.splice lines cursor (chunks.map PatchChunk.edit)) := by
  induction chunks generalizing cursor with
  | nil =>
    have hcopy := slice_to_length horder
    rw [applyLoop, hcopy]
    rfl
  | cons c rest ih =>
    obtain ⟨hle, hrest⟩ := horder
    obtain ⟨n, hn⟩ := Int.eq_ofNat_of_zero_le (hnonneg c mem_cons_self)
    have hstart : c.edit.start = n := by
      show c.origIndex.toNat = n
      omega
    have hstop : c.edit.stop = n + c.delLines.length := by
      rw [Edit.stop, hstart]
      rfl
    have hbound : c.edit.stop ≤ lines.length := hrest.cursor_le
    rw [hstart] at hle
    have hnext := ih (fun c hc => hnonneg c (mem_cons_of_mem _ hc)) hrest
    rw [hstop] at hnext hbound
    have hover : ¬ (n : ℤ) > lines.length := by omega
    have hback : ¬ (cursor : ℤ) > n := by omega
    have hcopy := @slice_eq _ lines _ _ hle (by omega)
    have hrest' : applyLoop path false lines ((n : ℤ) + c.delLines.length) rest = _ := hnext
    simp only [applyLoop, hn, if_neg hover, if_neg hback, Bool.false_and, Bool.false_eq_true,
      if_false, map_id', hrest', hcopy]
    show Except.ok _ = Except.ok ((lines.drop cursor).take (c.edit.start - cursor) ++ _ ++
      Edit.splice lines c.edit.stop _)
    rw [hstart, hstop]
    rfl

/-! ## The whole patch -/

omit [Runtime] in
theorem length_le_encodeHunks (hunks : List Hunk) :
    hunks.length < (encodeHunks hunks).length + 1 := by
  induction hunks with
  | nil => exact Nat.succ_pos _
  | cons h rest ih =>
    rw [encodeHunks, length_append] at ih ⊢
    rw [flatMap_cons, length_append, length_cons, Hunk.encode, length_cons]
    omega

omit [Runtime] in
theorem moved_encodeHunks (hunks : List Hunk) :
    ((encodeHunks hunks).head?.filter fun l => startsWith l Markers.moveTo) = none := by
  cases hunks with
  | nil => decide
  | cons h rest =>
    show (some Markers.sectionMark).filter _ = none
    decide

variable {currentFiles : InsertionMap Text Text}

/-- The update of a file whose hunks stand where they say. -/
theorem parseUpdate_hunks {path content : Text} {hunks : List Hunk} {line : Text} {index : ℤ}
    {found : List PatchChunk} (hname : path ∉ inheritedNames)
    (hfile : currentFiles.get? path = some content)
    (hloop : updateLoop (splitLines content) path ((encodeHunks hunks).length + 1)
      ⟨encodeHunks hunks, 0, [], 0, []⟩ = some (.ok ⟨[Markers.endPatch], index, found, 0, []⟩)) :
    parseUpdate currentFiles ⟨line :: encodeHunks hunks, .empty, [], 0⟩ path
      = some (.ok ⟨[Markers.endPatch], InsertionMap.empty.set path ⟨.update, none, found, none⟩,
          [], 0⟩) := by
  have hnew : isIn (InsertionMap.empty : InsertionMap Text PatchAction) path = false := by
    rw [isIn, contains_eq_mem, decide_eq_false hname]
    rfl
  have hthere : isIn currentFiles path = true := by
    rw [isIn, hfile]
    rfl
  simp only [parseUpdate, checkDuplicate, hnew, Bool.false_eq_true, if_false, tail_cons,
    moved_encodeHunks, Option.isSome_none, hthere, Bool.not_true, hfile, Option.getD_some, hloop,
    Option.map_some, Option.map_none, Except.map]

theorem parseLoop_action {steps : ℕ} {p p' : Parser} {line : Text} {rest : List Text}
    (hrest : p.rest = line :: rest) (hend : startsWith line Markers.endPatch = false)
    (haction : parseNextAction currentFiles p line = some (.ok p')) :
    parseLoop currentFiles (steps + 1) p = parseLoop currentFiles steps p' := by
  simp only [parseLoop, hrest, hend, Bool.false_eq_true, if_false, haction]

theorem parseLoop_end {steps : ℕ} {p : Parser} (hrest : p.rest = [Markers.endPatch]) :
    parseLoop currentFiles (steps + 1) p = some (.ok p) := by
  have hend : startsWith Markers.endPatch Markers.endPatch = true := by decide
  simp only [parseLoop, hrest, hend, if_true]

/-- A patch whose hunks stand where they say is parsed without fuzz and without a warning, and
rewrites just the slices of its hunks. -/
theorem apply_patch_exact {path content : Text} {currentFiles : InsertionMap Text Text}
    {hunks : List Hunk} (hpath : trim path = path) (hname : path ∉ inheritedNames)
    (hfile : currentFiles.get? path = some content) (hexact : Exact (splitLines content) 0 hunks) :
    ∃ chunks, parse (encodePatch path hunks) currentFiles
        = some (.ok (⟨InsertionMap.empty.set path ⟨.update, none, chunks, none⟩, none⟩, 0)) ∧
      applyChunks content chunks path false
        = .ok (joinLines (Edit.splice (splitLines content) 0 (hunks.map Hunk.edit))) := by
  obtain ⟨index, found, hloop, hnonneg, horder, hsplice⟩ := updateLoop_hunks path
    (Nat.zero_le _) hexact (length_le_encodeHunks hunks) [] 0 []
  refine ⟨found, ?_, ?_⟩
  · have hupdate := @parseUpdate_hunks _ _ _ _ _ (Markers.updateFile ++ path) _ _ hname hfile
      hloop
    have hafter : pathAfter Markers.updateFile (Markers.updateFile ++ path) = path := by
      rw [pathAfter, drop_left, hpath]
    have haction : parseNextAction currentFiles
        ⟨(Markers.updateFile ++ path) :: encodeHunks hunks, .empty, [], 0⟩
        (Markers.updateFile ++ path) = _ :=
      (congrArg (parseUpdate currentFiles _) hafter).trans hupdate
    have hlines : (encodeHunks hunks).length = (hunks.flatMap Hunk.encode).length + 1 := by
      rw [encodeHunks, length_append, length_singleton]
    have hparsed : parseLoop currentFiles ((encodeHunks hunks).length + 1)
        ⟨(Markers.updateFile ++ path) :: encodeHunks hunks, .empty, [], 0⟩
          = some (.ok ⟨[Markers.endPatch],
              InsertionMap.empty.set path ⟨.update, none, found, none⟩, [], 0⟩) := by
      rw [parseLoop_action rfl rfl haction, hlines]
      exact parseLoop_end rfl
    have hbegin : startsWith Markers.beginPatch Markers.beginPatch = true := by decide
    simp only [parse, encodePatch, head?_cons, Option.map_some, hbegin, Option.getD_some,
      if_true, tail_cons, length_cons, hparsed, Except.map, length_nil]
  · have happly := applyLoop_eq path (splitLines content) hnonneg horder
    unfold applyChunks
    by_cases hnil : found.length = 0
    · rw [if_pos hnil]
      rw [length_eq_zero_iff.mp hnil] at hsplice
      rw [← hsplice]
      show _ = Except.ok (joinLines (splitLines content))
      rw [joinLines_splitLines]
    · rw [if_neg hnil]
      show (applyLoop path false (splitLines content) ((0 : ℕ) : ℤ) found).map joinLines = _
      rw [happly, hsplice]
      rfl

end

section

open Plain

/-- A hunk at the start of a file, and one at its end that begins with a line like it. -/
theorem two_hunks_are_exact :
    let content := text "a\nb\na\n"
    let hunks : List Hunk := [⟨0, [.context (text "a"), .delete (text "b"), .insert (text "@@")]⟩,
      ⟨2, [.insert (text ""), .delete (text "a"), .context (text "")]⟩]
    ∃ chunks, parse (encodePatch (text "f") hunks) (InsertionMap.empty.set (text "f") content)
        = some (.ok (⟨InsertionMap.empty.set (text "f") ⟨.update, none, chunks, none⟩, none⟩, 0)) ∧
      applyChunks content chunks (text "f") false
        = .ok (joinLines (Edit.splice (splitLines content) 0 (hunks.map Hunk.edit))) := by
  intro content hunks
  refine apply_patch_exact (by decide) (by decide) (InsertionMap.get?_set_self _ _ _) ?_
  refine ⟨Nat.le_refl _, by decide, rfl, fun i _ hi => absurd hi (Nat.not_lt_zero i), ?_⟩
  refine ⟨by decide, by decide, rfl, fun i hle hlt => ?_, trivial⟩
  exact absurd hlt (Nat.not_lt.mpr hle)

end

end Lumi.ApplyPatch
