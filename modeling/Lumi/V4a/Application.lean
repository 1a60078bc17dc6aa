import Lumi.Lib.InvertedIndex
import Lumi.Lib.Overwrite
import Lumi.Unified.Application
import Lumi.V4a.Parsers

/-!
# V4A patches applied to files

`applyV4aOperations` stages what the operations do to the files and writes it when all have been
done.  A hunk of an update is looked for from the top of the file as the hunks before have left it,
so it is applied where its old lines stand first, which need not be where they were cut.
-/

namespace Lumi.V4a

open Js Overwrite Unified List

/-! ## Hunks -/

/-- The place of the hunk: the first where its lines match exactly, or else without white space
at their ends. -/
def findMatch (fileLines expectedLines : List Text) : Option ℕ :=
  (scan fileLines expectedLines fun i => linesMatch fileLines i expectedLines).or
    (scan fileLines expectedLines fun i => linesMatchFuzzy fileLines i expectedLines)

/-- `applyV4aHunk`: the new content, or the error. -/
def applyV4aHunk (fileContent : Text) (hunk : V4aHunk) : Except Text Text :=
  let fileLines := splitLines fileContent
  let expectedLines := expectedOldLines hunk.lines
  let newLines := replacementLines hunk.lines
  if expectedLines.length = 0 then .ok (joinLines (fileLines ++ newLines))
  else
    match findMatch fileLines expectedLines with
    | none =>
      .error (text "Could not match hunk context:\n" ++ joinLines (expectedLines.take 3))
    | some matchIdx =>
      .ok (joinLines (fileLines.take matchIdx ++ newLines ++
        fileLines.drop (matchIdx + expectedLines.length)))

/-! ## Operations -/

structure V4aApplyResult where
  success : Bool
  appliedOperations : ℕ
  modifiedFiles : List Text
  error : Option Text
  deriving DecidableEq

/-- The variables of `applyV4aOperations`. -/
structure Staging where
  stagedChanges : InsertionMap Text (Option Text)
  modifiedFiles : InsertionSet Text

namespace Staging

def start : Staging := ⟨InsertionMap.empty, InsertionMap.empty⟩

/-- The content of a file, as the staged changes leave it. -/
def content (vfsReader : Text → Option Text) (s : Staging) (filePath : Text) : Option Text :=
  match s.stagedChanges.get? filePath with
  | some staged => staged
  | none => vfsReader filePath

def stage (s : Staging) (filePath : Text) (content : Option Text) : Staging where
  stagedChanges := s.stagedChanges.set filePath content
  modifiedFiles := s.modifiedFiles.add filePath

/-- One round of the loop in `applyV4aOperations`. -/
def apply (vfsReader : Text → Option Text) (s : Staging) (op : V4aPatchOperation) :
    Except Text Staging :=
  match op.type with
  | .add => .ok (s.stage op.filePath (some (op.content.getD [])))
  | .delete => .ok (s.stage op.filePath none)
  | .move =>
    let newPath := op.newPath.getD []
    if newPath = [] then
      .error (text "Move operation for '" ++ op.filePath ++ text "' is missing newPath.")
    else
      match s.content vfsReader op.filePath with
      | none => .error (text "Cannot move non-existent file '" ++ op.filePath ++ text "'.")
      | some existing => .ok ((s.stage op.filePath none).stage newPath (some existing))
  | .update =>
    match s.content vfsReader op.filePath with
    | none => .error (text "Cannot update non-existent file '" ++ op.filePath ++ text "'.")
    | some currentContent =>
      match op.hunks.foldlM applyV4aHunk currentContent with
      | .error error =>
        .error (text "Failed applying hunk on '" ++ op.filePath ++ text "': " ++ error)
      | .ok updated => .ok (s.stage op.filePath (some updated))

end Staging

/-- `applyV4aOperations`: the result, and the calls of `vfsWriter`. -/
def applyV4aOperations (operations : List V4aPatchOperation) (vfsReader : Text → Option Text) :
    V4aApplyResult × List (Text × Option Text) :=
  match operations.foldlM (Staging.apply vfsReader) .start with
  | .error error => (⟨false, 0, [], some error⟩, [])
  | .ok s =>
    (⟨true, operations.length, s.modifiedFiles.keys, none⟩, s.stagedChanges.entries)

/-! ## Operations one after another

On the files themselves, an operation that can be done is a list of writes, each of which is seen
by the operations after it.
-/

/-- The files that exist, with their contents. -/
abbrev Files := Text → Option Text

/-- What an operation writes to the files, or why it cannot be done. -/
def V4aPatchOperation.effects (op : V4aPatchOperation) (files : Files) :
    Except Text (List (Text × Option Text)) :=
  match op.type with
  | .add => .ok [(op.filePath, some (op.content.getD []))]
  | .delete => .ok [(op.filePath, none)]
  | .move =>
    if op.newPath.getD [] = [] then
      .error (text "Move operation for '" ++ op.filePath ++ text "' is missing newPath.")
    else
      match files op.filePath with
      | none => .error (text "Cannot move non-existent file '" ++ op.filePath ++ text "'.")
      | some content => .ok [(op.filePath, none), (op.newPath.getD [], some content)]
  | .update =>
    match files op.filePath with
    | none => .error (text "Cannot update non-existent file '" ++ op.filePath ++ text "'.")
    | some content =>
      match op.hunks.foldlM applyV4aHunk content with
      | .error error =>
        .error (text "Failed applying hunk on '" ++ op.filePath ++ text "': " ++ error)
      | .ok updated => .ok [(op.filePath, some updated)]

/-- The files after operations that are done one after another. -/
def applyInTurn (operations : List V4aPatchOperation) (files : Files) : Except Text Files :=
  operations.foldlM (fun files op => (op.effects files).map (overwrite files)) files

/-- The paths that an operation writes to. -/
def V4aPatchOperation.touched (op : V4aPatchOperation) : List Text :=
  if op.type = .move then [op.filePath, op.newPath.getD []] else [op.filePath]

namespace Staging

variable {vfsReader : Text → Option Text}

section

variable (s : Staging)

def stageAll (writes : List (Text × Option Text)) : Staging :=
  writes.foldl (fun s w => s.stage w.1 w.2) s

theorem content_start : start.content vfsReader = vfsReader := rfl

theorem content_stage (filePath : Text) (content : Option Text) :
    (s.stage filePath content).content vfsReader
      = Function.update (s.content vfsReader) filePath content := by
  funext path
  rw [Staging.content, stage, InsertionMap.get?_set, Function.update_apply]
  by_cases hpath : path = filePath
  · rw [if_pos hpath, if_pos hpath]
  · rw [if_neg hpath, if_neg hpath]
    rfl

theorem content_stageAll (writes : List (Text × Option Text)) :
    (s.stageAll writes).content vfsReader = overwrite (s.content vfsReader) writes := by
  induction writes generalizing s with
  | nil => rfl
  | cons w rest ih =>
    calc (s.stageAll (w :: rest)).content vfsReader
        = overwrite ((s.stage w.1 w.2).content vfsReader) rest := ih (s.stage w.1 w.2)
      _ = overwrite (s.content vfsReader) (w :: rest) := by rw [content_stage]; rfl

/-- **Step lemma.**  An operation is staged as it is done on the files that the staged changes
make of those read. -/
theorem apply_eq (op : V4aPatchOperation) :
    s.apply vfsReader op = (op.effects (s.content vfsReader)).map s.stageAll := by
  cases htype : op.type with
  | add => simp only [apply, V4aPatchOperation.effects, htype]; rfl
  | delete => simp only [apply, V4aPatchOperation.effects, htype]; rfl
  | move =>
    simp only [apply, V4aPatchOperation.effects, htype]
    by_cases hpath : op.newPath.getD [] = []
    · rw [if_pos hpath, if_pos hpath]
      rfl
    · rw [if_neg hpath, if_neg hpath]
      cases s.content vfsReader op.filePath <;> rfl
  | update =>
    simp only [apply, V4aPatchOperation.effects, htype]
    cases s.content vfsReader op.filePath with
    | none => rfl
    | some content =>
      show (match op.hunks.foldlM applyV4aHunk content with | .error error => _ | .ok updated => _)
        = Except.map s.stageAll
            (match op.hunks.foldlM applyV4aHunk content with | .error error => _ | .ok updated => _)
      cases op.hunks.foldlM applyV4aHunk content <;> rfl

/-- **Run lemma.**  The contents follow the files. -/
theorem foldlM_apply (operations : List V4aPatchOperation) (s : Staging) :
    (operations.foldlM (apply vfsReader) s).map (content vfsReader)
      = applyInTurn operations (s.content vfsReader) := by
  induction operations generalizing s with
  | nil => rfl
  | cons op rest ih =>
    rw [applyInTurn, foldlM_cons, foldlM_cons, apply_eq]
    cases op.effects (s.content vfsReader) with
    | error error => rfl
    | ok writes =>
      calc ((rest.foldlM (apply vfsReader) (s.stageAll writes)).map (content vfsReader))
          = applyInTurn rest ((s.stageAll writes).content vfsReader) := ih (s.stageAll writes)
        _ = applyInTurn rest (overwrite (s.content vfsReader) writes) := by
            rw [content_stageAll]

/-! ### The paths -/

/-- Every path that is staged is counted as modified, and no other, in the same order. -/
def Counted : Prop := s.modifiedFiles.keys = s.stagedChanges.keys

theorem Counted.stageAll {s : Staging} (h : s.Counted) (writes : List (Text × Option Text)) :
    (s.stageAll writes).Counted ∧ ∀ path, path ∈ (s.stageAll writes).stagedChanges.keys ↔
      path ∈ s.stagedChanges.keys ∨ path ∈ writes.map Prod.fst := by
  induction writes generalizing s with
  | nil => exact ⟨h, fun path => (or_iff_left not_mem_nil).symm⟩
  | cons w rest ih =>
    have hstage : (s.stage w.1 w.2).Counted := by
      have hkeys : s.modifiedFiles.keys = s.stagedChanges.keys := h
      rw [Counted, stage, InsertionSet.add, InsertionMap.keys_set, InsertionMap.keys_set, hkeys]
    obtain ⟨hcounted, hpaths⟩ := ih hstage
    refine ⟨hcounted, fun path => (hpaths path).trans ?_⟩
    have hset : path ∈ (s.stage w.1 w.2).stagedChanges.keys ↔
        path = w.1 ∨ path ∈ s.stagedChanges.keys := InsertionMap.mem_keys_setEntries
    rw [hset, map_cons, mem_cons, or_assoc, or_left_comm]

theorem touched_eq {op : V4aPatchOperation} {files : Files} {writes : List (Text × Option Text)}
    (h : op.effects files = .ok writes) : writes.map Prod.fst = op.touched := by
  unfold V4aPatchOperation.effects at h
  unfold V4aPatchOperation.touched
  cases htype : op.type <;> rw [htype] at h
  case add => cases h; rfl
  case delete => cases h; rfl
  case move =>
      by_cases hpath : op.newPath.getD [] = []
      · rw [if_pos hpath] at h
        cases h
      · rw [if_neg hpath] at h
        cases hfile : files op.filePath with
        | none => rw [hfile] at h; cases h
        | some content => rw [hfile] at h; cases h; rfl
  case update =>
      cases hfile : files op.filePath with
      | none => rw [hfile] at h; cases h
      | some content =>
        rw [hfile] at h
        cases hhunks : op.hunks.foldlM applyV4aHunk content with
        | error error => simp only [hhunks] at h; cases h
        | ok updated => simp only [hhunks] at h; cases h; rfl

theorem Counted.foldlM {operations : List V4aPatchOperation} {s s' : Staging} (h : s.Counted)
    (hrun : operations.foldlM (apply vfsReader) s = .ok s') :
    s'.Counted ∧ ∀ path, path ∈ s'.stagedChanges.keys ↔
      path ∈ s.stagedChanges.keys ∨ ∃ op ∈ operations, path ∈ op.touched := by
  induction operations generalizing s with
  | nil =>
    cases hrun
    exact ⟨h, fun path => by simp⟩
  | cons op rest ih =>
    rw [foldlM_cons, apply_eq] at hrun
    cases hwrites : op.effects (s.content vfsReader) with
    | error error => rw [hwrites] at hrun; cases hrun
    | ok writes =>
      rw [hwrites] at hrun
      obtain ⟨hstaged, hkeys⟩ := h.stageAll writes
      obtain ⟨hcounted, hpaths⟩ := ih hstaged hrun
      refine ⟨hcounted, fun path => ?_⟩
      rw [hpaths, hkeys, touched_eq hwrites, or_assoc]
      simp only [mem_cons, exists_eq_or_imp]

/-- The staged changes, written one after the other, make of the files read what the operations
see. -/
theorem overwrite_stagedChanges :
    overwrite vfsReader s.stagedChanges.entries = s.content vfsReader := by
  funext path
  have hlookup : overwrite vfsReader s.stagedChanges.entries path
      = (s.stagedChanges.get? path).getD (vfsReader path) :=
    overwrite_eq_lookup s.stagedChanges.nodup vfsReader path
  rw [hlookup, Staging.content]
  cases s.stagedChanges.get? path <;> rfl

end

end Staging

/-- **Operations are applied to the files one after another, or none is.**  Where all of them can
be done in turn, the writes make of the files what these then are, and there is one for each path
that an operation touches; otherwise there is no write, and the error is that of the first
operation that cannot be done. -/
theorem applyV4aOperations_inTurn (operations : List V4aPatchOperation)
    (vfsReader : Text → Option Text) :
    match applyInTurn operations vfsReader with
    | .ok files =>
      ∃ writes modifiedFiles, applyV4aOperations operations vfsReader
          = (⟨true, operations.length, modifiedFiles, none⟩, writes) ∧
        overwrite vfsReader writes = files ∧
        writes.map Prod.fst = modifiedFiles ∧ modifiedFiles.Nodup ∧
        ∀ path, path ∈ modifiedFiles ↔ ∃ op ∈ operations, path ∈ op.touched
    | .error error => applyV4aOperations operations vfsReader = (⟨false, 0, [], some error⟩, []) := by
  have hrun := @Staging.foldlM_apply vfsReader operations .start
  rw [Staging.content_start] at hrun
  rw [← hrun, applyV4aOperations]
  cases hstaged : operations.foldlM (Staging.apply vfsReader) .start with
  | error error => rfl
  | ok s =>
    have hstart : Staging.start.Counted := rfl
    obtain ⟨hcounted, hpaths⟩ := hstart.foldlM hstaged
    refine ⟨s.stagedChanges.entries, s.modifiedFiles.keys, rfl, s.overwrite_stagedChanges,
      hcounted.symm, s.modifiedFiles.nodup, fun path => ?_⟩
    have hkeys : path ∈ Staging.start.stagedChanges.keys ↔ False := mem_nil_iff path
    rw [hcounted, hpaths, hkeys, false_or]

/-! ## Where hunks were cut

Each hunk is looked for in the whole file, with the new lines of the hunks before.  Lines that it
should rewrite stand once in the file that it was cut from, but may stand there again in front.
-/

/-- A hunk, and the line of the file where its old lines were cut. -/
structure CutHunk where
  position : ℕ
  lines : List (HunkLine Text)
  contextHint : Option Text

namespace CutHunk

def old (h : CutHunk) : List Text := oldLines h.lines

def new (h : CutHunk) : List Text := newLines h.lines

def edit (h : CutHunk) : Edit Text := hunkEdit h.position h.lines

def v4aHunk (h : CutHunk) : V4aHunk := ⟨h.contextHint, h.lines.map patchLine⟩

end CutHunk

/-- The old lines of the hunks are slices of the file, in order and apart, and each stands once in
it. -/
structure AreCut (fileLines : List Text) (hunks : List CutHunk) : Prop where
  order : Edit.InOrder fileLines.length 0 (hunks.map CutHunk.edit)
  nonempty : ∀ h ∈ hunks, h.old ≠ []
  stands : ∀ h ∈ hunks, StandsAt fileLines h.old h.position
  once : ∀ h ∈ hunks, ∀ i < fileLines.length, StandsAt fileLines h.old i → i = h.position
  lines : ∀ h ∈ hunks, ∀ line ∈ h.new, newline ∉ line

/-- Where the old lines of a hunk stand before its place, they stand first where the new ones can
change places with the lines up to there. -/
def Unmistaken (fileLines : List Text) (h : CutHunk) (start place : ℕ) : Prop :=
  ∀ i < start, StandsAt fileLines h.old i → (∀ j < i, ¬ StandsAt fileLines h.old j) →
    h.new ++ (fileLines.drop (i + h.old.length)).take (place - i)
      = (fileLines.drop i).take (place - i) ++ h.new

instance (fileLines : List Text) (h : CutHunk) (start place : ℕ) :
    Decidable (Unmistaken fileLines h start place) := by
  unfold Unmistaken
  infer_instance

/-- No hunk is mistaken in what the hunks before it have rewritten: `done`, with what follows
`cursor` after it. -/
def AllUnmistaken (fileLines : List Text) : ℕ → List Text → List CutHunk → Prop
  | _, _, [] => True
  | cursor, done, h :: rest =>
    Unmistaken (done ++ fileLines.drop cursor) h done.length
      (done.length + (h.position - cursor)) ∧
    AllUnmistaken fileLines h.edit.stop
      (done ++ (fileLines.drop cursor).take (h.position - cursor) ++ h.new) rest

instance decidableAllUnmistaken (fileLines : List Text) : ∀ cursor done hunks,
    Decidable (AllUnmistaken fileLines cursor done hunks)
  | _, _, [] => isTrue trivial
  | cursor, done, h :: rest =>
    have := decidableAllUnmistaken fileLines h.edit.stop
      (done ++ (fileLines.drop cursor).take (h.position - cursor) ++ h.new) rest
    inferInstanceAs (Decidable (_ ∧ _))

/-! ### One hunk -/

/-- The lines of a file after the hunk is applied at a place. -/
def CutHunk.applyAt (h : CutHunk) (fileLines : List Text) (place : ℕ) : List Text :=
  fileLines.take place ++ h.new ++ fileLines.drop (place + h.old.length)

section

variable {fileLines done : List Text} {h : CutHunk} {place cursor : ℕ}

/-- A hunk whose old lines stand in the file is applied where they stand first. -/
theorem applyV4aHunk_stands (hlines : ∀ line ∈ fileLines, newline ∉ line) (hold : h.old ≠ [])
    (hstands : StandsAt fileLines h.old place) :
    ∃ first ≤ place, StandsAt fileLines h.old first ∧
      (∀ i < first, ¬ StandsAt fileLines h.old i) ∧
      applyV4aHunk (joinLines fileLines) h.v4aHunk = .ok (joinLines (h.applyAt fileLines first)) := by
  obtain ⟨first, hle, hscan, hfirst, hnone⟩ := scan_stands hold hstands
  refine ⟨first, hle, hfirst, hnone, ?_⟩
  have hne : fileLines ≠ [] := by
    have hbound := hstands.le_length hold
    have hpos := length_pos_of_ne_nil hold
    rw [← length_pos_iff_ne_nil]
    omega
  have hexpected : expectedOldLines h.v4aHunk.lines = h.old := expectedOldLines_patchLine h.lines
  have hreplacement : replacementLines h.v4aHunk.lines = h.new := replacementLines_patchLine h.lines
  have hfind : findMatch fileLines h.old = some first := by
    rw [findMatch, hscan, Option.some_or]
  simp only [applyV4aHunk, splitLines_joinLines hne hlines, hexpected, hreplacement, hfind]
  rw [if_neg (mt length_eq_zero_iff.mp hold)]
  rfl

theorem length_applyAt (hbound : place + h.old.length ≤ fileLines.length) :
    (h.applyAt fileLines place).length + h.old.length = fileLines.length + h.new.length := by
  rw [CutHunk.applyAt, length_append, length_append, length_take, length_drop]
  omega

theorem newline_notMem_applyAt (hlines : ∀ line ∈ fileLines, newline ∉ line)
    (hnew : ∀ line ∈ h.new, newline ∉ line) :
    ∀ line ∈ h.applyAt fileLines place, newline ∉ line := by
  intro line hline
  rw [CutHunk.applyAt, mem_append, mem_append] at hline
  rcases hline with (hline | hline) | hline
  · exact hlines line (mem_of_mem_take hline)
  · exact hnew line hline
  · exact hlines line (mem_of_mem_drop hline)

/-- The hunk makes of the file what it should just where it is not mistaken. -/
theorem applyV4aHunk_iff (hlines : ∀ line ∈ fileLines, newline ∉ line) (hold : h.old ≠ [])
    (hnew : ∀ line ∈ h.new, newline ∉ line) (hstands : StandsAt fileLines h.old place) {start : ℕ}
    (honce : ∀ i, start ≤ i → StandsAt fileLines h.old i → i = place) :
    applyV4aHunk (joinLines fileLines) h.v4aHunk = .ok (joinLines (h.applyAt fileLines place)) ↔
      Unmistaken fileLines h start place := by
  obtain ⟨first, hle, hfirst, hnone, happly⟩ := applyV4aHunk_stands hlines hold hstands
  have hbound := hstands.le_length hold
  have hlengths : (h.applyAt fileLines first).length = (h.applyAt fileLines place).length := by
    have hfirstLength := length_applyAt (hfirst.le_length hold)
    have hplaceLength := length_applyAt hbound
    omega
  have hsame : joinLines (h.applyAt fileLines first) = joinLines (h.applyAt fileLines place) ↔
      h.new ++ (fileLines.drop (first + h.old.length)).take (place - first)
        = (fileLines.drop first).take (place - first) ++ h.new := by
    rw [joinLines_inj hlengths (newline_notMem_applyAt hlines hnew)
      (newline_notMem_applyAt hlines hnew)]
    exact Edit.replace_eq_iff h.new hle
  rw [happly, Except.ok.injEq, hsame]
  constructor
  · -- the first place is the only one that the condition asks about
    intro hswap i hi hstandsAt hbefore
    have heq : i = first := by
      rcases Nat.lt_trichotomy i first with hlt | heq | hgt
      · exact absurd hstandsAt (hnone i hlt)
      · exact heq
      · exact absurd hfirst (hbefore first hgt)
    rw [heq]
    exact hswap
  · intro hunmistaken
    by_cases hlt : first < start
    · exact hunmistaken first hlt hfirst hnone
    · rw [honce first (Nat.le_of_not_lt hlt) hfirst, Nat.sub_self, take_zero, take_zero,
        append_nil, nil_append]

end

/-! ### Hunks one after another -/

section

variable {fileLines done : List Text} {cursor : ℕ}

/-- **Step lemma.**  Where the hunks before have been applied, the next one gives what it should
just where it is not mistaken. -/
theorem applyV4aHunk_next {h : CutHunk} (hle : cursor ≤ h.position)
    (hlines : ∀ line ∈ done ++ fileLines.drop cursor, newline ∉ line) (hold : h.old ≠ [])
    (hnew : ∀ line ∈ h.new, newline ∉ line) (hstands : StandsAt fileLines h.old h.position)
    (honce : ∀ i < fileLines.length, StandsAt fileLines h.old i → i = h.position) :
    applyV4aHunk (joinLines (done ++ fileLines.drop cursor)) h.v4aHunk
        = .ok (joinLines (done ++ (fileLines.drop cursor).take (h.position - cursor) ++ h.new ++
            fileLines.drop h.edit.stop)) ↔
      Unmistaken (done ++ fileLines.drop cursor) h done.length
        (done.length + (h.position - cursor)) := by
  have hrest : (done ++ fileLines.drop cursor).drop (done.length + (h.position - cursor))
      = fileLines.drop h.position := Edit.drop_rewritten done hle
  have hstandsAt : StandsAt (done ++ fileLines.drop cursor) h.old
      (done.length + (h.position - cursor)) := by
    rw [StandsAt, hrest]
    exact hstands
  have honceAt : ∀ i, done.length ≤ i → StandsAt (done ++ fileLines.drop cursor) h.old i →
      i = done.length + (h.position - cursor) := by
    intro i hi hstands'
    obtain ⟨n, rfl⟩ := Nat.exists_eq_add_of_le hi
    rw [StandsAt, drop_length_add_append, drop_drop] at hstands'
    have hbound := StandsAt.le_length hold hstands'
    have hpos := length_pos_of_ne_nil hold
    have hplace := honce (cursor + n) (by omega) hstands'
    omega
  have happly : h.applyAt (done ++ fileLines.drop cursor) (done.length + (h.position - cursor))
      = done ++ (fileLines.drop cursor).take (h.position - cursor) ++ h.new ++
          fileLines.drop h.edit.stop := by
    have hstop : h.position + h.old.length = h.edit.stop := rfl
    rw [CutHunk.applyAt, Edit.take_rewritten, ← drop_drop, hrest, drop_drop, hstop]
  rw [← happly]
  exact applyV4aHunk_iff hlines hold hnew hstandsAt honceAt

/-- The hunks that are cut from the rest of the file. -/
theorem AreCut.tail {h : CutHunk} {rest : List CutHunk}
    (hcut : AreCut fileLines (h :: rest)) : AreCut fileLines rest where
  order := hcut.order.2.mono (Nat.zero_le _)
  nonempty h' hh' := hcut.nonempty h' (mem_cons_of_mem _ hh')
  stands h' hh' := hcut.stands h' (mem_cons_of_mem _ hh')
  once h' hh' := hcut.once h' (mem_cons_of_mem _ hh')
  lines h' hh' := hcut.lines h' (mem_cons_of_mem _ hh')

/-- **Run lemma.**  Hunk after hunk, the file has just the slices so far rewritten if and only if
no hunk is mistaken. -/
theorem foldlM_applyV4aHunk_iff {hunks : List CutHunk} (hcut : AreCut fileLines hunks)
    (horder : Edit.InOrder fileLines.length cursor (hunks.map CutHunk.edit))
    (hfile : ∀ line ∈ fileLines, newline ∉ line) (hdone : ∀ line ∈ done, newline ∉ line) :
    (∀ n, ((hunks.take n).map CutHunk.v4aHunk).foldlM applyV4aHunk
        (joinLines (done ++ fileLines.drop cursor))
      = .ok (joinLines (done ++
          Edit.splice fileLines cursor ((hunks.take n).map CutHunk.edit)))) ↔
      AllUnmistaken fileLines cursor done hunks := by
  induction hunks generalizing cursor done with
  | nil =>
    refine ⟨fun _ => trivial, fun _ n => ?_⟩
    rw [take_nil]
    rfl
  | cons h rest ih =>
    have hh : h ∈ h :: rest := mem_cons_self
    have hlines : ∀ line ∈ done ++ fileLines.drop cursor, newline ∉ line := by
      intro line hline
      rcases mem_append.mp hline with hline | hline
      · exact hdone line hline
      · exact hfile line (mem_of_mem_drop hline)
    have hnext := applyV4aHunk_next horder.1 hlines (hcut.nonempty h hh) (hcut.lines h hh)
      (hcut.stands h hh) (hcut.once h hh)
    have hdone' : ∀ line ∈ done ++ (fileLines.drop cursor).take (h.position - cursor) ++ h.new,
        newline ∉ line := by
      intro line hline
      rcases mem_append.mp hline with hline | hline
      · rcases mem_append.mp hline with hline | hline
        · exact hdone line hline
        · exact hfile line (mem_of_mem_drop (mem_of_mem_take hline))
      · exact hcut.lines h hh line hline
    have hrest := ih hcut.tail horder.2 hdone'
    -- what is spliced after the hunk goes on from where it stops
    have hsplice (edits : List (Edit Text)) : done ++ Edit.splice fileLines cursor (h.edit :: edits)
        = done ++ (fileLines.drop cursor).take (h.position - cursor) ++ h.new ++
            Edit.splice fileLines h.edit.stop edits := by
      show done ++ ((fileLines.drop cursor).take (h.position - cursor) ++ h.new ++ _) = _
      rw [append_assoc, append_assoc, append_assoc]
    rw [AllUnmistaken, ← hnext, ← hrest]
    constructor
    · intro hall
      have hfirst : applyV4aHunk (joinLines (done ++ fileLines.drop cursor)) h.v4aHunk
          = .ok (joinLines (done ++ (fileLines.drop cursor).take (h.position - cursor) ++ h.new ++
              fileLines.drop h.edit.stop)) := by
        have hone := hall 1
        rw [take_succ_cons, take_zero, map_singleton, map_singleton, hsplice,
          foldlM_cons] at hone
        simpa [Edit.splice] using hone
      refine ⟨hfirst, fun n => ?_⟩
      have hmore := hall (n + 1)
      rw [take_succ_cons, map_cons, map_cons, hsplice, foldlM_cons,
        hfirst] at hmore
      exact hmore
    · rintro ⟨hfirst, hall⟩ n
      cases n with
      | zero => rfl
      | succ n =>
        rw [take_succ_cons, map_cons, map_cons, hsplice, foldlM_cons, hfirst]
        exact hall n

end

/-- **Hunks apply where they were cut**, each after those before it, if and only if none is mistaken
in what these have rewritten. -/
theorem hunks_apply_iff {file : Text} {hunks : List CutHunk} (hcut : AreCut (splitLines file) hunks) :
    (∀ n, ((hunks.take n).map CutHunk.v4aHunk).foldlM applyV4aHunk file
      = .ok (joinLines (Edit.splice (splitLines file) 0 ((hunks.take n).map CutHunk.edit)))) ↔
      AllUnmistaken (splitLines file) 0 [] hunks := by
  have hrun := @foldlM_applyV4aHunk_iff _ [] 0 _ hcut hcut.order
    (fun line hline => newline_notMem_splitLines hline) fun line hline => absurd hline (by simp)
  rw [nil_append, drop_zero, joinLines_splitLines] at hrun
  exact hrun

/-- Two hunks that do not get into each other's way. -/
theorem apart_hunks_apply :
    let hunks : List CutHunk := [⟨0, [.insert (text "0"), .context (text "a")], none⟩,
      ⟨1, [.context (text "b"), .delete (text "c")], none⟩]
    (hunks.map CutHunk.v4aHunk).foldlM applyV4aHunk (text "a\nb\nc") = .ok (text "0\na\nb") := by
  intro hunks
  have hall := (@hunks_apply_iff (text "a\nb\nc") hunks
    ⟨by decide +kernel, by decide +kernel, by decide +kernel, by decide +kernel,
      by decide +kernel⟩).mpr (by decide +kernel)
  exact (hall 2).trans (by decide +kernel)

/-- The first hunk puts the second one's line in front of it. -/
def imitatedHunks : List CutHunk := [⟨0, [.delete (text "a"), .insert (text "b")], none⟩,
  ⟨1, [.delete (text "b"), .insert (text "c")], none⟩]

theorem imitated_hunk_misapplied :
    IsLF (text "a\nb") ∧ AreCut (splitLines (text "a\nb")) imitatedHunks ∧
      (imitatedHunks.map CutHunk.v4aHunk).foldlM applyV4aHunk (text "a\nb")
        = .ok (text "c\nb") ∧
      joinLines (Edit.splice (splitLines (text "a\nb")) 0 (imitatedHunks.map CutHunk.edit))
        = text "b\nc" := by
  refine ⟨by decide +kernel, ⟨?_, ?_, ?_, ?_, ?_⟩, by decide +kernel, by decide +kernel⟩ <;>
    decide +kernel

end Lumi.V4a
