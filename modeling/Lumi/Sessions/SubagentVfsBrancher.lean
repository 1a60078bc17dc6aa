import Lumi.Lib.InsertionMap
import Lumi.Lib.PosixPath
import Mathlib.Data.List.Dedup
import Mathlib.Data.List.Sort
import Mathlib.Data.List.Lex

/-!
# Overlays of subagents

A subagent works on a copy of the files its parent has staged, and what it has changed is merged
into the parent at the end.  The files at the time of the branch are kept as the baseline.

A file that the subagent has unstaged is seen as changed, but only a staged file can be handed over
to the parent, who therefore keeps it (`merges_iff`).  Times at which files were staged are left out.
-/

namespace Lumi.Sessions

open Js List InsertionMap

variable {δ : Type}

structure VfsFileOverlay (δ : Type) where
  path : Text
  content : Text
  isDeleted : Bool
  diskBaseline : Option δ
  deriving DecidableEq

/-- Files under their own, normalised paths; a deleted one is empty. -/
def Staged (files : InsertionMap Text (VfsFileOverlay δ)) : Prop :=
  ∀ path file, files.get? path = some file →
    file.path = path ∧ PosixPath.normalize path = path ∧ (file.isDeleted = true → file.content = [])

theorem Staged.set {files : InsertionMap Text (VfsFileOverlay δ)} (h : Staged files)
    (file : VfsFileOverlay δ) (hpath : PosixPath.normalize file.path = file.path)
    (hdeleted : file.isDeleted = true → file.content = []) : Staged (files.set file.path file) := by
  intro path found hfound
  rw [get?_set] at hfound
  split_ifs at hfound with hsame
  · cases hfound
    exact ⟨hsame.symm, hsame ▸ hpath, hdeleted⟩
  · exact h path found hfound

/-- The session's staged files. -/
structure SessionVfs (δ : Type) where
  stagedFiles : InsertionMap Text (VfsFileOverlay δ)
  staged : Staged stagedFiles

namespace SessionVfs

def new : SessionVfs δ := ⟨.empty, fun _ _ h => nomatch h⟩

section

variable (vfs : SessionVfs δ)

def stageWrite (filePath content : Text) (diskBaseline : Option δ) : SessionVfs δ :=
  let normalized := PosixPath.normalize filePath
  ⟨vfs.stagedFiles.set normalized ⟨normalized, content, false, diskBaseline⟩,
    vfs.staged.set ⟨normalized, content, false, diskBaseline⟩ (PosixPath.normalize_normalize _)
      fun h => Bool.noConfusion h⟩

def stageDelete (filePath : Text) (diskBaseline : Option δ) : SessionVfs δ :=
  let normalized := PosixPath.normalize filePath
  ⟨vfs.stagedFiles.set normalized ⟨normalized, [], true, diskBaseline⟩,
    vfs.staged.set ⟨normalized, [], true, diskBaseline⟩ (PosixPath.normalize_normalize _)
      fun _ => rfl⟩

def unstage (filePath : Text) : SessionVfs δ :=
  ⟨vfs.stagedFiles.delete (PosixPath.normalize filePath), by
    intro path file hfile
    rw [get?_delete] at hfile
    split_ifs at hfile
    exact vfs.staged path file hfile⟩

def exportStaged : List (VfsFileOverlay δ) := vfs.stagedFiles.values

/-- A staged file is staged again, written or deleted. -/
def stage (file : VfsFileOverlay δ) : SessionVfs δ :=
  if !file.isDeleted then vfs.stageWrite file.path file.content file.diskBaseline
  else vfs.stageDelete file.path file.diskBaseline

/-- A change of the staged files. -/
inductive Edit (δ : Type)
  | stageWrite (filePath content : Text) (diskBaseline : Option δ)
  | stageDelete (filePath : Text) (diskBaseline : Option δ)
  | unstage (filePath : Text)
  | clear

def edit : Edit δ → SessionVfs δ
  | .stageWrite filePath content diskBaseline => vfs.stageWrite filePath content diskBaseline
  | .stageDelete filePath diskBaseline => vfs.stageDelete filePath diskBaseline
  | .unstage filePath => vfs.unstage filePath
  | .clear => new

end

end SessionVfs

/-! ## The brancher -/

/-- `new Map(files.map((file) => [file.path, file]))`. -/
def byPath (files : List (VfsFileOverlay δ)) : InsertionMap Text (VfsFileOverlay δ) :=
  ofList (files.map fun file => (file.path, file))

theorem byPath_exportStaged (vfs : SessionVfs δ) : byPath vfs.exportStaged = vfs.stagedFiles := by
  have hpairs : vfs.exportStaged.map (fun file => (file.path, file)) = vfs.stagedFiles.entries := by
    unfold SessionVfs.exportStaged values
    rw [map_map]
    refine (map_congr_left fun entry hentry => ?_).trans (map_id _)
    have hpath := (vfs.staged _ _ (mem_entries_iff.mp hentry)).1
    exact Prod.ext hpath rfl
  rw [byPath, hpairs, ofList_entries]

structure BranchOverlay (δ : Type) where
  parentSessionId : Text
  vfs : SessionVfs δ
  baseline : InsertionMap Text (VfsFileOverlay δ)
  staged : Staged baseline

structure SubagentVfsBrancher (δ : Type) where
  overlays : InsertionMap Text (BranchOverlay δ)
  parentVfsStore : InsertionMap Text (SessionVfs δ)

structure CommitResult where
  success : Bool
  committedFiles : List Text
  conflicts : List Text

def sameContent (a b : Option (VfsFileOverlay δ)) : Bool :=
  match a, b with
  | some a, some b => a.path = b.path && a.content = b.content && a.isDeleted = b.isDeleted
  | none, none => true
  | _, _ => false

namespace SubagentVfsBrancher

section

variable (b : SubagentVfsBrancher δ)

def registerParentVfs (sessionId : Text) (vfs : SessionVfs δ) : SubagentVfsBrancher δ :=
  { b with parentVfsStore := b.parentVfsStore.set sessionId vfs }

def createBranchOverlay (parentSessionId subagentSessionId : Text) : SubagentVfsBrancher δ :=
  let overlay : BranchOverlay δ :=
    match b.parentVfsStore.get? parentSessionId with
    | none => ⟨parentSessionId, .new, .empty, SessionVfs.new.staged⟩
    | some parentVfs =>
      { parentSessionId
        vfs := parentVfs.exportStaged.foldl .stage .new
        baseline := byPath parentVfs.exportStaged
        staged := byPath_exportStaged parentVfs ▸ parentVfs.staged }
  { b with overlays := b.overlays.set subagentSessionId overlay }

/-- The files of the loop in `commitBranchOverlaySafely` that are in conflict. -/
def conflicts (overlay : BranchOverlay δ) (currentParent : InsertionMap Text (VfsFileOverlay δ))
    (paths : List Text) : List Text :=
  paths.filter fun filePath =>
    let before := overlay.baseline.get? filePath
    let child := (byPath overlay.vfs.exportStaged).get? filePath
    let parentNow := currentParent.get? filePath
    !sameContent before child && !sameContent before parentNow && !sameContent child parentNow

/-- `changedFiles`, where no file is in conflict. -/
def changedFiles (overlay : BranchOverlay δ) (paths : List Text) : List (VfsFileOverlay δ) :=
  paths.filterMap fun filePath =>
    let child := (byPath overlay.vfs.exportStaged).get? filePath
    if sameContent (overlay.baseline.get? filePath) child then none else child

def commitBranchOverlaySafely (subagentSessionId : Text) : CommitResult × SubagentVfsBrancher δ :=
  match b.overlays.get? subagentSessionId with
  | none => (⟨false, [], []⟩, b)
  | some overlay =>
    match b.parentVfsStore.get? overlay.parentSessionId with
    | none => (⟨false, [], []⟩, b)
    | some parentVfs =>
      let paths := (overlay.baseline.keys ++ (byPath overlay.vfs.exportStaged).keys).eraseDups
      let conflicts := conflicts overlay (byPath parentVfs.exportStaged) paths
      let changedFiles := changedFiles overlay paths
      if conflicts ≠ [] then (⟨false, [], conflicts.insertionSort (· ≤ ·)⟩, b)
      else
        (⟨true, changedFiles.map (·.path), []⟩,
          { overlays := b.overlays.delete subagentSessionId
            parentVfsStore := b.parentVfsStore.set overlay.parentSessionId
              (changedFiles.foldl .stage parentVfs) })

/-- Changes of the files of a parent, while others work on theirs. -/
def editParent (sessionId : Text) (edits : List (SessionVfs.Edit δ)) : SubagentVfsBrancher δ :=
  match b.parentVfsStore.get? sessionId with
  | none => b
  | some vfs =>
    { b with parentVfsStore := b.parentVfsStore.set sessionId (edits.foldl .edit vfs) }

/-- Changes of the files of a subagent. -/
def editBranch (subagentSessionId : Text)
    (edits : List (SessionVfs.Edit δ)) : SubagentVfsBrancher δ :=
  match b.overlays.get? subagentSessionId with
  | none => b
  | some overlay =>
    { b with
      overlays := b.overlays.set subagentSessionId
        { overlay with vfs := edits.foldl .edit overlay.vfs } }

end

end SubagentVfsBrancher

/-! ## Staging again -/

/-- What a file has to be for staging it to put it under its path as it is. -/
def Normal (file : VfsFileOverlay δ) : Prop :=
  PosixPath.normalize file.path = file.path ∧ (file.isDeleted = true → file.content = [])

theorem Staged.normal {files : InsertionMap Text (VfsFileOverlay δ)} (h : Staged files) {path : Text}
    {file : VfsFileOverlay δ} (hfile : files.get? path = some file) :
    file.path = path ∧ Normal file := by
  obtain ⟨hpath, hnormal, hdeleted⟩ := h path file hfile
  exact ⟨hpath, hpath ▸ hnormal, hdeleted⟩

namespace SessionVfs

@[ext] theorem ext {vfs vfs' : SessionVfs δ} (h : vfs.stagedFiles = vfs'.stagedFiles) : vfs = vfs' := by
  cases vfs
  cases vfs'
  cases h
  rfl

theorem stagedFiles_stage (vfs : SessionVfs δ) {file : VfsFileOverlay δ} (h : Normal file) :
    (vfs.stage file).stagedFiles = vfs.stagedFiles.set file.path file := by
  obtain ⟨path, content, isDeleted, diskBaseline⟩ := file
  obtain ⟨hpath, hdeleted⟩ := h
  dsimp only at hpath hdeleted
  cases isDeleted with
  | false => simp only [stage, stageWrite, hpath, Bool.not_false, if_true]
  | true =>
    simp only [stage, stageDelete, hpath, hdeleted, Bool.not_true, Bool.false_eq_true, if_false]

theorem stagedFiles_foldl_stage {files : List (VfsFileOverlay δ)} (h : ∀ file ∈ files, Normal file)
    (vfs : SessionVfs δ) : (files.foldl stage vfs).stagedFiles =
      files.foldl (fun staged file => staged.set file.path file) vfs.stagedFiles := by
  induction files generalizing vfs with
  | nil => rfl
  | cons file rest ih =>
    rw [foldl_cons, ih (fun f hf => h f (mem_cons_of_mem _ hf)),
      stagedFiles_stage vfs (h file mem_cons_self), foldl_cons]

/-- A branch begins with the files of its parent. -/
theorem foldl_stage_exportStaged (vfs : SessionVfs δ) : vfs.exportStaged.foldl stage new = vfs := by
  have hnormal : ∀ file ∈ vfs.exportStaged, Normal file := by
    intro file hfile
    obtain ⟨⟨path, file⟩, hentry, rfl⟩ := mem_map.mp hfile
    exact (vfs.staged.normal (mem_entries_iff.mp hentry)).2
  apply SessionVfs.ext
  rw [stagedFiles_foldl_stage hnormal, ← byPath_exportStaged vfs, byPath, ofList, foldl_map]
  rfl

/-- Files of a subagent overwrite those of its parent. -/
theorem get?_foldl_stage {child : SessionVfs δ} {files : List (VfsFileOverlay δ)}
    (h : ∀ file ∈ files, child.stagedFiles.get? file.path = some file) (vfs : SessionVfs δ)
    (path : Text) : (files.foldl stage vfs).stagedFiles.get? path =
      if path ∈ files.map (·.path) then child.stagedFiles.get? path
      else vfs.stagedFiles.get? path := by
  rw [stagedFiles_foldl_stage fun file hfile => (child.staged.normal (h file hfile)).2]
  generalize vfs.stagedFiles = staged
  induction files generalizing staged with
  | nil => rfl
  | cons file rest ih =>
    rw [foldl_cons, ih (fun f hf => h f (mem_cons_of_mem _ hf)), get?_set, map_cons]
    by_cases hrest : path ∈ rest.map (·.path)
    · rw [if_pos hrest, if_pos (mem_cons_of_mem _ hrest)]
    · rw [if_neg hrest]
      by_cases hpath : path = file.path
      · rw [if_pos hpath, if_pos (hpath ▸ mem_cons_self), hpath, h file mem_cons_self]
      · rw [if_neg hpath, if_neg (by simp [hpath, hrest])]

end SessionVfs

/-! ## Merging -/

section

/-- The content of a file and whether it is deleted, where it is staged. -/
def stateOf (files : InsertionMap Text (VfsFileOverlay δ)) (path : Text) : Option (Text × Bool) :=
  (files.get? path).map fun file => (file.content, file.isDeleted)

theorem sameContent_iff {files files' : InsertionMap Text (VfsFileOverlay δ)} (h : Staged files)
    (h' : Staged files') (path : Text) :
    sameContent (files.get? path) (files'.get? path) = true ↔
      stateOf files path = stateOf files' path := by
  unfold stateOf
  cases hfile : files.get? path with
  | none => cases files'.get? path <;> simp [sameContent]
  | some file =>
    cases hfile' : files'.get? path with
    | none => simp [sameContent]
    | some file' =>
      have hpath := (h path file hfile).1.trans (h' path file' hfile').1.symm
      simp [sameContent, hpath]

namespace BranchOverlay

variable {overlay : BranchOverlay δ} {parent : SessionVfs δ} {path : Text}

/-- The file is not what it was when the branch was made. -/
def Changed (overlay : BranchOverlay δ) (files : InsertionMap Text (VfsFileOverlay δ))
    (path : Text) : Prop :=
  stateOf files path ≠ stateOf overlay.baseline path

/-- Both sides have changed the file, and not in the same way. -/
def InConflict (overlay : BranchOverlay δ) (parent : SessionVfs δ) (path : Text) : Prop :=
  overlay.Changed overlay.vfs.stagedFiles path ∧ overlay.Changed parent.stagedFiles path ∧
    stateOf overlay.vfs.stagedFiles path ≠ stateOf parent.stagedFiles path

instance (files : InsertionMap Text (VfsFileOverlay δ)) : Decidable (overlay.Changed files path) :=
  inferInstanceAs (Decidable (_ ≠ _))

/-- The files that the loop goes through. -/
def paths (overlay : BranchOverlay δ) : List Text :=
  (overlay.baseline.keys ++ (byPath overlay.vfs.exportStaged).keys).eraseDups

theorem mem_paths_of_changed (h : overlay.Changed overlay.vfs.stagedFiles path) :
    path ∈ overlay.paths := by
  rw [paths, byPath_exportStaged, mem_eraseDups, mem_append]
  by_contra hnot
  rw [not_or, ← get?_eq_none_iff, ← get?_eq_none_iff] at hnot
  exact h (by rw [stateOf, stateOf, hnot.1, hnot.2])

theorem mem_conflicts_iff :
    path ∈ SubagentVfsBrancher.conflicts overlay (byPath parent.exportStaged) overlay.paths ↔
      overlay.InConflict parent path := by
  have hchild := sameContent_iff overlay.staged overlay.vfs.staged path
  have hparent := sameContent_iff overlay.staged parent.staged path
  have hboth := sameContent_iff overlay.vfs.staged parent.staged path
  simp only [SubagentVfsBrancher.conflicts, byPath_exportStaged, mem_filter, Bool.and_eq_true,
    Bool.not_eq_true', ← Bool.not_eq_true, hchild, hparent, hboth, InConflict, Changed,
    ne_comm (b := stateOf overlay.baseline path), and_assoc]
  exact and_iff_right_of_imp fun h => mem_paths_of_changed (Ne.symm h.1)

/-- A conflict is about files that the subagent has changed. -/
theorem inConflict_congr {parent' : SessionVfs δ}
    (h : ∀ path, overlay.Changed overlay.vfs.stagedFiles path →
      parent'.stagedFiles.get? path = parent.stagedFiles.get? path) :
    overlay.InConflict parent' path ↔ overlay.InConflict parent path := by
  refine and_congr_right fun hchanged => ?_
  rw [Changed, Changed, stateOf, stateOf, stateOf, h path hchanged]
  rfl

/-- The file is handed over: it is changed, and there is one. -/
def HandsOver (overlay : BranchOverlay δ) (path : Text) : Prop :=
  overlay.Changed overlay.vfs.stagedFiles path ∧ (overlay.vfs.stagedFiles.get? path).isSome

instance : DecidablePred overlay.HandsOver := fun _ => inferInstanceAs (Decidable (_ ∧ _))

theorem mem_changedFiles_iff {file : VfsFileOverlay δ} :
    file ∈ SubagentVfsBrancher.changedFiles overlay overlay.paths ↔
      overlay.Changed overlay.vfs.stagedFiles file.path ∧
        overlay.vfs.stagedFiles.get? file.path = some file := by
  have hsame := sameContent_iff overlay.staged overlay.vfs.staged
  simp only [SubagentVfsBrancher.changedFiles, byPath_exportStaged, mem_filterMap]
  constructor
  · rintro ⟨path, -, hfile⟩
    split_ifs at hfile with hnot
    obtain ⟨rfl, -⟩ := overlay.vfs.staged.normal hfile
    exact ⟨fun heq => hnot ((hsame _).mpr heq.symm), hfile⟩
  · rintro ⟨hchanged, hfile⟩
    refine ⟨file.path, mem_paths_of_changed hchanged, ?_⟩
    rw [if_neg fun heq => hchanged ((hsame _).mp heq).symm, hfile]

/-- The parent's files after the loop that hands over. -/
theorem get?_handOver (path : Text) :
    ((SubagentVfsBrancher.changedFiles overlay overlay.paths).foldl .stage parent).stagedFiles.get? path
      = if overlay.HandsOver path then overlay.vfs.stagedFiles.get? path
        else parent.stagedFiles.get? path := by
  have hmem : path ∈ (SubagentVfsBrancher.changedFiles overlay overlay.paths).map (·.path) ↔
      overlay.HandsOver path := by
    simp only [mem_map, mem_changedFiles_iff]
    constructor
    · rintro ⟨file, ⟨hchanged, hfile⟩, rfl⟩
      exact ⟨hchanged, by rw [hfile]; rfl⟩
    · rintro ⟨hchanged, hsome⟩
      obtain ⟨file, hfile⟩ := Option.isSome_iff_exists.mp hsome
      obtain ⟨rfl, -⟩ := overlay.vfs.staged.normal hfile
      exact ⟨file, ⟨hchanged, hfile⟩, rfl⟩
  rw [SessionVfs.get?_foldl_stage fun file hfile => (mem_changedFiles_iff.mp hfile).2]
  simp only [hmem]

end BranchOverlay

namespace SubagentVfsBrancher

variable {b : SubagentVfsBrancher δ} {subagentSessionId : Text} {overlay : BranchOverlay δ}
  {parent : SessionVfs δ}

section

variable (b : SubagentVfsBrancher δ)

/-- The file that a parent has staged. -/
def stagedAt (sessionId path : Text) : Option (VfsFileOverlay δ) :=
  (b.parentVfsStore.get? sessionId).bind (·.stagedFiles.get? path)

def succeeds (subagentSessionId : Text) : Bool :=
  (b.commitBranchOverlaySafely subagentSessionId).1.success

def committed (subagentSessionId : Text) : SubagentVfsBrancher δ :=
  (b.commitBranchOverlaySafely subagentSessionId).2

end

/-- **What a commit does**, to the parent, to other branches, and in a conflict. -/
theorem commit_spec (hoverlay : b.overlays.get? subagentSessionId = some overlay)
    (hparent : b.parentVfsStore.get? overlay.parentSessionId = some parent) :
    (b.succeeds subagentSessionId = true ↔ ∀ path, ¬overlay.InConflict parent path) ∧
      (b.succeeds subagentSessionId = false → b.committed subagentSessionId = b) ∧
      (∀ sibling, sibling ≠ subagentSessionId →
        (b.committed subagentSessionId).overlays.get? sibling = b.overlays.get? sibling) ∧
      ∃ parent', (b.committed subagentSessionId).parentVfsStore.get? overlay.parentSessionId =
          some parent' ∧ ∀ path, parent'.stagedFiles.get? path =
        if b.succeeds subagentSessionId = true ∧ overlay.HandsOver path
        then overlay.vfs.stagedFiles.get? path else parent.stagedFiles.get? path := by
  have hnil : conflicts overlay (byPath parent.exportStaged) overlay.paths = [] ↔
      ∀ path, ¬overlay.InConflict parent path := by
    rw [eq_nil_iff_forall_not_mem]
    exact forall_congr' fun path => not_congr BranchOverlay.mem_conflicts_iff
  unfold succeeds committed
  generalize hcommit : b.commitBranchOverlaySafely subagentSessionId = committed
  rw [commitBranchOverlaySafely, hoverlay] at hcommit
  dsimp only at hcommit
  rw [hparent] at hcommit
  dsimp only at hcommit
  by_cases hconflicts : conflicts overlay (byPath parent.exportStaged) overlay.paths = []
  · obtain rfl := (if_neg (not_not.mpr hconflicts)).symm.trans hcommit
    refine ⟨iff_of_true rfl (hnil.mp hconflicts), fun h => Bool.noConfusion h,
      fun sibling hne => get?_delete_of_ne _ hne, _, get?_set_self _ _ _, fun path => ?_⟩
    simp only [true_and]
    exact BranchOverlay.get?_handOver path
  · obtain rfl := (if_pos hconflicts).symm.trans hcommit
    refine ⟨iff_of_false Bool.false_ne_true fun h => hconflicts (hnil.mpr h), fun _ => rfl,
      fun _ _ => rfl, parent, hparent, fun path => ?_⟩
    exact (if_neg fun h => Bool.false_ne_true h.1).symm

/-- Two branches can be committed in either order. -/
def Commute (b : SubagentVfsBrancher δ) (parentSessionId subagentSessionId sibling : Text) : Prop :=
  (b.committed subagentSessionId).succeeds sibling = b.succeeds sibling ∧
    (b.committed sibling).succeeds subagentSessionId = b.succeeds subagentSessionId ∧
    ∀ path, ((b.committed subagentSessionId).committed sibling).stagedAt parentSessionId path =
      ((b.committed sibling).committed subagentSessionId).stagedAt parentSessionId path

/-- A commit is a three-way merge, and those of siblings with different files commute. -/
structure Merges (b : SubagentVfsBrancher δ) (subagentSessionId : Text) (overlay : BranchOverlay δ)
    (parent : SessionVfs δ) : Prop where
  succeeds : b.succeeds subagentSessionId = true ↔ ∀ path, ¬overlay.InConflict parent path
  merged : b.succeeds subagentSessionId = true → ∀ path,
    (b.committed subagentSessionId).stagedAt overlay.parentSessionId path =
      if overlay.Changed overlay.vfs.stagedFiles path then overlay.vfs.stagedFiles.get? path
      else parent.stagedFiles.get? path
  unchanged : b.succeeds subagentSessionId = false → b.committed subagentSessionId = b
  siblings : ∀ sibling other, sibling ≠ subagentSessionId → b.overlays.get? sibling = some other →
    other.parentSessionId = overlay.parentSessionId →
    (∀ path, ¬(overlay.Changed overlay.vfs.stagedFiles path ∧
      other.Changed other.vfs.stagedFiles path)) →
    b.Commute overlay.parentSessionId subagentSessionId sibling

section

variable (hoverlay : b.overlays.get? subagentSessionId = some overlay)
include hoverlay

theorem siblings_commute (hparent : b.parentVfsStore.get? overlay.parentSessionId = some parent)
    {sibling : Text} {other : BranchOverlay δ} (hne : sibling ≠ subagentSessionId)
    (hother : b.overlays.get? sibling = some other)
    (hsame : other.parentSessionId = overlay.parentSessionId)
    (hdisjoint : ∀ path, ¬(overlay.Changed overlay.vfs.stagedFiles path ∧
      other.Changed other.vfs.stagedFiles path)) :
    b.Commute overlay.parentSessionId subagentSessionId sibling := by
  obtain ⟨hfirst, -, hkept, parent₁, hparent₁, hget₁⟩ := commit_spec hoverlay hparent
  obtain ⟨hfirst', -, hkept', parent₂, hparent₂, hget₂⟩ :=
    commit_spec hother (hsame ▸ hparent)
  obtain ⟨hthen, -, -, parent₁₂, hparent₁₂, hget₁₂⟩ :=
    commit_spec ((hkept _ hne).trans hother) (hsame ▸ hparent₁)
  obtain ⟨hthen', -, -, parent₂₁, hparent₂₁, hget₂₁⟩ :=
    commit_spec ((hkept' _ hne.symm).trans hoverlay) (hsame ▸ hparent₂)
  -- neither commit touches a file that the other one has changed
  have hapart : ∀ path, other.Changed other.vfs.stagedFiles path →
      parent₁.stagedFiles.get? path = parent.stagedFiles.get? path := fun path hchanged => by
    rw [hget₁, if_neg fun h => hdisjoint path ⟨h.2.1, hchanged⟩]
  have hapart' : ∀ path, overlay.Changed overlay.vfs.stagedFiles path →
      parent₂.stagedFiles.get? path = parent.stagedFiles.get? path := fun path hchanged => by
    rw [hget₂, if_neg fun h => hdisjoint path ⟨hchanged, h.2.1⟩]
  have hsuccess := Bool.eq_iff_iff.mpr (hthen.trans ((forall_congr' fun path =>
    not_congr (BranchOverlay.inConflict_congr hapart)).trans hfirst'.symm))
  have hsuccess' := Bool.eq_iff_iff.mpr (hthen'.trans ((forall_congr' fun path =>
    not_congr (BranchOverlay.inConflict_congr hapart')).trans hfirst.symm))
  refine ⟨hsuccess, hsuccess', fun path => ?_⟩
  rw [hsame] at hparent₁₂
  rw [stagedAt, stagedAt, hparent₁₂, hparent₂₁]
  dsimp only [Option.bind_some]
  rw [hget₁₂, hget₂₁, hget₁, hget₂, hsuccess, hsuccess']
  split_ifs with hright hleft
  · exact absurd ⟨hleft.2.1, hright.2.1⟩ (hdisjoint path)
  all_goals rfl

/-- **A commit merges unless an unstaged file stays with the parent.** -/
theorem merges_iff_of (hparent : b.parentVfsStore.get? overlay.parentSessionId = some parent) :
    b.Merges subagentSessionId overlay parent ↔ (∃ path, overlay.InConflict parent path) ∨
      ∀ path, overlay.baseline.get? path ≠ none → overlay.vfs.stagedFiles.get? path = none →
        parent.stagedFiles.get? path = none := by
  obtain ⟨hsucceeds, hunchanged, -, parent', hparent', hget⟩ := commit_spec hoverlay hparent
  have hstaged : ∀ path, (b.committed subagentSessionId).stagedAt overlay.parentSessionId path =
      parent'.stagedFiles.get? path := fun path => by
    rw [stagedAt, hparent']
    rfl
  have habsent : ∀ {path}, overlay.vfs.stagedFiles.get? path = none → ¬overlay.HandsOver path :=
    fun hchild h => by simpa [hchild] using h.2
  have hstate : ∀ {files : InsertionMap Text (VfsFileOverlay δ)} {path},
      stateOf files path = none ↔ files.get? path = none := Option.map_eq_none_iff
  constructor
  · intro h
    by_contra! hnot
    obtain ⟨hnone, path, hbase, hchild, hfile⟩ := hnot
    have hsuccess := hsucceeds.mpr hnone
    have hmerged := h.merged hsuccess path
    have hchanged : overlay.Changed overlay.vfs.stagedFiles path := fun heq =>
      hbase (hstate.mp (heq ▸ hstate.mpr hchild))
    rw [hstaged, hget, if_neg fun h => habsent hchild h.2, if_pos hchanged, hchild] at hmerged
    exact hfile hmerged
  · intro h
    refine ⟨hsucceeds, fun hsuccess path => ?_, hunchanged, fun sibling other hne hother hsame =>
      siblings_commute hoverlay hparent hne hother hsame⟩
    have hgone := h.resolve_left (not_exists.mpr (hsucceeds.mp hsuccess)) path
    rw [hstaged, hget, if_congr (and_iff_right hsuccess) rfl rfl]
    by_cases hchanged : overlay.Changed overlay.vfs.stagedFiles path
    · rw [if_pos hchanged]
      cases hchild : overlay.vfs.stagedFiles.get? path with
      | some file => rw [if_pos ⟨hchanged, by rw [hchild]; rfl⟩]
      | none =>
        rw [if_neg (habsent hchild)]
        refine hgone (fun hbase => hchanged ?_) hchild
        rw [hstate.mpr hchild, hstate.mpr hbase]
    · rw [if_neg fun h => hchanged h.1, if_neg hchanged]

end

/-- A branch, and what the parent and the subagent do to their files before it is committed. -/
def branched (b : SubagentVfsBrancher δ) (parentSessionId subagentSessionId : Text)
    (parent : SessionVfs δ) (parentEdits childEdits : List (SessionVfs.Edit δ)) :
    SubagentVfsBrancher δ :=
  (((b.registerParentVfs parentSessionId parent).createBranchOverlay parentSessionId
    subagentSessionId).editParent parentSessionId parentEdits).editBranch subagentSessionId childEdits

/-- **The merge is right unless a file that the subagent has unstaged stays with the parent.** -/
theorem merges_iff (b : SubagentVfsBrancher δ) (parentSessionId subagentSessionId : Text)
    (parent : SessionVfs δ) (parentEdits childEdits : List (SessionVfs.Edit δ)) :
    let child := childEdits.foldl .edit parent
    let parent' := parentEdits.foldl .edit parent
    let overlay := ⟨parentSessionId, child, parent.stagedFiles, parent.staged⟩
    (b.branched parentSessionId subagentSessionId parent parentEdits childEdits).Merges
        subagentSessionId overlay parent' ↔
      (∃ path, overlay.InConflict parent' path) ∨
        ∀ path, parent.stagedFiles.get? path ≠ none → child.stagedFiles.get? path = none →
          parent'.stagedFiles.get? path = none := by
  apply merges_iff_of
  · simp [branched, registerParentVfs, createBranchOverlay, editParent, editBranch,
      SessionVfs.foldl_stage_exportStaged, byPath_exportStaged]
  · simp [branched, registerParentVfs, createBranchOverlay, editParent, editBranch]

/-- The parent has a file staged, which the subagent unstages. -/
theorem unstaged_file_stays :
    let parent : SessionVfs Unit := SessionVfs.new.stageWrite (text "a") (text "x") none
    ¬(branched ⟨.empty, .empty⟩ (text "p") (text "s") parent [] [.unstage (text "a")]).Merges
      (text "s") ⟨text "p", parent.unstage (text "a"), parent.stagedFiles, parent.staged⟩ parent := by
  intro parent h
  have hmerged := h.merged (by decide +kernel) (text "a")
  revert hmerged
  decide +kernel

end SubagentVfsBrancher

end

end Lumi.Sessions
