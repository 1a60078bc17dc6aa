import Lumi.Db.Record

/-!
# Branches and undo

`BroccoliBranchingEngine` keeps the records of every branch of one table, the
name of the branch that is checked out, and the undo and redo stacks of that
branch.  The branch that is checked out exists: that is a field of the engine.

Undo and redo do not touch the branches.  They answer with the change the table
has to make to its own records, where the source calls back into the table.
Stacks are written with their top first.
-/

namespace Lumi.Db

open Js

structure BranchDescriptor (ρ : Type*) where
  branchName : Text
  records : InsertionMap Text ρ
  deriving DecidableEq

inductive ActionOp
  | put
  | delete
  | clear
  deriving DecidableEq

structure ActionStep (ρ : Type*) where
  op : ActionOp
  recordId : Text
  before : Option ρ
  after : Option ρ
  deriving DecidableEq

/-- One call of the callback of `undo` and `redo`. -/
inductive RecordChange (ρ : Type*)
  | put (id : Text) (record : ρ)
  | delete (id : Text)
  deriving DecidableEq

inductive MergeResolutionStrategy
  | lastWriteWins
  | failOnConflict
  | takeBranch
  | takeMain
  deriving DecidableEq

structure DbMergeConflict (ρ : Type*) where
  recordId : Text
  mainValue : Option ρ
  branchValue : Option ρ
  conflictReason : Text
  deriving DecidableEq

structure DbMergeResult (ρ : Type*) where
  success : Bool
  branchName : Text
  mergedRecordsCount : ℕ
  conflictsDetected : ℕ
  conflicts : List (DbMergeConflict ρ)
  resolutionStrategy : MergeResolutionStrategy
  deriving DecidableEq

/-- `BroccoliBranchingEngine`; the branch that is checked out exists. -/
structure BranchingEngine (ρ : Type*) where
  currentBranchName : Text
  branches : InsertionMap Text (BranchDescriptor ρ)
  undoStack : List (ActionStep ρ)
  redoStack : List (ActionStep ρ)
  headExists : (branches.get? currentBranchName).isSome

variable {ρ : Type*}

/-- What undoing an action asks of the table. -/
def ActionStep.undone (action : ActionStep ρ) : Option (RecordChange ρ) :=
  match action.op, action.before with
  | .put, some before => some (.put action.recordId before)
  | .put, none => some (.delete action.recordId)
  | .delete, some before => some (.put action.recordId before)
  | .delete, none => none
  | .clear, _ => none

/-- What redoing an action asks of the table. -/
def ActionStep.redone (action : ActionStep ρ) : Option (RecordChange ρ) :=
  match action.op, action.after with
  | .put, some after => some (.put action.recordId after)
  | .put, none => none
  | .delete, _ => some (.delete action.recordId)
  | .clear, _ => none

/-- What the loop of a merge carries: the records of the target, the conflicts and
the count so far. -/
structure MergeState (ρ : Type*) where
  records : InsertionMap Text ρ
  conflicts : List (DbMergeConflict ρ)
  mergedCount : ℕ

/-- One round of the loop over the records of the source branch. -/
def mergeRecord [Record ρ] (strategy : MergeResolutionStrategy) (m : MergeState ρ)
    (entry : Text × ρ) : MergeState ρ :=
  let (id, sourceRec) := entry
  match m.records.get? id with
  | some targetRec =>
    if Record.stringify sourceRec ≠ Record.stringify targetRec then
      let conflict : DbMergeConflict ρ :=
        ⟨id, some targetRec, some sourceRec, text "Concurrent modification in both branches"⟩
      let m := { m with conflicts := m.conflicts ++ [conflict] }
      match strategy with
      | .failOnConflict => m
      | .takeMain => m
      | .takeBranch | .lastWriteWins =>
        { m with records := m.records.set id sourceRec, mergedCount := m.mergedCount + 1 }
    else m
  | none =>
    -- New record in source branch
    { m with records := m.records.set id sourceRec, mergedCount := m.mergedCount + 1 }

namespace BranchingEngine

def maxStackDepth : ℕ := 100

def init : BranchingEngine ρ where
  currentBranchName := text "main"
  branches := InsertionMap.empty.set (text "main") ⟨text "main", .empty⟩
  undoStack := []
  redoStack := []
  headExists := by simp

section

variable (e : BranchingEngine ρ)

/-- The branch that is checked out. -/
def head : BranchDescriptor ρ :=
  (e.branches.get? e.currentBranchName).get e.headExists

def getActiveRecords : InsertionMap Text ρ := e.head.records

section

variable (records : InsertionMap Text ρ)

/-- Writes to the map `getActiveRecords` returned. -/
def setActiveRecords :
    BranchingEngine ρ where
  currentBranchName := e.currentBranchName
  branches := e.branches.set e.currentBranchName { e.head with records }
  undoStack := e.undoStack
  redoStack := e.redoStack
  headExists := by simp

@[simp] theorem getActiveRecords_setActiveRecords
    : (e.setActiveRecords records).getActiveRecords = records := by
  simp [getActiveRecords, head, setActiveRecords]

@[simp] theorem undoStack_setActiveRecords :
    (e.setActiveRecords records).undoStack = e.undoStack := rfl

@[simp] theorem redoStack_setActiveRecords :
    (e.setActiveRecords records).redoStack = e.redoStack := rfl

end

def recordAction (op : ActionOp) (recordId : Text) (before after : Option ρ) : BranchingEngine ρ :=
  let pushed := ⟨op, recordId, before, after⟩ :: e.undoStack
  { e with
    undoStack := if pushed.length > maxStackDepth then pushed.dropLast else pushed
    redoStack := [] }

@[simp] theorem getActiveRecords_recordAction (op : ActionOp)
    (recordId : Text) (before after : Option ρ) :
    (e.recordAction op recordId before after).getActiveRecords = e.getActiveRecords := rfl

def undo : Bool × Option (RecordChange ρ) × BranchingEngine ρ :=
  match e.undoStack with
  | [] => (false, none, e)
  | action :: rest =>
    (true, action.undone, { e with undoStack := rest, redoStack := action :: e.redoStack })

def redo : Bool × Option (RecordChange ρ) × BranchingEngine ρ :=
  match e.redoStack with
  | [] => (false, none, e)
  | action :: rest =>
    (true, action.redone, { e with redoStack := rest, undoStack := action :: e.undoStack })

@[simp] theorem getActiveRecords_undo : e.undo.2.2.getActiveRecords = e.getActiveRecords := by
  unfold undo
  cases e.undoStack <;> rfl

@[simp] theorem getActiveRecords_redo : e.redo.2.2.getActiveRecords = e.getActiveRecords := by
  unfold redo
  cases e.redoStack <;> rfl

end

section

variable [Host]

/-- The name under which a branch is kept. -/
def cleanName (branchName : Text) : Text := toLowerCase (trim branchName)

/-- Forks a new branch from the current branch state. -/
def forkBranch (e : BranchingEngine ρ) (branchName : Text) : Bool × BranchingEngine ρ :=
  match e.branches.get? (cleanName branchName) with
  | some _ => (false, e)
  | none =>
    (true,
      { e with
        branches := e.branches.set (cleanName branchName)
          ⟨cleanName branchName, InsertionMap.ofList e.getActiveRecords.entries⟩
        headExists := by
          rw [InsertionMap.get?_set]
          split
          · rfl
          · exact e.headExists })

/-- Switches the active working branch. -/
def checkoutBranch (e : BranchingEngine ρ) (branchName : Text) : Bool × BranchingEngine ρ :=
  if h : (e.branches.get? (cleanName branchName)).isSome then
    (true,
      { e with
        currentBranchName := cleanName branchName
        undoStack := []
        redoStack := []
        headExists := h })
  else (false, e)

/-- Merges changes from a source branch into the active branch. -/
def mergeBranch [Record ρ] (e : BranchingEngine ρ) (sourceBranchName : Text)
    (strategy : MergeResolutionStrategy) : DbMergeResult ρ × BranchingEngine ρ :=
  match e.branches.get? (cleanName sourceBranchName) with
  | none =>
    (⟨false, sourceBranchName, 0, 1,
      [⟨text "*", none, none,
        text "Branch '" ++ sourceBranchName ++ text "' or target '" ++ e.currentBranchName ++
          text "' does not exist."⟩],
      strategy⟩, e)
  | some source =>
    let m := source.records.entries.foldl (mergeRecord strategy) ⟨e.getActiveRecords, [], 0⟩
    let e := e.setActiveRecords m.records
    if strategy = .failOnConflict ∧ m.conflicts.length > 0 then
      (⟨false, sourceBranchName, 0, m.conflicts.length, m.conflicts, strategy⟩, e)
    else
      (⟨true, sourceBranchName, m.mergedCount, m.conflicts.length, m.conflicts, strategy⟩, e)

end

end BranchingEngine

end Lumi.Db
