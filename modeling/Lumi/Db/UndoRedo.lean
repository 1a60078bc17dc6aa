import Lumi.Db.Merges
import Lumi.Lib.UndoRedo

/-!
# Undo and redo of a table

The records of a table, as a map, with the two stacks of its branch.  An effective call puts one
step on the first stack that leads from the records before it to those after it, and back, and a
hundred steps fit.
-/

namespace Lumi.Db

open Js InsertionMap Function

variable {ρ : Type*}

/-- The map after a change. -/
def changeMap (change : Option (RecordChange ρ)) (m : Text → Option ρ) : Text → Option ρ :=
  match change with
  | some (.put id record) => Function.update m id (some record)
  | some (.delete id) => Function.update m id none
  | none => m

def ActionStep.revert (action : ActionStep ρ) : (Text → Option ρ) → Text → Option ρ :=
  changeMap action.undone

def ActionStep.repeat (action : ActionStep ρ) : (Text → Option ρ) → Text → Option ρ :=
  changeMap action.redone

theorem get?_changeRecords (records : InsertionMap Text ρ) (change : Option (RecordChange ρ)) :
    (changeRecords records change).get? = changeMap change records.get? := by
  match change with
  | some (.put id record) => exact get?_set_eq_update records id record
  | some (.delete id) => exact get?_delete_eq_update records id
  | none => rfl

section

variable [Record ρ] [Host]

section

variable (t : DbTable ρ)

/-- The records of a table, as a map, and its stacks. -/
def DbTable.stacks : UndoRedo.Stacks (Text → Option ρ) (ActionStep ρ) :=
  ⟨t.records.get?, t.branching.undoStack, t.branching.redoStack⟩

theorem stacks_applyChange (change : Option (RecordChange ρ)) :
    (t.applyChange change).stacks =
      ⟨changeMap change t.records.get?, t.branching.undoStack, t.branching.redoStack⟩ := by
  rw [← get?_changeRecords]
  match change with
  | some (.put id record) => rfl
  | some (.delete id) =>
    simp only [DbTable.stacks, DbTable.applyChange, DbTable.records_deleteInternal,
      DbTable.branching_deleteInternal, changeRecords]
  | none => rfl

/-- `undo` takes back the last step. -/
theorem stacks_undo : t.undo.2.stacks = UndoRedo.undo ActionStep.revert t.stacks := by
  simp only [DbTable.undo, stacks_applyChange]
  cases hstack : t.branching.undoStack with
  | nil =>
    simp only [BranchingEngine.undo, UndoRedo.undo, DbTable.stacks, hstack]
    rfl
  | cons action rest =>
    simp only [BranchingEngine.undo, UndoRedo.undo, DbTable.stacks, hstack]
    rfl

/-- `redo` takes the last step that was taken back. -/
theorem stacks_redo : t.redo.2.stacks = UndoRedo.redo ActionStep.repeat t.stacks := by
  simp only [DbTable.redo, stacks_applyChange]
  cases hstack : t.branching.redoStack with
  | nil =>
    simp only [BranchingEngine.redo, UndoRedo.redo, DbTable.stacks, hstack]
    rfl
  | cons action rest =>
    simp only [BranchingEngine.redo, UndoRedo.redo, DbTable.stacks, hstack]
    rfl

/-- The call changes the table: a delete finds its record. -/
def BranchEdit.Effective : BranchEdit ρ → Prop
  | put _ _ _ => True
  | delete id => id ∈ t.records.keys

end

/-- The stack with one step more, without the oldest if it is full. -/
def pushStep (undoStack : List (ActionStep ρ)) (action : ActionStep ρ) : List (ActionStep ρ) :=
  let pushed := action :: undoStack
  if pushed.length > BranchingEngine.maxStackDepth then pushed.dropLast else pushed

/-- **Step lemma.**  An effective call puts a step on the stack that leads to its records and
back, and empties the other stack. -/
theorem BranchEdit.stacks_apply {t : DbTable ρ} {edit : BranchEdit ρ} (h : edit.Effective t) :
    ∃ action : ActionStep ρ,
      (edit.apply t).stacks = ⟨action.repeat t.records.get?, pushStep t.branching.undoStack action,
        []⟩ ∧ action.revert (action.repeat t.records.get?) = t.records.get? := by
  cases edit with
  | put id record ttlMs =>
    refine ⟨⟨.put, id, t.records.get? id, some record⟩, ?_, ?_⟩
    · have hrecords : ((BranchEdit.put id record ttlMs).apply t).records.get? =
          Function.update t.records.get? id (some record) := get?_set_eq_update t.records id record
      rw [DbTable.stacks, hrecords]
      rfl
    · show changeMap (ActionStep.undone ⟨.put, id, t.records.get? id, some record⟩)
        (Function.update t.records.get? id (some record)) = t.records.get?
      have hback : Function.update (Function.update t.records.get? id (some record)) id
          (t.records.get? id) = t.records.get? := by
        rw [update_idem, update_eq_self]
      cases hget : t.records.get? id with
      | none =>
        rw [hget] at hback
        exact hback
      | some before =>
        rw [hget] at hback
        exact hback
  | delete id =>
    obtain ⟨existing, hget⟩ := mem_keys_iff.mp h
    refine ⟨⟨.delete, id, some existing, none⟩, ?_, ?_⟩
    · have hrecords : ((BranchEdit.delete id).apply t).records.get? =
          Function.update t.records.get? id none := by
        rw [← get?_delete_eq_update, ← DbTable.records_deleteInternal]
        simp only [BranchEdit.apply, DbTable.delete, hget]
        rfl
      rw [DbTable.stacks, hrecords]
      simp only [BranchEdit.apply, DbTable.delete, hget, DbTable.callWalHook,
        DbTable.emitChangeEvent, DbTable.branching_deleteInternal]
      rfl
    · show Function.update (Function.update t.records.get? id none) id (some existing) = _
      rw [update_idem, ← hget, update_eq_self]

/-- **Run lemma.**  A hundred effective calls stand on the stack. -/
theorem BranchEdit.stacks_foldl {t : DbTable ρ} {edits : List (BranchEdit ρ)}
    (heffective : Run.Guarded BranchEdit.apply (fun t edit => edit.Effective t) t edits)
    {entries : List (ActionStep ρ)} {s : Text → Option ρ} {rest : List (ActionStep ρ)}
    (hleads : UndoRedo.Leads ActionStep.revert ActionStep.repeat entries s t.records.get?)
    (hstack : t.branching.undoStack = entries ++ rest)
    (hlength : edits.length + entries.length ≤ BranchingEngine.maxStackDepth) :
    ∃ entries' rest', entries'.length = edits.length + entries.length ∧
      UndoRedo.Leads ActionStep.revert ActionStep.repeat entries' s
        (edits.foldl BranchEdit.apply t).records.get? ∧
      (edits.foldl BranchEdit.apply t).branching.undoStack = entries' ++ rest' := by
  induction edits generalizing t entries rest with
  | nil => exact ⟨entries, rest, (Nat.zero_add _).symm, hleads, hstack⟩
  | cons edit edits ih =>
    obtain ⟨hedit, hrest⟩ := heffective
    obtain ⟨action, hstacks, hback⟩ := BranchEdit.stacks_apply hedit
    have hrecords : (edit.apply t).records.get? = action.repeat t.records.get? :=
      congrArg (·.state) hstacks
    have hpush : (edit.apply t).branching.undoStack = pushStep t.branching.undoStack action :=
      congrArg (·.undoStack) hstacks
    rw [List.length_cons] at hlength
    have htop : ∃ rest', pushStep (entries ++ rest) action = (action :: entries) ++ rest' := by
      unfold pushStep
      dsimp only
      split_ifs with hfull
      · -- the step that is dropped is older than all of these
        have hne : rest ≠ [] := by
          rintro rfl
          rw [List.append_nil, List.length_cons] at hfull
          omega
        exact ⟨rest.dropLast, by rw [← List.cons_append, List.dropLast_append_of_ne_nil hne]⟩
      · exact ⟨rest, rfl⟩
    obtain ⟨rest', htop⟩ := htop
    have hnext : UndoRedo.Leads ActionStep.revert ActionStep.repeat (action :: entries) s
        (edit.apply t).records.get? :=
      ⟨t.records.get?, hleads, by rw [hrecords]; exact hback, hrecords.symm⟩
    obtain ⟨entries', rest'', hcount, hleads', hstack'⟩ := ih hrest hnext
      (by rw [hpush, hstack, htop]) (by rw [List.length_cons]; omega)
    refine ⟨entries', rest'', ?_, hleads', hstack'⟩
    rw [hcount, List.length_cons, List.length_cons]
    omega

end

section

open scoped Js.Ascii

/-- A put, a put over it and a delete. -/
def threeEdits : List (BranchEdit PlainRecord) :=
  [.put (text "a") (task "draft") none, .put (text "a") (task "done") none, .delete (text "a")]

end

end Lumi.Db
