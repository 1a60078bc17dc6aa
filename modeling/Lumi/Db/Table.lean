import Lumi.Lib.Run
import Lumi.Db.Branching
import Lumi.Db.Indices

/-!
# The table

`BroccoliDbTable` as a state and its methods.  Each method is a function on the
state that also returns what the method returns; what the table tells others is
kept in the state, oldest first: the calls of the WAL hook in `frames`, the calls
of subscribers in `notifications`.

A transaction callback is given by the `tx.put` and `tx.delete` it performs, in
order, and by how it ends.  The callback of a TTL timer runs at a time of its
own: `expire` is a call like the others, and does nothing unless the timer of
that id is pending.
-/

namespace Lumi.Db

open Js

/-- A timer in `ttlTimers`: its callback is still to run, or has run. -/
inductive TtlTimer
  | pending
  | fired
  deriving DecidableEq

/-- A subscriber's filter; without an answer where it throws. -/
structure Subscription (ρ : Type*) where
  filter : Option (ρ → Option Bool)

/-- `BroccoliDbTable`. -/
structure DbTable (ρ : Type*) where
  name : Text
  records : InsertionMap Text ρ
  indices : Indices
  computedColumns : ComputedColumns ρ
  subscriptions : InsertionMap ℕ (Subscription ρ)
  subscriptionSeq : ℕ
  branching : BranchingEngine ρ
  ttlTimers : InsertionMap Text TtlTimer
  hasWalHook : Bool
  frames : List (WalCall ρ)
  notifications : List (ℕ × TableChangeEvent ρ)

/-- What a transaction callback does to its `tx`. -/
inductive TxOp (ρ : Type*)
  | put (id : Text) (record : ρ)
  | delete (id : Text)
  deriving DecidableEq

structure BulkRecord (ρ : Type*) where
  id : Text
  record : ρ
  ttlMs : Option Number
  deriving DecidableEq

variable {ρ : Type*} [Record ρ]

/-- The timers after a `put`: with a time to live, an armed timer of the id is cleared
and a new one set. -/
def setTtlTimer (ttlTimers : InsertionMap Text TtlTimer) (id : Text) (ttlMs : Option Number) :
    InsertionMap Text TtlTimer :=
  match ttlMs with
  | some ms => if ms.isPositive then ttlTimers.set id .pending else ttlTimers
  | none => ttlTimers

namespace Subscription

/-- The subscriber is called: its filter, if it has one, accepts the record. -/
def accepts (sub : Subscription ρ) (before after : Option ρ) : Bool :=
  match sub.filter, after.or before with
  | some filter, some target => filter target = some true
  | _, _ => true

end Subscription

namespace DbTable

def init (name : Text) (hasWalHook : Bool) : DbTable ρ where
  name := name
  records := .empty
  indices := .empty
  computedColumns := .empty
  subscriptions := .empty
  subscriptionSeq := 0
  branching := .init
  ttlTimers := .empty
  hasWalHook := hasWalHook
  frames := []
  notifications := []

section

variable (t : DbTable ρ)

/-- The fields of a record, computed columns included. -/
def resolve (record : ρ) (field : Text) : Value :=
  resolveFieldValue t.computedColumns record field

def get (t : DbTable ρ) (id : Text) : Option ρ :=
  (t.records.get? id).map (cloneRecordWithComputed t.computedColumns)

def getAll : List ρ :=
  t.records.values.map (cloneRecordWithComputed t.computedColumns)

def subscribe (filter : Option (ρ → Option Bool)) : DbTable ρ :=
  { t with
    subscriptionSeq := t.subscriptionSeq + 1
    subscriptions := t.subscriptions.set (t.subscriptionSeq + 1) ⟨filter⟩ }

/-- Calls every subscriber whose filter accepts; without subscribers, no one. -/
def emitChangeEvent (operation : TableChangeOperation) (recordId : Text)
    (before after : Option ρ) : DbTable ρ :=
  let diff := match before, after with
    | some before, some after => some (diffFields before after)
    | _, _ => none
  let event : TableChangeEvent ρ := ⟨operation, t.name, recordId, before, after, diff⟩
  { t with
    notifications := t.notifications ++ t.subscriptions.entries.filterMap fun e =>
      if e.2.accepts before after then some (e.1, event) else none }

/-- `if (this.walHook) this.walHook(op, this.name, recordId, payload)`. -/
def callWalHook (op : WalOperationType) (recordId : Text) (payload : Option ρ) : DbTable ρ :=
  { t with
    frames := if t.hasWalHook then t.frames ++ [⟨op, t.name, recordId, payload⟩] else t.frames }

end

section

variable [Host]

section

variable (t : DbTable ρ)

def putInternal (id : Text) (record : ρ) : DbTable ρ :=
  let indices := match t.records.get? id with
    | some existing => t.indices.removeFromIndices id (t.resolve existing)
    | none => t.indices
  { t with
    records := t.records.set id record
    indices := indices.addToIndices id (t.resolve record) }

def deleteInternal (id : Text) : Bool × DbTable ρ :=
  match t.records.get? id with
  | none => (false, t)
  | some existing =>
    (true, { t with
      records := t.records.delete id
      indices := t.indices.removeFromIndices id (t.resolve existing) })

/-- `for (const [k, v] of m.entries()) this.putInternal(k, v)`. -/
def putAll (m : InsertionMap Text ρ) : DbTable ρ :=
  m.entries.foldl (fun t e => t.putInternal e.1 e.2) t

/-- The change `undo` or `redo` asks for. -/
def applyChange : Option (RecordChange ρ) → DbTable ρ
  | some (.put id record) => t.putInternal id record
  | some (.delete id) => (t.deleteInternal id).2
  | none => t

def put (t : DbTable ρ) (id : Text) (record : ρ) (ttlMs : Option Number) : ρ × DbTable ρ :=
  let existing := t.records.get? id
  let isUpdate := existing.isSome
  let t := t.putInternal id record
  let active := t.branching.getActiveRecords.set id record
  let t := { t with
    branching := (t.branching.setActiveRecords active).recordAction .put id existing (some record)
    ttlTimers := setTtlTimer t.ttlTimers id ttlMs }
  let clonedReturn := cloneRecordWithComputed t.computedColumns record
  let t := t.emitChangeEvent (if isUpdate then .update else .insert) id existing (some clonedReturn)
  (clonedReturn, t.callWalHook (if isUpdate then .update else .insert) id (some clonedReturn))

def delete (t : DbTable ρ) (id : Text) : Bool × DbTable ρ :=
  match t.records.get? id with
  | none => (false, t)
  | some existing =>
    let t := (t.deleteInternal id).2
    let active := t.branching.getActiveRecords.delete id
    let t := { t with
      branching :=
        (t.branching.setActiveRecords active).recordAction .delete id (some existing) none
      ttlTimers := t.ttlTimers.delete id }
    let t := t.emitChangeEvent .delete id (some existing) none
    (true, t.callWalHook .delete id none)

/-- The callback of the TTL timer of an id, if it is pending. -/
def expire (t : DbTable ρ) (id : Text) : DbTable ρ :=
  if t.ttlTimers.get? id = some .pending then
    match t.records.get? id with
    | none => { t with ttlTimers := t.ttlTimers.set id .fired }
    | some expiredRec =>
      let t := (t.deleteInternal id).2
      let t := { t with
        branching := t.branching.setActiveRecords (t.branching.getActiveRecords.delete id)
        ttlTimers := t.ttlTimers.delete id }
      let t := t.emitChangeEvent .expire id (some expiredRec) none
      t.callWalHook .delete id none
  else t

def clear (t : DbTable ρ) : DbTable ρ :=
  let t := { t with
    records := .empty
    branching := t.branching.setActiveRecords .empty
    indices := t.indices.clear
    ttlTimers := .empty }
  let t := t.emitChangeEvent .clear (text "*") none none
  t.callWalHook .clear (text "*") none

def bulkPut (records : List (BulkRecord ρ)) : List ρ × DbTable ρ :=
  records.foldl
    (fun acc r =>
      let (stored, t) := acc.2.put r.id r.record r.ttlMs
      (acc.1 ++ [stored], t))
    ([], t)

def bulkDelete (ids : List Text) : ℕ × DbTable ρ :=
  ids.foldl
    (fun acc id =>
      let (deleted, t) := acc.2.delete id
      (if deleted then acc.1 + 1 else acc.1, t))
    (0, t)

theorem bulkPut_snd (records : List (BulkRecord ρ)) :
    (t.bulkPut records).2 = records.foldl (fun t r => (t.put r.id r.record r.ttlMs).2) t := by
  have hgen : ∀ (records : List (BulkRecord ρ)) (acc : List ρ × DbTable ρ),
      (records.foldl (fun acc r => (acc.1 ++ [(acc.2.put r.id r.record r.ttlMs).1],
        (acc.2.put r.id r.record r.ttlMs).2)) acc).2 =
        records.foldl (fun t r => (t.put r.id r.record r.ttlMs).2) acc.2 := by
    intro records
    induction records with
    | nil => exact fun acc => rfl
    | cons r rest ih => exact fun acc => ih _
  exact hgen records ([], t)

theorem bulkDelete_snd (ids : List Text) :
    (t.bulkDelete ids).2 = ids.foldl (fun t id => (t.delete id).2) t := by
  have hgen : ∀ (ids : List Text) (acc : ℕ × DbTable ρ),
      (ids.foldl (fun acc id => (if (acc.2.delete id).1 then acc.1 + 1 else acc.1,
        (acc.2.delete id).2)) acc).2 = ids.foldl (fun t id => (t.delete id).2) acc.2 := by
    intro ids
    induction ids with
    | nil => exact fun acc => rfl
    | cons id rest ih => exact fun acc => ih _
  exact hgen ids (0, t)

/-! ## Snapshots and transactions -/

def createSnapshot : InsertionMap Text ρ := .ofList t.records.entries

def restoreSnapshot (snapshot : InsertionMap Text ρ) : DbTable ρ :=
  t.clear.putAll snapshot

def applyTxOp : TxOp ρ → DbTable ρ
  | .put id record => t.putInternal id record
  | .delete id => (t.deleteInternal id).2

/-- The frame logged for a staged mutation when the transaction commits. -/
def logTxOp : TxOp ρ → DbTable ρ
  | .put id record => t.callWalHook .insert id (some record)
  | .delete id => t.callWalHook .delete id none

/-- The callback performs `ops` and then ends with `result`: it returns, or it
throws. -/
def transaction {ε α : Type*} (ops : List (TxOp ρ)) (result : Except ε α) :
    Except ε α × DbTable ρ :=
  let snapshot := t.createSnapshot
  let t := ops.foldl applyTxOp t
  match result with
  | .ok value => (.ok value, ops.foldl logTxOp t)
  | .error err => (.error err, t.restoreSnapshot snapshot)

/-! ## Branches, undo and redo -/

def forkBranch (t : DbTable ρ) (branchName : Text) : Bool × DbTable ρ :=
  let (success, branching) := t.branching.forkBranch branchName
  (success, { t with branching })

/-- Reads the active branch into the table, as checkouts and merges do. -/
def loadActiveRecords : DbTable ρ :=
  { t with records := .empty }.putAll t.branching.getActiveRecords

def checkoutBranch (t : DbTable ρ) (branchName : Text) : Bool × DbTable ρ :=
  let (success, branching) := t.branching.checkoutBranch branchName
  let t := { t with branching }
  (success, if success then t.loadActiveRecords else t)

def mergeBranch (t : DbTable ρ) (branchName : Text) (strategy : MergeResolutionStrategy) :
    DbMergeResult ρ × DbTable ρ :=
  let (result, branching) := t.branching.mergeBranch branchName strategy
  let t := { t with branching }
  (result,
    if result.success then t.loadActiveRecords.callWalHook .branchMerge branchName none else t)

theorem checkoutBranch_snd (branchName : Text) :
    (t.checkoutBranch branchName).2 =
      if (t.branching.checkoutBranch branchName).1 then
        { t with branching := (t.branching.checkoutBranch branchName).2 }.loadActiveRecords
      else { t with branching := (t.branching.checkoutBranch branchName).2 } := rfl

theorem mergeBranch_snd (branchName : Text) (strategy : MergeResolutionStrategy) :
    (t.mergeBranch branchName strategy).2 =
      if (t.branching.mergeBranch branchName strategy).1.success then
        { t with
          branching := (t.branching.mergeBranch branchName strategy).2
          }.loadActiveRecords.callWalHook .branchMerge branchName none
      else { t with branching := (t.branching.mergeBranch branchName strategy).2 } := rfl

end

def undo (t : DbTable ρ) : Bool × DbTable ρ :=
  let (undone, change, branching) := t.branching.undo
  (undone, { t with branching }.applyChange change)

def redo (t : DbTable ρ) : Bool × DbTable ρ :=
  let (redone, change, branching) := t.branching.redo
  (redone, { t with branching }.applyChange change)

/-! ## Index management -/

def createIndex (t : DbTable ρ) (field : Text) : DbTable ρ :=
  { t with indices := t.indices.createIndex t.records t.resolve field }

def createSortedIndex (t : DbTable ρ) (field : Text) : DbTable ρ :=
  { t with indices := t.indices.createSortedIndex t.records t.resolve field }

def createCompositeIndex (t : DbTable ρ) (fields : List Text) : DbTable ρ :=
  { t with indices := t.indices.createCompositeIndex t.records t.resolve fields }

def createPrefixIndex (t : DbTable ρ) (field : Text) : DbTable ρ :=
  { t with indices := t.indices.createPrefixIndex t.records t.resolve field }

/-! ## What the internal helpers leave alone -/

section

variable (t : DbTable ρ) (id : Text) (record : ρ)

@[simp] theorem records_putInternal :
    (t.putInternal id record).records = t.records.set id record := rfl

@[simp] theorem branching_putInternal : (t.putInternal id record).branching = t.branching := rfl

@[simp] theorem records_deleteInternal : (t.deleteInternal id).2.records = t.records.delete id := by
  unfold deleteInternal
  cases h : t.records.get? id with
  | none => exact (InsertionMap.delete_eq_self_of_get?_eq_none h).symm
  | some existing => rfl

theorem deleteInternal_frame :
    (t.deleteInternal id).2 = { t with
      records := (t.deleteInternal id).2.records
      indices := (t.deleteInternal id).2.indices } := by
  unfold deleteInternal
  cases t.records.get? id <;> rfl

@[simp] theorem branching_deleteInternal : (t.deleteInternal id).2.branching = t.branching := by
  rw [deleteInternal_frame]

section

variable (m : InsertionMap Text ρ)

theorem putAll_frame :
    t.putAll m = { t with records := (t.putAll m).records, indices := (t.putAll m).indices } := by
  unfold putAll
  generalize m.entries = entries
  induction entries generalizing t with
  | nil => rfl
  | cons e rest ih =>
    rw [List.foldl_cons, ih]
    rfl

@[simp] theorem branching_putAll : (t.putAll m).branching = t.branching := by
  rw [putAll_frame]

/-- `putAll` sets the records of the map one by one. -/
theorem records_putAll :
    (t.putAll m).records = m.entries.foldl (fun records e => records.set e.1 e.2) t.records := by
  unfold putAll
  generalize m.entries = entries
  induction entries generalizing t with
  | nil => rfl
  | cons e rest ih => rw [List.foldl_cons, List.foldl_cons, ih, records_putInternal]

/-- Into an empty table, `putAll` loads just the map. -/
theorem records_putAll_of_empty (h : t.records = .empty) : (t.putAll m).records = m := by
  rw [records_putAll, h]
  exact m.ofList_entries

end

@[simp] theorem records_loadActiveRecords :
    t.loadActiveRecords.records = t.branching.getActiveRecords :=
  records_putAll_of_empty _ _ rfl

@[simp] theorem branching_loadActiveRecords : t.loadActiveRecords.branching = t.branching :=
  branching_putAll _ _

@[simp] theorem computedColumns_loadActiveRecords :
    t.loadActiveRecords.computedColumns = t.computedColumns := by
  rw [loadActiveRecords, putAll_frame]

end

end

end DbTable

/-! ## Calls -/

/-- One call of a method that changes a table. -/
inductive TableCall (ρ : Type*)
  | put (id : Text) (record : ρ) (ttlMs : Option Number)
  | delete (id : Text)
  | clear
  | bulkPut (records : List (BulkRecord ρ))
  | bulkDelete (ids : List Text)
  | expire (id : Text)
  | transaction (ops : List (TxOp ρ)) (commits : Bool)
  | undo
  | redo
  | forkBranch (branchName : Text)
  | checkoutBranch (branchName : Text)
  | mergeBranch (branchName : Text) (strategy : MergeResolutionStrategy)
  | restoreSnapshot (snapshot : InsertionMap Text ρ)
  | createIndex (field : Text)
  | createSortedIndex (field : Text)
  | createCompositeIndex (fields : List Text)
  | createPrefixIndex (field : Text)
  | subscribe (filter : Option (ρ → Option Bool))

/-- How the callback of a transaction ends. -/
def callbackResult (commits : Bool) : Except Unit Unit := if commits then .ok () else .error ()

def DbTable.call [Host] (t : DbTable ρ) : TableCall ρ → DbTable ρ
  | .put id record ttlMs => (t.put id record ttlMs).2
  | .delete id => (t.delete id).2
  | .clear => t.clear
  | .bulkPut records => (t.bulkPut records).2
  | .bulkDelete ids => (t.bulkDelete ids).2
  | .expire id => t.expire id
  | .transaction ops commits => (t.transaction ops (callbackResult commits)).2
  | .undo => t.undo.2
  | .redo => t.redo.2
  | .forkBranch branchName => (t.forkBranch branchName).2
  | .checkoutBranch branchName => (t.checkoutBranch branchName).2
  | .mergeBranch branchName strategy => (t.mergeBranch branchName strategy).2
  | .restoreSnapshot snapshot => t.restoreSnapshot snapshot
  | .createIndex field => t.createIndex field
  | .createSortedIndex field => t.createSortedIndex field
  | .createCompositeIndex fields => t.createCompositeIndex fields
  | .createPrefixIndex field => t.createPrefixIndex field
  | .subscribe filter => t.subscribe filter

end Lumi.Db
