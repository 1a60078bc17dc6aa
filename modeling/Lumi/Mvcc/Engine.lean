import Lumi.Lib.InsertionMap
import Lumi.Lib.Run

/-!
# The multi-version concurrency control engine

`BroccoliMvccEngine` keeps, for every table and record, a chain of versions with
the newest first, and for every transaction its status.  Nothing is locked: a
writer prepends a version and stamps the version it covers with `deletedTxId`,
and a reader walks the chain until it meets a version it may see.

Every public method is a function on the engine state; `step` feeds the engine
one call of a client, so that an interleaving of transactions is a list of calls.
Wall-clock stamps (`startedAt`, `createdAt`) are never read and are left out.
-/

namespace Lumi.Mvcc

inductive IsolationLevel
  | snapshotIsolation
  | readCommitted
  deriving DecidableEq, Repr

inductive TxStatus
  | active
  | committed
  | rolledBack
  deriving DecidableEq, Repr

/-- The `{ table, recordId }` pairs of `writtenRecords`. -/
structure RecordKey where
  table : String
  recordId : String
  deriving DecidableEq, Repr

structure MvccTransaction where
  txId : ℕ
  isolationLevel : IsolationLevel
  status : TxStatus
  writtenRecords : List RecordKey
  deriving DecidableEq, Repr

structure RecordVersion (δ : Type*) where
  recordId : String
  txId : ℕ
  deletedTxId : Option ℕ
  isDeleted : Bool
  data : Option δ
  deriving DecidableEq, Repr

/-- recordId -> version chain (newest to oldest) -/
abbrev TableMap (δ : Type*) := InsertionMap String (List (RecordVersion δ))

/-- `BroccoliMvccEngine`. -/
structure MvccEngine (δ : Type*) where
  currentTxSeq : ℕ
  transactions : InsertionMap ℕ MvccTransaction
  versionChains : InsertionMap String (TableMap δ)

variable {δ : Type*}

namespace MvccEngine

/-- A new engine. -/
def init : MvccEngine δ := ⟨0, .empty, .empty⟩

section

variable (e : MvccEngine δ)

def beginTransaction (isolationLevel : IsolationLevel) : MvccTransaction × MvccEngine δ :=
  let txId := e.currentTxSeq + 1
  let tx : MvccTransaction := ⟨txId, isolationLevel, .active, []⟩
  (tx, { e with currentTxSeq := txId, transactions := e.transactions.set txId tx })

section

variable (txId : ℕ)

def commitTransaction : Bool × MvccEngine δ :=
  match e.transactions.get? txId with
  | none => (false, e)
  | some tx =>
    if tx.status ≠ .active then (false, e)
    else (true, { e with
      transactions := e.transactions.set txId { tx with status := .committed } })

/-- One round of the loop of `rollbackTransaction`: drop the versions of `txId`
from the chain of `item`, and the chain itself once it is empty. -/
def removeVersions (chains : InsertionMap String (TableMap δ)) (item : RecordKey) :
    InsertionMap String (TableMap δ) :=
  match chains.get? item.table with
  | none => chains
  | some tableMap =>
    match tableMap.get? item.recordId with
    | none => chains
    | some chain =>
      let filtered := chain.filter fun v => v.txId ≠ txId
      if filtered.length = 0 then chains.set item.table (tableMap.delete item.recordId)
      else chains.set item.table (tableMap.set item.recordId filtered)

def rollbackTransaction : Bool × MvccEngine δ :=
  match e.transactions.get? txId with
  | none => (false, e)
  | some tx =>
    if tx.status ≠ .active then (false, e)
    else (true, { e with
      transactions := e.transactions.set txId { tx with status := .rolledBack }
      versionChains := tx.writtenRecords.foldl (removeVersions txId) e.versionChains })

/-- An unknown transaction counts as committed. -/
def isTxCommitted : Bool :=
  match e.transactions.get? txId with
  | some tx => tx.status = .committed
  | none => true

/-- The loop of `readRecord`. -/
def readChain (e : MvccEngine δ) (txId : ℕ) : List (RecordVersion δ) → Option δ
  | [] => none
  | version :: rest =>
    if version.txId = txId then
      if version.isDeleted then none else version.data
    else if e.isTxCommitted version.txId && version.txId ≤ txId then
      let isDeletedForCurrentTx : Bool :=
        version.deletedTxId = some txId ||
          match version.deletedTxId with
          | none => false
          | some d => e.isTxCommitted d && d ≤ txId
      if isDeletedForCurrentTx then none
      else if version.isDeleted then none
      else version.data
    else e.readChain txId rest

def readRecord (table recordId : String) (txId : ℕ) : Option δ :=
  match e.versionChains.get? table with
  | none => none
  | some tableMap =>
    match tableMap.get? recordId with
    | none => none
    | some chain => e.readChain txId chain

/-- Stamp the version that is about to be covered, unless it carries a stamp. -/
def markHead : List (RecordVersion δ) → List (RecordVersion δ)
  | [] => []
  | v :: rest =>
    (if v.deletedTxId.getD 0 = 0 then { v with deletedTxId := some txId } else v) :: rest

end

/-- The shared end of `writeRecord` and `deleteRecord`: cover the chain with a
new version and note the record in the transaction. -/
def prepend (tx : MvccTransaction) (tableMap : TableMap δ) (table recordId : String)
    (chain : List (RecordVersion δ)) (version : RecordVersion δ) (txId : ℕ) : MvccEngine δ :=
  { e with
    transactions := e.transactions.set txId
      { tx with writtenRecords := tx.writtenRecords ++ [⟨table, recordId⟩] }
    versionChains := e.versionChains.set table
      (tableMap.set recordId (version :: markHead txId chain)) }

def writeRecord (table recordId : String) (data : δ) (txId : ℕ) : Except String (MvccEngine δ) :=
  match e.transactions.get? txId with
  | none => .error s!"Cannot write to inactive transaction {txId}"
  | some tx =>
    if tx.status ≠ .active then .error s!"Cannot write to inactive transaction {txId}"
    else
      let tableMap := (e.versionChains.get? table).getD .empty
      let chain := (tableMap.get? recordId).getD []
      .ok (e.prepend tx tableMap table recordId chain
        ⟨recordId, txId, none, false, some data⟩ txId)

def deleteRecord (table recordId : String) (txId : ℕ) : Except String (MvccEngine δ) :=
  match e.transactions.get? txId with
  | none => .error s!"Cannot delete in inactive transaction {txId}"
  | some tx =>
    if tx.status ≠ .active then .error s!"Cannot delete in inactive transaction {txId}"
    else
      match e.versionChains.get? table with
      | none => .ok e
      | some tableMap =>
        match tableMap.get? recordId with
        | none => .ok e
        | some [] => .ok e
        | some chain =>
          .ok (e.prepend tx tableMap table recordId chain
            ⟨recordId, txId, none, true, none⟩ txId)

def getActiveTransactions : List MvccTransaction :=
  e.transactions.values.filter fun t => t.status = .active

/-- The loop of `getOldestActiveTxId` over the transactions. -/
def getOldestActiveTxId : Option ℕ :=
  e.transactions.values.foldl (fun minId tx =>
    if tx.status = .active then
      match minId with
      | none => some tx.txId
      | some m => if tx.txId < m then some tx.txId else some m
    else minId) none

/-- The version is dropped by a vacuum at `threshold`. -/
def purged (threshold : ℕ) (v : RecordVersion δ) : Bool :=
  (match v.deletedTxId with
    | none => false
    | some d => d ≤ threshold) ||
  (v.isDeleted && v.txId ≤ threshold)

/-- What `vacuum` leaves of a chain; `none` drops the record from its table. -/
def vacuumChain (threshold : ℕ) (chain : List (RecordVersion δ)) :
    Option (List (RecordVersion δ)) :=
  let retained := chain.filter fun v => !purged threshold v
  if retained.length = 0 || retained.all (·.isDeleted) then none else some retained

def vacuumThreshold (minActiveTxId : Option ℕ) : ℕ :=
  (minActiveTxId <|> e.getOldestActiveTxId).getD (e.currentTxSeq + 1)

def vacuum (minActiveTxId : Option ℕ) : ℕ × MvccEngine δ :=
  let threshold := e.vacuumThreshold minActiveTxId
  let purgedCount := (e.versionChains.values.flatMap fun tableMap =>
    tableMap.values.flatMap fun chain => chain.filter (purged threshold)).length
  (purgedCount, { e with
    versionChains := e.versionChains.filterMap fun _ tableMap =>
      some (tableMap.filterMap fun _ chain => vacuumChain threshold chain) })

end

end MvccEngine

/-- One call of a client. -/
inductive MvccCall (δ : Type*)
  | beginTransaction (isolationLevel : IsolationLevel)
  | writeRecord (table recordId : String) (data : δ) (txId : ℕ)
  | deleteRecord (table recordId : String) (txId : ℕ)
  | commitTransaction (txId : ℕ)
  | rollbackTransaction (txId : ℕ)
  | vacuum (minActiveTxId : Option ℕ)
  deriving DecidableEq, Repr

/-- The engine after a call; a call that throws leaves it as it was. -/
def step (e : MvccEngine δ) : MvccCall δ → MvccEngine δ
  | .beginTransaction isolationLevel => (e.beginTransaction isolationLevel).2
  | .writeRecord table recordId data txId =>
    (e.writeRecord table recordId data txId).toOption.getD e
  | .deleteRecord table recordId txId => (e.deleteRecord table recordId txId).toOption.getD e
  | .commitTransaction txId => (e.commitTransaction txId).2
  | .rollbackTransaction txId => (e.rollbackTransaction txId).2
  | .vacuum minActiveTxId => (e.vacuum minActiveTxId).2

end Lumi.Mvcc
