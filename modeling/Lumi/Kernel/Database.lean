import Lumi.Db.Table
import Lumi.Wal.Durability

/-!
# The database kernel

`BroccoliDatabaseKernel` hands out tables whose WAL hook appends a frame to the log,
writes checkpoints, and at its start loads the last checkpoint and replays the log.
What it has of its directory is the base checkpoint and the file of the log.

The calls of a table run to their end at once.  What the kernel awaits is one step
each: the mutex and the writes of the log, and in a checkpoint the first flush, the
write and the rename of the base file, the history file and the truncation of the log.
The moment at which the first flush is over is left open, so a checkpoint may take its
snapshot at any moment after it was called.  The deletions and updates by which a
relation cascades are calls of their own, before that of the parent.

The base file is kept as what it encodes, and its tables in the order of the kernel.
The identifiers that a kernel draws for records without one are a parameter of `start`.
-/

namespace Lumi.Kernel

open Js Lumi.Db Lumi.Wal

/-- The records of every table, as they come back from JSON. -/
abbrev BaseCheckpoint (ρ : Type*) := InsertionMap Text (List ρ)

structure Directory (ρ : Type*) where
  base : Option (BaseCheckpoint ρ)
  file : List (Line ρ)

/-- What a checkpoint awaits.  An observer keeps the number of lines that were logged when the
snapshot was taken. -/
inductive Checkpoint (ρ : Type*)
  | flushing
  | writing (data : BaseCheckpoint ρ) (logged : ℕ)
  | committing (data : BaseCheckpoint ρ) (logged : ℕ)
  | archiving (logged : ℕ)
  | truncating (logged : ℕ)
  | rotating
  | logging

/-- `BroccoliDatabaseKernel`, with the base file of its directory. -/
structure DatabaseKernel (ρ : Type*) where
  tables : InsertionMap Text (DbTable ρ)
  log : LogState ρ
  base : Option (BaseCheckpoint ρ)
  checkpoint : Option (Checkpoint ρ)

/-- The calls on tables, and what goes on in the log without the kernel's doing. -/
inductive KernelEvent (ρ : Type*)
  | call (table : Text) (call : TableCall ρ) (clock : ℕ → ℕ)
  | addComputedColumn (table column : Text) (computeFn : ρ → Option Value)
  | flush
  | start
  | written

/-- The call of `checkpoint`, and the moments at which what it awaits is settled. -/
inductive CheckpointEvent (ρ : Type*)
  | kernel (event : KernelEvent ρ)
  | checkpoint
  | snapshot
  | tmpWritten
  | baseRenamed
  | archived
  | renamed
  | rotated
  | logged (checkpointId : Text) (payload : ρ) (now : ℕ)
  | failed

/-- The lines of the log once its buffer is written. -/
def LogState.lines {ρ : Type*} [Record ρ] [JsonRecord ρ] (log : LogState ρ) : List (Line ρ) :=
  log.file ++ LogState.linesOf log.inFlight ++ LogState.linesOf log.wal.writeBuffer

variable {ρ : Type*} [Record ρ]

/-- `rec.id`, where it is a string that is not empty. -/
def ownId? (record : ρ) : Option Text :=
  match Record.field? record (text "id") with
  | some (.string id) => if id = [] then none else some id
  | _ => none

variable [JsonRecord ρ] [Host]

/-- A table loaded from the base checkpoint; `uuid` has the identifiers drawn for records
without one. -/
def loadTable (uuid : ℕ → Text) (records : List ρ) (table : DbTable ρ) : DbTable ρ :=
  records.zipIdx.foldl
    (fun table e => table.putInternal ((ownId? e.1).getD (uuid e.2)) e.1)
    table.clear

namespace DatabaseKernel

def new (dir : Directory ρ) : DatabaseKernel ρ :=
  ⟨.empty, ⟨.new, dir.file, none, [], []⟩, dir.base, none⟩

/-- The table of a name, created if it does not exist. -/
def getTable (k : DatabaseKernel ρ) (name : Text) : DbTable ρ :=
  (k.tables.get? name).getD (.init name true)

variable (sha256 : Text → Text)

/-- A table method is called; its hook has the frames appended to the log. -/
def onTable (k : DatabaseKernel ρ) (clock : ℕ → ℕ) (name : Text)
    (method : DbTable ρ → DbTable ρ) : DatabaseKernel ρ :=
  let table := method (k.getTable name)
  { k with
    tables := k.tables.set name { table with frames := [] }
    log := table.frames.foldl
      (fun log call => log.appendFrame sha256 call (clock log.wal.nextFrameId) false) k.log }

def loadBaseCheckpoint (k : DatabaseKernel ρ) (clock : ℕ → ℕ) (uuid : Text → ℕ → Text) :
    DatabaseKernel ρ :=
  match k.base with
  | some data =>
    data.entries.foldl (fun k e => k.onTable sha256 clock e.1 (loadTable (uuid e.1) e.2)) k
  | none => k

/-- The loop of `replayWal`; what it does to a table calls no hook. -/
def replayFrame (clock : ℕ → ℕ) (k : DatabaseKernel ρ) (frame : WalFrame ρ) : DatabaseKernel ρ :=
  match frame.op, frame.payload with
  | .insert, some payload | .update, some payload =>
    if frame.table = [] then k
    else k.onTable sha256 clock frame.table fun t => t.putInternal frame.recordId payload
  | .delete, _ =>
    if frame.table = [] then k
    else k.onTable sha256 clock frame.table fun t => (t.deleteInternal frame.recordId).2
  | _, _ => k

/-- `start` of a kernel just made. -/
def start (clock : ℕ → ℕ) (uuid : Text → ℕ → Text) (dir : Directory ρ) :
    Except WalIntegrityError (DatabaseKernel ρ) :=
  let k := (new dir).loadBaseCheckpoint sha256 clock uuid
  -- `replay` flushes the frames that loading has logged
  let log := { k.log with
    file := LogState.lines k.log
    wal := { k.log.wal with writeBuffer := [] } }
  match log.wal.replay sha256 log.file with
  | .ok (frames, wal) =>
    .ok (frames.foldl (replayFrame sha256 clock) { k with log := { log with wal } })
  | .error e => .error e

def step (k : DatabaseKernel ρ) : KernelEvent ρ → DatabaseKernel ρ
  | .call table call clock => k.onTable sha256 clock table fun t => t.call call
  | .addComputedColumn table column computeFn =>
    { k with
      tables := k.tables.set table { k.getTable table with
        computedColumns := (k.getTable table).computedColumns.set column computeFn } }
  | .flush => { k with log := k.log.flush false }
  | .start => { k with log := k.log.start }
  | .written => { k with log := k.log.written }

/-! ## Checkpoints -/

/-- `allTableData`, as it comes back from JSON: a property `__proto__` is not one of the
object's own. -/
def allTableData (k : DatabaseKernel ρ) : BaseCheckpoint ρ :=
  k.tables.filterMap fun name table =>
    if name = text "__proto__" then none else some (table.getAll.map JsonRecord.reparse)

def checkpointStep (k : DatabaseKernel ρ) : CheckpointEvent ρ → DatabaseKernel ρ
  | .kernel event => k.step sha256 event
  | .checkpoint =>
    match k.checkpoint with
    -- a second call waits for the mutex of the kernel
    | some _ => k
    | none => { k with log := k.log.flush false, checkpoint := some .flushing }
  | .snapshot =>
    match k.checkpoint with
    | some .flushing =>
      { k with checkpoint := some (.writing k.allTableData (LogState.lines k.log).length) }
    | _ => k
  | .tmpWritten =>
    match k.checkpoint with
    | some (.writing data logged) => { k with checkpoint := some (.committing data logged) }
    | _ => k
  | .baseRenamed =>
    match k.checkpoint with
    | some (.committing data logged) =>
      { k with base := some data, checkpoint := some (.archiving logged) }
    | _ => k
  | .archived =>
    match k.checkpoint with
    | some (.archiving logged) =>
      { k with log := k.log.flush true, checkpoint := some (.truncating logged) }
    | _ => k
  | .renamed =>
    match k.checkpoint, k.log.held with
    | some (.truncating _), some (.rotating false) =>
      { k with log := k.log.renamed, checkpoint := some .rotating }
    | _, _ => k
  | .rotated =>
    match k.checkpoint with
    | some .rotating => { k with log := k.log.rotated, checkpoint := some .logging }
    | _ => k
  | .logged checkpointId payload now =>
    match k.checkpoint with
    | some .logging =>
      { k with
        log := k.log.appendFrame sha256
          ⟨.checkpoint, text "system", checkpointId, some payload⟩ now false
        checkpoint := none }
    | _ => k
  | .failed =>
    match k.checkpoint with
    -- a file cannot be written or renamed
    | some (.writing _ _) | some (.committing _ _) | some (.archiving _) =>
      { k with checkpoint := none }
    | _ => k

end DatabaseKernel

/-! ## What is in the tables -/

/-- The records of all tables: what is stored under a table and an id. -/
def DatabaseKernel.contents (k : DatabaseKernel ρ) (key : Text × Text) : Option ρ :=
  (k.getTable key.1).records.get? key.2

/-- The directory of a kernel, once its log is flushed. -/
def DatabaseKernel.flushedDirectory (k : DatabaseKernel ρ) : Directory ρ :=
  ⟨k.base, LogState.lines k.log⟩

/-- A fresh kernel on a directory starts, and its tables hold just these records. -/
def StartsWith (sha256 : Text → Text) (dir : Directory ρ) (contents : Text × Text → Option ρ) :
    Prop :=
  ∀ clock uuid, ∃ k, DatabaseKernel.start sha256 clock uuid dir = .ok k ∧ k.contents = contents

end Lumi.Kernel
