import Lumi.Lib.InsertionMap
import Lumi.Lib.PosixPath
import Lumi.Lib.Run
import Lumi.Lib.UndoRedo

/-!
# The journal of file mutations

Before a tool writes or deletes a file it has the journal record what the file holds.  The
journal takes back its last transaction, all transactions of a turn, or all behind a checkpoint,
which is a number of transactions.

A file is where its path leads from the working directory; it holds a text or is absent.  What
is recorded and the write or deletion that follows are steps of their own.  No access to a file
fails.
-/

namespace Lumi.Undo

open Js

inductive MutationType
  | write
  | delete
  deriving DecidableEq

structure MutationTransaction where
  id : Text
  turnId : Text
  toolName : Text
  mutationType : MutationType
  targetPath : Text
  previousContent : Option Text
  newContent : Option Text
  createdNewFile : Bool
  timestamp : ℚ
  deriving DecidableEq

structure RollbackResult where
  rolledBackCount : ℕ
  restoredPaths : List Text
  errors : List Text
  deriving DecidableEq

structure Checkpoint where
  label : Option Text
  transactionCount : ℕ
  timestamp : ℚ
  deriving DecidableEq

structure ToolTransactionJournal where
  transactions : List MutationTransaction
  currentTurnId : Text
  checkpoints : InsertionMap Text Checkpoint

/-- A file, by the segments its path leads to. -/
abbrev File := List Text

/-- What the files hold, where they are not absent. -/
abbrev Files := File → Option Text

/-- The journal and the files it works on. -/
structure Workspace where
  journal : ToolTransactionJournal
  files : Files

variable (cwd : Text)

def fileAt (path : Text) : File := PosixPath.resolveSegments cwd [path]

/-- `fs.readFile`. -/
def Files.read (files : Files) (path : Text) : Option Text := files (fileAt cwd path)

/-- `fs.writeFile`, or `fs.rm` with `force`. -/
def Files.put (files : Files) (path : Text) (content : Option Text) : Files :=
  Function.update files (fileAt cwd path) content

namespace MutationTransaction

/-- What taking back the transaction makes of its file, where it touches it. -/
def restored? (tx : MutationTransaction) : Option (Option Text) :=
  if tx.createdNewFile then some none
  else tx.previousContent.map some

def revert (tx : MutationTransaction) (files : Files) : Files :=
  match tx.restored? with
  | none => files
  | some content => files.put cwd tx.targetPath content

/-- The line that reports what was taken back. -/
def report? (deleted restored : Text) (tx : MutationTransaction) : Option Text :=
  tx.restored?.map fun content => (if content.isNone then deleted else restored) ++ tx.targetPath

end MutationTransaction

namespace ToolTransactionJournal

def new : ToolTransactionJournal := ⟨[], text "turn_0", .empty⟩

section

variable (s : ToolTransactionJournal)

def setTurnId (turnId : Text) : ToolTransactionJournal :=
  { s with currentTurnId := turnId }

section

variable (files : Files)

section

variable (id toolName targetPath : Text)

/-- The transaction that records a file before it is written. -/
def mutation
    (newContent : Option Text) (timestamp : ℚ) : MutationTransaction :=
  let normalized := PosixPath.normalize targetPath
  let previousContent := files.read cwd normalized
  { id, turnId := s.currentTurnId, toolName, mutationType := .write, targetPath := normalized
    previousContent, newContent, createdNewFile := previousContent.isNone, timestamp }

/-- The transaction that records a file before it is deleted. -/
def deletion (timestamp : ℚ) : MutationTransaction :=
  let normalized := PosixPath.normalize targetPath
  { id, turnId := s.currentTurnId, toolName, mutationType := .delete, targetPath := normalized
    previousContent := files.read cwd normalized, newContent := none, createdNewFile := false
    timestamp }

def push (tx : MutationTransaction) : ToolTransactionJournal :=
  { s with transactions := s.transactions ++ [tx] }

def recordFileMutation
    (newContent : Option Text) (timestamp : ℚ) : ToolTransactionJournal :=
  s.push (s.mutation cwd files id toolName targetPath newContent timestamp)

def recordFileDeletion (timestamp : ℚ) : ToolTransactionJournal :=
  s.push (s.deletion cwd files id toolName targetPath timestamp)

end

/-- Takes back transactions, from the last to the first. -/
def revertAll (transactions : List MutationTransaction) (files : Files) : Files :=
  UndoLog.undo (MutationTransaction.revert cwd) transactions files

/-- What taking back several transactions reports. -/
def reportAll (transactions : List MutationTransaction) : RollbackResult where
  rolledBackCount := transactions.length
  restoredPaths := transactions.reverse.filterMap
    (MutationTransaction.report? (text "[Deleted newly created] ") (text "[Restored content] "))
  errors := []

def rollbackLast : RollbackResult × ToolTransactionJournal × Files :=
  match s.transactions.getLast? with
  | none => (⟨0, [], [text "No transactions in journal to rollback"]⟩, s, files)
  | some lastTx =>
    (⟨1, (lastTx.report? (text "[Deleted] ") (text "[Restored] ")).toList, []⟩,
      { s with transactions := s.transactions.dropLast }, lastTx.revert cwd files)

def rollbackTurn (targetTurnId : Option Text) : RollbackResult × ToolTransactionJournal × Files :=
  let targetTurnId := targetTurnId.getD s.currentTurnId
  let turnTransactions := s.transactions.filter (·.turnId = targetTurnId)
  if turnTransactions = [] then
    (⟨0, [], [text "No transactions found for turn '" ++ targetTurnId ++ text "'"]⟩, s, files)
  else
    (reportAll turnTransactions,
      { s with transactions := s.transactions.filter (·.turnId ≠ targetTurnId) },
      revertAll cwd turnTransactions files)

def createCheckpoint (id : Text) (label : Option Text) (timestamp : ℚ) : ToolTransactionJournal :=
  { s with checkpoints := s.checkpoints.set id ⟨label, s.transactions.length, timestamp⟩ }

def restoreCheckpoint (checkpointId : Text) : RollbackResult × ToolTransactionJournal × Files :=
  match s.checkpoints.get? checkpointId with
  | none =>
    (⟨0, [], [text "Checkpoint '" ++ checkpointId ++ text "' does not exist."]⟩, s, files)
  | some checkpoint =>
    if s.transactions.length ≤ checkpoint.transactionCount then (⟨0, [], []⟩, s, files)
    else
      let txToRevert := s.transactions.drop checkpoint.transactionCount
      (reportAll txToRevert,
        { s with transactions := s.transactions.take checkpoint.transactionCount },
        revertAll cwd txToRevert files)

end

end

end ToolTransactionJournal

/-- The calls of the journal, and the writes and deletions of the tools.  The identifiers and the
times are what the calls draw. -/
inductive JournalAction
  | setTurnId (turnId : Text)
  | recordFileMutation (id toolName targetPath : Text) (newContent : Option Text) (timestamp : ℚ)
  | recordFileDeletion (id toolName targetPath : Text) (timestamp : ℚ)
  | apply (path : Text) (content : Option Text)
  | rollbackLast
  | rollbackTurn (targetTurnId : Option Text)
  | createCheckpoint (id : Text) (label : Option Text) (timestamp : ℚ)
  | restoreCheckpoint (checkpointId : Text)
  deriving DecidableEq

namespace Workspace

def step (s : Workspace) : JournalAction → Workspace
  | .setTurnId turnId => { s with journal := s.journal.setTurnId turnId }
  | .recordFileMutation id toolName targetPath newContent timestamp =>
    { s with
      journal := s.journal.recordFileMutation cwd s.files id toolName targetPath newContent
        timestamp }
  | .recordFileDeletion id toolName targetPath timestamp =>
    { s with
      journal := s.journal.recordFileDeletion cwd s.files id toolName targetPath timestamp }
  | .apply path content => { s with files := s.files.put cwd path content }
  | .rollbackLast =>
    let (_, journal, files) := s.journal.rollbackLast cwd s.files
    ⟨journal, files⟩
  | .rollbackTurn targetTurnId =>
    let (_, journal, files) := s.journal.rollbackTurn cwd s.files targetTurnId
    ⟨journal, files⟩
  | .createCheckpoint id label timestamp =>
    { s with journal := s.journal.createCheckpoint id label timestamp }
  | .restoreCheckpoint checkpointId =>
    let (_, journal, files) := s.journal.restoreCheckpoint cwd s.files checkpointId
    ⟨journal, files⟩

end Workspace

end Lumi.Undo
