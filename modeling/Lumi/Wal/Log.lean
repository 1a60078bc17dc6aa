import Lumi.Db.Record

/-!
# The write-ahead log

A frame carries the data of one operation, a checksum, and the checksum of the frame
that was appended before it.  `appendFrame` chains the frames; `replay` reads the
lines of a file back, checks each frame's checksum against the frame's own contents,
and collects the frames.

A line of the file is kept as what it encodes, a frame with its payload as it comes
back from JSON, or a text that is no JSON.  The digest `sha256` is a parameter.
-/

namespace Lumi.Wal

open Js Lumi.Db

/-- What `JSON.parse` makes of the JSON text of a record, and that its text is the same. -/
class JsonRecord (ρ : Type*) [Record ρ] where
  reparse : ρ → ρ
  stringify_reparse : ∀ record, Record.stringify (reparse record) = Record.stringify record

/-- Flat records of strings, booleans and numbers: what has no value is left out. -/
instance [Host] : JsonRecord PlainRecord where
  reparse record := record.filterMap fun _ value => if value = .undefined then none else some value
  stringify_reparse record := by
    have hshown : ∀ l : List (Text × Value),
        (l.filterMap fun e => (if e.2 = .undefined then none else some e.2).map (e.1, ·)).filter
          (fun e => e.2 ≠ .undefined) = l.filter fun e => e.2 ≠ .undefined := by
      intro l
      induction l with
      | nil => rfl
      | cons e rest ih =>
        by_cases he : e.2 = .undefined
        · simpa [he] using ih
        · simpa [he] using ih
    simp only [Record.stringify, InsertionMap.filterMap]
    rw [hshown]

structure WalFrame (ρ : Type*) where
  frameId : ℕ
  timestamp : ℕ
  op : WalOperationType
  table : Text
  recordId : Text
  payload : Option ρ
  checksum : Text
  previousFrameHash : Option Text
  deriving DecidableEq

/-- A line of the log file. -/
inductive Line (ρ : Type*)
  | frame (frame : WalFrame ρ)
  | garbage (content : Text)
  deriving DecidableEq

def opName : WalOperationType → Text
  | .insert => text "INSERT"
  | .update => text "UPDATE"
  | .delete => text "DELETE"
  | .clear => text "CLEAR"
  | .checkpoint => text "CHECKPOINT"
  | .rollback => text "ROLLBACK"
  | .branchMerge => text "BRANCH_MERGE"

def genesisHash : Text := List.replicate 64 0x30

section

variable {ρ : Type*} [Record ρ]

/-- `JSON.stringify(payload ?? {})`. -/
def payloadText (payload : Option ρ) : Text :=
  match payload with
  | some record => Record.stringify record
  | none => text "\x7b\x7d"

/-- The text a checksum is taken of; `previousFrameHash` is what stands for it. -/
def contentForHash (frame : WalFrame ρ) (previousFrameHash : Text) : Text :=
  joinWith (text ":") [text (toString frame.frameId), text (toString frame.timestamp),
    opName frame.op, frame.table, frame.recordId, payloadText frame.payload, previousFrameHash]

/-- `JSON.stringify(frame)`, as `JSON.parse` reads it. -/
def WalFrame.serialize [JsonRecord ρ] (frame : WalFrame ρ) : WalFrame ρ :=
  { frame with payload := frame.payload.map JsonRecord.reparse }

end

/-- `BroccoliWriteAheadLog`, without its file and its timer. -/
structure BroccoliWriteAheadLog (ρ : Type*) where
  writeBuffer : List (WalFrame ρ)
  nextFrameId : ℕ
  lastFrameHash : Text
  totalFramesLogged : ℕ

inductive WalIntegrityError
  | corruptedJson (line : ℕ)
  | checksumMismatch (frameId line : ℕ) (expected computed : Text)
  deriving DecidableEq

def WalIntegrityError.message : WalIntegrityError → Text
  | corruptedJson line => text s!"Corrupted WAL frame JSON at line {line}"
  | checksumMismatch frameId line expected computed =>
    text s!"WAL checksum mismatch at frame {frameId} (line {line}). Expected "
      ++ expected ++ text ", computed " ++ computed

namespace BroccoliWriteAheadLog

variable {ρ : Type*} [Record ρ] (sha256 : Text → Text)

def new : BroccoliWriteAheadLog ρ := ⟨[], 1, genesisHash, 0⟩

/-- The synchronous part of `appendFrame`: the frame, and the log that has it in its buffer. -/
def appendFrame (wal : BroccoliWriteAheadLog ρ) (call : WalCall ρ) (now : ℕ) :
    WalFrame ρ × BroccoliWriteAheadLog ρ :=
  let previousFrameHash := wal.lastFrameHash
  let blank : WalFrame ρ := ⟨wal.nextFrameId, now, call.op, call.table, call.recordId,
    call.payload, [], some previousFrameHash⟩
  let checksum := sha256 (contentForHash blank previousFrameHash)
  let frame := { blank with checksum }
  (frame, ⟨wal.writeBuffer ++ [frame], wal.nextFrameId + 1, checksum, wal.totalFramesLogged + 1⟩)

/-- The loop of `replay` from line `i` on: the frames read, and the log with its next id and
last hash moved on. -/
def replayLines (i : ℕ) (expectedPrevHash : Text) :
    BroccoliWriteAheadLog ρ → List (Line ρ) →
      Except WalIntegrityError (List (WalFrame ρ) × BroccoliWriteAheadLog ρ)
  | wal, [] => .ok ([], wal)
  | _, .garbage _ :: _ => .error (.corruptedJson (i + 1))
  | wal, .frame frame :: lines =>
    let computedHash :=
      sha256 (contentForHash frame (frame.previousFrameHash.getD expectedPrevHash))
    if computedHash ≠ frame.checksum then
      .error (.checksumMismatch frame.frameId (i + 1) frame.checksum computedHash)
    else
      let wal := { wal with
        nextFrameId :=
          if frame.frameId ≥ wal.nextFrameId then frame.frameId + 1 else wal.nextFrameId
        lastFrameHash := frame.checksum }
      match replayLines (i + 1) frame.checksum wal lines with
      | .ok (frames, wal) => .ok (frame :: frames, wal)
      | .error e => .error e

/-- `replay` of a file, after its `flush`; an absent file has no lines. -/
def replay (wal : BroccoliWriteAheadLog ρ) (file : List (Line ρ)) :
    Except WalIntegrityError (List (WalFrame ρ) × BroccoliWriteAheadLog ρ) :=
  replayLines sha256 0 genesisHash wal file

end BroccoliWriteAheadLog

end Lumi.Wal
