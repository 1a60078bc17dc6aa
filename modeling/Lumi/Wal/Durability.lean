import Lumi.Lib.Run
import Lumi.Wal.Log

/-!
# From the buffer to the file

A `flush` waits for the mutex of the log, takes the whole buffer, and appends it to
the file with one `appendFile`; a `truncate` flushes, waits for the mutex again, and
replaces the file by an empty one.  Frames are appended at any moment, also while a
write is running.

The state has what these share: the log, the file, the calls that wait for the mutex
in their order, and what the one that has it is doing.  A batch that is being written
has left the buffer for the file.  An `appendFile` that fails has written some of its
lines, or none.  An observer remembers the frames appended since the last truncate:
a truncate forgets those it rotates away, not those that were still buffered.

The buffer is emptied before the write and nothing puts a batch back, so what a
failed write leaves out is in neither place (`frames_kept_iff`).
-/

namespace Lumi.Wal

open Run Js Lumi.Db

/-- A call of `runLocked` that waits for the mutex: that of a flush, perhaps as the first
half of a truncate, or that of the second half. -/
inductive Job
  | flush (thenRotate : Bool)
  | rotate
  deriving DecidableEq, Repr

/-- What the call that has the mutex awaits. -/
inductive Section (ρ : Type*)
  | writing (batch : List (WalFrame ρ)) (thenRotate : Bool)
  | rotating (renamed : Bool)

structure LogState (ρ : Type*) where
  wal : BroccoliWriteAheadLog ρ
  file : List (Line ρ)
  held : Option (Section ρ)
  waiting : List Job
  appended : List (WalFrame ρ)

/-- The calls, and the moments at which what they await is settled. -/
inductive LogEvent (ρ : Type*)
  | appendFrame (call : WalCall ρ) (now : ℕ) (synchronous : Bool)
  | flush
  | truncate
  | start
  | written
  | failed (lines : ℕ)
  | renamed
  | rotated

namespace LogState

variable {ρ : Type*}

/-- A log just started in an empty directory, or just truncated. -/
def empty (nextFrameId totalFramesLogged : ℕ) : LogState ρ :=
  ⟨⟨[], nextFrameId, genesisHash, totalFramesLogged⟩, [], none, [], []⟩

/-- The batch that is being written. -/
def inFlight (s : LogState ρ) : List (WalFrame ρ) :=
  match s.held with
  | some (.writing batch _) => batch
  | _ => []

/-- `flush`, up to its wait for the mutex. -/
def flush (s : LogState ρ) (thenRotate : Bool) : LogState ρ :=
  if s.wal.writeBuffer.length = 0 then
    if thenRotate then { s with waiting := s.waiting ++ [.rotate] } else s
  else { s with waiting := s.waiting ++ [.flush thenRotate] }

/-- The first call that waits gets the mutex, and runs until it awaits something. -/
def start (s : LogState ρ) : LogState ρ :=
  match s.held, s.waiting with
  | none, .flush thenRotate :: waiting =>
    if s.wal.writeBuffer.length = 0 then
      { s with waiting := if thenRotate then waiting ++ [.rotate] else waiting }
    else
      { s with
        wal := { s.wal with writeBuffer := [] }
        held := some (.writing s.wal.writeBuffer thenRotate)
        waiting }
  | none, .rotate :: waiting => { s with held := some (.rotating false), waiting }
  | _, _ => s

theorem inFlight_of_writing {s : LogState ρ} {batch : List (WalFrame ρ)} {thenRotate : Bool}
    (hheld : s.held = some (.writing batch thenRotate)) : s.inFlight = batch := by
  rw [LogState.inFlight, hheld]

variable [Record ρ] [JsonRecord ρ] (sha256 : Text → Text)

/-- The lines a batch is serialized to. -/
def linesOf (frames : List (WalFrame ρ)) : List (Line ρ) :=
  frames.map fun frame => .frame frame.serialize

/-- `appendFrame`; without `synchronous` the flush comes from the debounce timer. -/
def appendFrame (s : LogState ρ) (call : WalCall ρ) (now : ℕ) (synchronous : Bool) : LogState ρ :=
  let (frame, wal) := s.wal.appendFrame sha256 call now
  let s := { s with wal, appended := s.appended ++ [frame] }
  if synchronous then s.flush false else s

section

variable (s : LogState ρ)

/-- The `appendFile` succeeds; a truncate goes on to its second half. -/
def written : LogState ρ :=
  match s.held with
  | some (.writing batch thenRotate) =>
    { s with
      file := s.file ++ linesOf batch
      held := none
      waiting := if thenRotate then s.waiting ++ [.rotate] else s.waiting }
  | _ => s

/-- The `appendFile` fails; the error leaves `flush`, and `truncate` with it. -/
def failed (lines : ℕ) : LogState ρ :=
  match s.held with
  | some (.writing batch _) =>
    { s with file := s.file ++ linesOf (batch.take lines), held := none }
  | _ => s

/-- The file is renamed; there is none, and then an empty one. -/
def renamed : LogState ρ :=
  match s.held with
  | some (.rotating false) =>
    { s with file := [], held := some (.rotating true), appended := s.wal.writeBuffer }
  | _ => s

/-- The empty file is there; the chain of hashes starts anew. -/
def rotated : LogState ρ :=
  match s.held with
  | some (.rotating true) =>
    { s with wal := { s.wal with lastFrameHash := genesisHash }, held := none }
  | _ => s

def step : LogEvent ρ → LogState ρ
  | .appendFrame call now synchronous => s.appendFrame sha256 call now synchronous
  | .flush => s.flush false
  | .truncate => s.flush true
  | .start => s.start
  | .written => s.written
  | .failed lines => s.failed lines
  | .renamed => s.renamed
  | .rotated => s.rotated

end

end LogState

section

variable {ρ : Type*} [Record ρ] [JsonRecord ρ] (sha256 : Text → Text)

/-- The frames appended since the last truncate are those of the file, then those that are
being written, then those in the buffer. -/
def FramesKept (s : LogState ρ) : Prop :=
  LogState.linesOf s.appended
    = s.file ++ LogState.linesOf s.inFlight ++ LogState.linesOf s.wal.writeBuffer

/-- A write that fails has by then written its whole batch. -/
def NoShortWrite (s : LogState ρ) (e : LogEvent ρ) : Prop :=
  ∀ lines, e = .failed lines → s.inFlight.length ≤ lines

theorem framesKept_empty (nextFrameId totalFramesLogged : ℕ) :
    FramesKept (LogState.empty nextFrameId totalFramesLogged : LogState ρ) := rfl

namespace LogState

@[simp] theorem linesOf_append (first second : List (WalFrame ρ)) :
    linesOf (first ++ second) = linesOf first ++ linesOf second :=
  List.map_append

@[simp] theorem length_linesOf (frames : List (WalFrame ρ)) :
    (linesOf frames).length = frames.length :=
  List.length_map _

end LogState

variable {sha256} {s : LogState ρ}

section

variable (h : FramesKept s)
include h

theorem framesKept_flush (thenRotate : Bool) : FramesKept (s.flush thenRotate) := by
  unfold LogState.flush
  split_ifs <;> exact h

theorem framesKept_appendFrame (call : WalCall ρ) (now : ℕ) (synchronous : Bool) :
    FramesKept (s.appendFrame sha256 call now synchronous) := by
  have happended : FramesKept { s with
      wal := (s.wal.appendFrame sha256 call now).2
      appended := s.appended ++ [(s.wal.appendFrame sha256 call now).1] } := by
    show LogState.linesOf (s.appended ++ [(s.wal.appendFrame sha256 call now).1])
      = s.file ++ LogState.linesOf s.inFlight
        ++ LogState.linesOf (s.wal.writeBuffer ++ [(s.wal.appendFrame sha256 call now).1])
    rw [LogState.linesOf_append, h, LogState.linesOf_append, List.append_assoc _ _ (_ ++ _),
      List.append_assoc, List.append_assoc]
  unfold LogState.appendFrame
  dsimp only
  split_ifs
  · exact framesKept_flush happended false
  · exact happended

/-- The buffer becomes the batch. -/
theorem framesKept_start : FramesKept s.start := by
  unfold LogState.start
  split
  · next thenRotate waiting hheld hwaiting =>
    split_ifs
    · exact h
    · exact h
    · have hnone : s.inFlight = [] := by rw [LogState.inFlight, hheld]
      show LogState.linesOf s.appended
        = s.file ++ LogState.linesOf s.wal.writeBuffer ++ LogState.linesOf []
      rw [h, hnone]
      simp [LogState.linesOf]
  · next waiting hheld hwaiting =>
    have hnone : s.inFlight = [] := by rw [LogState.inFlight, hheld]
    show LogState.linesOf s.appended
      = s.file ++ LogState.linesOf [] ++ LogState.linesOf s.wal.writeBuffer
    rw [h, hnone]
  · exact h

theorem framesKept_written : FramesKept s.written := by
  unfold LogState.written
  split
  · next batch thenRotate hheld =>
    show LogState.linesOf s.appended = (s.file ++ LogState.linesOf batch)
      ++ LogState.linesOf [] ++ LogState.linesOf s.wal.writeBuffer
    rw [h, LogState.inFlight_of_writing hheld]
    simp [LogState.linesOf]
  · exact h

theorem framesKept_renamed : FramesKept s.renamed := by
  unfold LogState.renamed
  split
  · exact rfl
  · exact h

theorem framesKept_rotated : FramesKept s.rotated := by
  unfold LogState.rotated
  split
  · next hheld =>
    have hnone : s.inFlight = [] := by rw [LogState.inFlight, hheld]
    show LogState.linesOf s.appended
      = s.file ++ LogState.linesOf [] ++ LogState.linesOf s.wal.writeBuffer
    rw [h, hnone]
  · exact h

/-- A failed write loses what it left out. -/
theorem framesKept_failed_iff (lines : ℕ) :
    FramesKept (s.failed lines) ↔ s.inFlight.length ≤ lines := by
  unfold LogState.failed
  split
  · next batch thenRotate hheld =>
    have hbatch := LogState.inFlight_of_writing hheld
    unfold FramesKept at h
    rw [hbatch] at h ⊢
    show LogState.linesOf s.appended = (s.file ++ LogState.linesOf (batch.take lines))
      ++ LogState.linesOf [] ++ LogState.linesOf s.wal.writeBuffer ↔ _
    constructor
    · intro hkept
      have hlength := congrArg List.length (h.symm.trans hkept)
      simp only [List.length_append, LogState.length_linesOf, List.length_take,
        List.length_nil] at hlength
      omega
    · intro hwhole
      rw [List.take_of_length_le hwhole, h]
      simp [LogState.linesOf]
  · next hheld =>
    have hnone : s.inFlight = [] := by
      unfold LogState.inFlight
      split
      · next batch thenRotate hwriting => exact absurd hwriting (hheld batch thenRotate)
      · rfl
    rw [hnone]
    exact iff_of_true h (Nat.zero_le _)

theorem framesKept_step_iff (e : LogEvent ρ) : FramesKept (s.step sha256 e) ↔ NoShortWrite s e := by
  cases e with
  | failed lines =>
    refine (framesKept_failed_iff h lines).trans ⟨fun hle lines' he => ?_, fun hno => hno _ rfl⟩
    rw [← LogEvent.failed.inj he]
    exact hle
  | appendFrame call now synchronous =>
    exact iff_of_true (framesKept_appendFrame h call now synchronous) fun _ he => by cases he
  | flush => exact iff_of_true (framesKept_flush h false) fun _ he => by cases he
  | truncate => exact iff_of_true (framesKept_flush h true) fun _ he => by cases he
  | start => exact iff_of_true (framesKept_start h) fun _ he => by cases he
  | written => exact iff_of_true (framesKept_written h) fun _ he => by cases he
  | renamed => exact iff_of_true (framesKept_renamed h) fun _ he => by cases he
  | rotated => exact iff_of_true (framesKept_rotated h) fun _ he => by cases he

end

theorem framesKept_run (nextFrameId totalFramesLogged : ℕ) {events : List (LogEvent ρ)}
    (hwritten : Guarded (LogState.step sha256) NoShortWrite (.empty nextFrameId totalFramesLogged)
      events) :
    FramesKept (run (LogState.step sha256) (.empty nextFrameId totalFramesLogged) events) := by
  refine run_preserves (fun s e h he => ?_) (framesKept_empty _ _) hwritten
  exact (framesKept_step_iff h e).mpr he

variable (sha256)

end

/-! ## A write fails -/

section

open scoped Js.Ascii

/-- The insertion of a task. -/
def insertDraft : WalCall PlainRecord :=
  ⟨.insert, text "tasks", text "t1", some (.ofList [(text "title", .string (text "Draft"))])⟩

end

end Lumi.Wal
