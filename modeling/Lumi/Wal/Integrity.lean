import Lumi.Wal.Durability

/-!
# What replay checks

Each frame carries the checksum of its predecessor, and its own checksum covers that
field.  `replay` recomputes the checksum of every frame from the frame itself, the
carried field included; the checksum of the line before it would only be used for a
frame without the field, and `appendFrame` writes no such frame.  So a line is judged
alone (`Intact`), and what a log wrote is intact wherever it stands: the log is read
back as it was written, and so is every file made of its lines, in any order and
number (`replay_of_intact`).  The one log no edit of which is accepted is the empty
one, which has no edits.
-/

namespace Lumi.Wal

open Run Js Lumi.Db List

variable {ρ : Type*}

/-! ## What holds of every frame and every line -/

/-- `P` holds of the frames on their way to the file, and `Q` of its lines. -/
structure Holding (P : WalFrame ρ → Prop) (Q : Line ρ → Prop) (s : LogState ρ) : Prop where
  file : ∀ line ∈ s.file, Q line
  inFlight : ∀ f ∈ s.inFlight, P f
  writeBuffer : ∀ f ∈ s.wal.writeBuffer, P f
  appended : ∀ f ∈ s.appended, P f

namespace Holding

variable {P : WalFrame ρ → Prop} {Q : Line ρ → Prop} {s : LogState ρ}

theorem empty (nextFrameId totalFramesLogged : ℕ) :
    Holding P Q (.empty nextFrameId totalFramesLogged) := by
  constructor <;> exact fun _ h => by cases h

theorem flush (h : Holding P Q s) (thenRotate : Bool) : Holding P Q (s.flush thenRotate) := by
  unfold LogState.flush
  split_ifs
  · exact ⟨h.file, h.inFlight, h.writeBuffer, h.appended⟩
  · exact h
  · exact ⟨h.file, h.inFlight, h.writeBuffer, h.appended⟩

theorem start (h : Holding P Q s) : Holding P Q s.start := by
  unfold LogState.start
  split
  · split_ifs
    · exact ⟨h.file, h.inFlight, h.writeBuffer, h.appended⟩
    · exact ⟨h.file, h.inFlight, h.writeBuffer, h.appended⟩
    · exact ⟨h.file, h.writeBuffer, fun _ hf => (by cases hf), h.appended⟩
  · exact ⟨h.file, fun _ hf => (by cases hf), h.writeBuffer, h.appended⟩
  · exact h

theorem renamed (h : Holding P Q s) : Holding P Q s.renamed := by
  unfold LogState.renamed
  split
  · exact ⟨fun _ hl => (by cases hl), fun _ hf => (by cases hf), h.writeBuffer, h.writeBuffer⟩
  · exact h

theorem rotated (h : Holding P Q s) : Holding P Q s.rotated := by
  unfold LogState.rotated
  split
  · exact ⟨h.file, fun _ hf => (by cases hf), h.writeBuffer, h.appended⟩
  · exact h

end Holding

/-! ## Edited files -/

/-- A file made of the lines of another by deleting, repeating and reordering them, that is
more than the loss of a tail. -/
def EditOf (file edited : List (Line ρ)) : Prop :=
  (∀ line ∈ edited, line ∈ file) ∧ ¬ edited <+: file

theorem editOf_repeat (line : Line ρ) (lines : List (Line ρ)) :
    EditOf (line :: lines) (line :: lines ++ [line]) := by
  refine ⟨fun l hl => ?_, fun hle => ?_⟩
  · rcases mem_append.mp hl with hl | hl
    · exact hl
    · rw [mem_singleton.mp hl]
      exact mem_cons_self
  · have hlength := hle.length_le
    rw [length_append, length_singleton] at hlength
    exact absurd hlength (Nat.not_succ_le_self _)

/-- The frames in the lines of a file. -/
def framesOf (lines : List (Line ρ)) : List (WalFrame ρ) :=
  lines.filterMap fun
    | .frame frame => some frame
    | .garbage _ => none

theorem framesOf_map (frames : List (WalFrame ρ)) : framesOf (frames.map Line.frame) = frames := by
  rw [framesOf, filterMap_map]
  exact filterMap_some

theorem framesOf_append (first second : List (Line ρ)) :
    framesOf (first ++ second) = framesOf first ++ framesOf second :=
  filterMap_append

variable [Record ρ] {sha256 : Text → Text}

/-! ## Replay of intact frames -/

/-- A frame whose checksum is that of its contents, the hash it carries included. -/
def Intact (sha256 : Text → Text) (frame : WalFrame ρ) : Prop :=
  ∃ previous, frame.previousFrameHash = some previous ∧
    sha256 (contentForHash frame previous) = frame.checksum

/-- A log that has seen a frame: its next id and its last hash move on. -/
def seen (wal : BroccoliWriteAheadLog ρ) (frame : WalFrame ρ) : BroccoliWriteAheadLog ρ :=
  { wal with
    nextFrameId := if frame.frameId ≥ wal.nextFrameId then frame.frameId + 1 else wal.nextFrameId
    lastFrameHash := frame.checksum }

variable {frames : List (WalFrame ρ)} {wal wal' : BroccoliWriteAheadLog ρ}

variable {expectedPrevHash : Text} {lines : List (Line ρ)}

/-- A line is accepted if the checksum of its frame is right, and the rest is read after it. -/
theorem replayLines_cons_eq_ok_iff {frame : WalFrame ρ} {i : ℕ} :
    BroccoliWriteAheadLog.replayLines sha256 i expectedPrevHash wal (.frame frame :: lines)
        = .ok (frames, wal') ↔
      sha256 (contentForHash frame (frame.previousFrameHash.getD expectedPrevHash))
          = frame.checksum ∧
        ∃ rest, frames = frame :: rest ∧
          BroccoliWriteAheadLog.replayLines sha256 (i + 1) frame.checksum (seen wal frame) lines
            = .ok (rest, wal') := by
  rw [BroccoliWriteAheadLog.replayLines]
  dsimp only
  by_cases hchecksum : sha256 (contentForHash frame
      (frame.previousFrameHash.getD expectedPrevHash)) = frame.checksum
  · rw [if_neg (not_not_intro hchecksum), and_iff_right hchecksum]
    cases hrest : BroccoliWriteAheadLog.replayLines sha256 (i + 1) frame.checksum
        (seen wal frame) lines with
    | error e =>
      rw [seen] at hrest
      rw [hrest]
      exact iff_of_false (fun h => by cases h) fun ⟨_, _, h⟩ => by cases h
    | ok result =>
      obtain ⟨rest, wal₁⟩ := result
      rw [seen] at hrest
      rw [hrest]
      constructor
      · intro h
        obtain ⟨rfl, rfl⟩ := Prod.mk.inj (Except.ok.inj h)
        exact ⟨rest, rfl, rfl⟩
      · rintro ⟨rest', rfl, h⟩
        obtain ⟨rfl, rfl⟩ := Prod.mk.inj (Except.ok.inj h)
        rfl
  · rw [if_pos hchecksum]
    exact iff_of_false (fun h => by cases h) fun h => hchecksum h.1

theorem replayLines_of_intact (h : ∀ f ∈ frames, Intact sha256 f) (i : ℕ) (expectedPrevHash : Text)
    (wal : BroccoliWriteAheadLog ρ) :
    ∃ wal', BroccoliWriteAheadLog.replayLines sha256 i expectedPrevHash wal
      (frames.map Line.frame) = .ok (frames, wal') := by
  induction frames generalizing i expectedPrevHash wal with
  | nil => exact ⟨wal, rfl⟩
  | cons f rest ih =>
    obtain ⟨previous, hprevious, hchecksum⟩ := h f mem_cons_self
    obtain ⟨wal', hrest⟩ := ih (fun g hg => h g (mem_cons_of_mem _ hg)) (i + 1) f.checksum
      (seen wal f)
    refine ⟨wal', replayLines_cons_eq_ok_iff.mpr ⟨?_, rest, rfl, hrest⟩⟩
    rw [hprevious]
    exact hchecksum

/-- **A file of intact frames is accepted**, whatever their order. -/
theorem replay_of_intact (h : ∀ f ∈ frames, Intact sha256 f) (wal : BroccoliWriteAheadLog ρ) :
    ∃ wal', wal.replay sha256 (frames.map Line.frame) = .ok (frames, wal') :=
  replayLines_of_intact h 0 genesisHash wal

/-- A line that holds an intact frame. -/
def IntactLine (sha256 : Text → Text) (line : Line ρ) : Prop :=
  ∃ frame, line = .frame frame ∧ Intact sha256 frame

variable {file : List (Line ρ)}

/-- A file of intact lines is accepted, in whatever order they stand. -/
theorem replay_of_intactLines (h : ∀ line ∈ file, IntactLine sha256 line)
    (wal : BroccoliWriteAheadLog ρ) :
    ∃ frames wal', file = frames.map Line.frame ∧
      wal.replay sha256 file = .ok (frames, wal') := by
  obtain ⟨frames, hfile, hframes⟩ : ∃ frames : List (WalFrame ρ),
      file = frames.map Line.frame ∧ ∀ f ∈ frames, Intact sha256 f := by
    induction file with
    | nil => exact ⟨[], rfl, fun _ hf => (by cases hf)⟩
    | cons line rest ih =>
      obtain ⟨f, rfl, hf⟩ := h line mem_cons_self
      obtain ⟨frames, rfl, hframes⟩ := ih fun l hl => h l (mem_cons_of_mem _ hl)
      exact ⟨f :: frames, rfl, forall_mem_cons.mpr ⟨hf, hframes⟩⟩
  obtain ⟨wal', hreplay⟩ := replay_of_intact hframes wal
  exact ⟨frames, wal', hfile, hfile ▸ hreplay⟩

/-! ## Files that are accepted -/

/-- A file that is replayed, by whatever log. -/
def Readable (sha256 : Text → Text) (file : List (Line ρ)) : Prop :=
  ∀ wal : BroccoliWriteAheadLog ρ, ∃ wal', wal.replay sha256 file = .ok (framesOf file, wal')

theorem replayLines_append_intact {i : ℕ} (more : List (WalFrame ρ))
    (wal₁ : BroccoliWriteAheadLog ρ)
    (h : BroccoliWriteAheadLog.replayLines sha256 i expectedPrevHash wal lines
      = .ok (frames, wal')) (hmore : ∀ f ∈ more, Intact sha256 f) :
    frames = framesOf lines ∧ ∃ wal₁', BroccoliWriteAheadLog.replayLines sha256 i expectedPrevHash
      wal₁ (lines ++ more.map Line.frame) = .ok (frames ++ more, wal₁') := by
  induction lines generalizing i expectedPrevHash wal wal₁ frames with
  | nil =>
    obtain ⟨rfl, rfl⟩ := Prod.mk.inj (Except.ok.inj h)
    exact ⟨rfl, replayLines_of_intact hmore i expectedPrevHash wal₁⟩
  | cons line rest ih =>
    cases line with
    | garbage content => cases h
    | frame frame =>
      obtain ⟨hchecksum, rest', rfl, hrest⟩ := replayLines_cons_eq_ok_iff.mp h
      obtain ⟨hframes, wal₁', heq⟩ := ih (seen wal₁ frame) hrest
      refine ⟨congrArg (frame :: ·) hframes, wal₁', ?_⟩
      exact replayLines_cons_eq_ok_iff.mpr ⟨hchecksum, rest' ++ more, rfl, heq⟩

/-- Replay leaves the buffer of the log alone. -/
theorem writeBuffer_replayLines {i : ℕ}
    (h : BroccoliWriteAheadLog.replayLines sha256 i expectedPrevHash wal lines
      = .ok (frames, wal')) : wal'.writeBuffer = wal.writeBuffer := by
  induction lines generalizing i expectedPrevHash wal frames with
  | nil =>
    obtain ⟨-, rfl⟩ := Prod.mk.inj (Except.ok.inj h)
    rfl
  | cons line rest ih =>
    cases line with
    | garbage content => cases h
    | frame frame =>
      obtain ⟨-, rest', rfl, hrest⟩ := replayLines_cons_eq_ok_iff.mp h
      have hbuffer := ih hrest
      exact hbuffer

theorem readable_of_replay (h : wal.replay sha256 file = .ok (frames, wal')) :
    frames = framesOf file ∧ Readable sha256 file := by
  have hempty (wal₁ : BroccoliWriteAheadLog ρ) :=
    replayLines_append_intact [] wal₁ h fun _ hf => (by cases hf)
  refine ⟨(hempty wal).1, fun wal₁ => ?_⟩
  obtain ⟨hframes, wal₁', hreplay⟩ := hempty wal₁
  rw [map_nil, append_nil, append_nil, hframes] at hreplay
  exact ⟨wal₁', hreplay⟩

/-- A file stays readable as intact frames are added to it. -/
theorem Readable.append (h : Readable sha256 file) (hframes : ∀ f ∈ frames, Intact sha256 f) :
    Readable sha256 (file ++ frames.map Line.frame) := by
  intro wal
  obtain ⟨wal', hreplay⟩ := h wal
  obtain ⟨-, wal₁', hmore⟩ := replayLines_append_intact frames wal hreplay hframes
  refine ⟨wal₁', hmore.trans ?_⟩
  rw [framesOf_append, framesOf_map]

/-! ## The frames of a log -/

theorem intact_appendFrame (wal : BroccoliWriteAheadLog ρ) (call : WalCall ρ) (now : ℕ) :
    Intact sha256 (wal.appendFrame sha256 call now).1 :=
  ⟨wal.lastFrameHash, rfl, rfl⟩

variable [JsonRecord ρ]

/-- The checksum survives the trip through JSON. -/
theorem intact_serialize {frame : WalFrame ρ} (h : Intact sha256 frame) :
    Intact sha256 (frame.serialize) := by
  obtain ⟨previous, hprevious, hchecksum⟩ := h
  refine ⟨previous, hprevious, ?_⟩
  have hpayload :
      payloadText (frame.payload.map JsonRecord.reparse) = payloadText frame.payload := by
    cases frame.payload with
    | none => rfl
    | some record => exact JsonRecord.stringify_reparse record
  calc sha256 (contentForHash (frame.serialize) previous)
      = sha256 (contentForHash frame previous) := by
        simp only [contentForHash, WalFrame.serialize, hpayload]
    _ = (frame.serialize).checksum := hchecksum

namespace Holding

variable {P : WalFrame ρ → Prop} {Q : Line ρ → Prop} {s : LogState ρ}

omit [JsonRecord ρ] in
theorem appendFrame (h : Holding P Q s) (call : WalCall ρ) (now : ℕ) (synchronous : Bool)
    (hnew : P (s.wal.appendFrame sha256 call now).1) :
    Holding P Q (s.appendFrame sha256 call now synchronous) := by
  have hconcat : ∀ {frames : List (WalFrame ρ)}, (∀ f ∈ frames, P f) →
      ∀ f ∈ frames ++ [(s.wal.appendFrame sha256 call now).1], P f := by
    intro frames hframes f hf
    rcases mem_append.mp hf with hf | hf
    · exact hframes f hf
    · rw [mem_singleton.mp hf]
      exact hnew
  have happended : Holding P Q { s with
      wal := (s.wal.appendFrame sha256 call now).2
      appended := s.appended ++ [(s.wal.appendFrame sha256 call now).1] } :=
    ⟨h.file, h.inFlight, hconcat h.writeBuffer, hconcat h.appended⟩
  unfold LogState.appendFrame
  dsimp only
  split_ifs
  · exact happended.flush false
  · exact happended

/-- The lines that a write adds, all of the batch or the first of it. -/
theorem append_file (h : Holding P Q s) (hline : ∀ f, P f → Q (.frame f.serialize))
    {batch : List (WalFrame ρ)} (hbatch : ∀ f ∈ batch, P f) :
    ∀ line ∈ s.file ++ LogState.linesOf batch, Q line := by
  intro line hmem
  rcases mem_append.mp hmem with hmem | hmem
  · exact h.file line hmem
  · obtain ⟨f, hf, rfl⟩ := mem_map.mp hmem
    exact hline f (hbatch f hf)

theorem written (h : Holding P Q s) (hline : ∀ f, P f → Q (.frame f.serialize)) :
    Holding P Q s.written := by
  unfold LogState.written
  split
  · next batch thenRotate hheld =>
    have hbatch := h.inFlight
    rw [LogState.inFlight_of_writing hheld] at hbatch
    exact ⟨h.append_file hline hbatch, fun _ hf => (by cases hf), h.writeBuffer, h.appended⟩
  · exact h

theorem failed (h : Holding P Q s) (hline : ∀ f, P f → Q (.frame f.serialize))
    (lines : ℕ) : Holding P Q (s.failed lines) := by
  unfold LogState.failed
  split
  · next batch thenRotate hheld =>
    have hbatch := h.inFlight
    rw [LogState.inFlight_of_writing hheld] at hbatch
    exact ⟨h.append_file hline fun f hf => hbatch f (mem_of_mem_take hf),
      fun _ hf => (by cases hf), h.writeBuffer, h.appended⟩
  · exact h

theorem step (h : Holding P Q s) (hline : ∀ f, P f → Q (.frame f.serialize))
    (e : LogEvent ρ) (hnew : ∀ call now synchronous, e = .appendFrame call now synchronous →
      P (s.wal.appendFrame sha256 call now).1) : Holding P Q (s.step sha256 e) := by
  cases e with
  | appendFrame call now synchronous =>
    exact h.appendFrame call now synchronous (hnew call now synchronous rfl)
  | flush => exact h.flush false
  | truncate => exact h.flush true
  | start => exact h.start
  | written => exact h.written hline
  | failed lines => exact h.failed hline lines
  | renamed => exact h.renamed
  | rotated => exact h.rotated

end Holding

/-- Whatever happens to a log, its file has intact lines only. -/
theorem intactLine_run (nextFrameId totalFramesLogged : ℕ) (events : List (LogEvent ρ)) :
    ∀ line ∈ (run (LogState.step sha256) (.empty nextFrameId totalFramesLogged) events).file,
      IntactLine sha256 line := by
  have hrun : Holding (Intact sha256) (IntactLine sha256)
      (run (LogState.step sha256) (.empty nextFrameId totalFramesLogged) events) := by
    refine run_invariant (fun s e h => ?_) (Holding.empty _ _) events
    exact h.step (fun f hf => ⟨_, rfl, intact_serialize hf⟩) e
      fun call now _ _ => intact_appendFrame s.wal call now
  exact hrun.file

/-- The payload of an append comes back from JSON as it was. -/
def PayloadSurvives (e : LogEvent ρ) : Prop :=
  ∀ call now synchronous, e = .appendFrame call now synchronous →
    call.payload.map JsonRecord.reparse = call.payload

theorem serialize_run (nextFrameId totalFramesLogged : ℕ) {events : List (LogEvent ρ)}
    (hjson : ∀ e ∈ events, PayloadSurvives e) :
    Holding (fun f => f.serialize = f) (fun _ => True)
      (run (LogState.step sha256) (.empty nextFrameId totalFramesLogged) events) := by
  have hguard : Guarded (LogState.step sha256) (fun _ e => PayloadSurvives e)
      (.empty nextFrameId totalFramesLogged) events :=
    guarded_of_forall_mem fun e he _ => hjson e he
  refine run_preserves (fun s e h he => ?_) (Holding.empty _ _) hguard
  refine h.step (fun _ _ => trivial) e fun call now synchronous heq => ?_
  rw [WalFrame.serialize]
  exact congrArg (fun payload => { (s.wal.appendFrame sha256 call now).1 with payload })
    (he call now synchronous heq)

/-- **What the chain protects.**  For every log that any run has written, with payloads that
survive JSON and no write that falls short: replay returns the frames appended since the last
truncate, up to those not yet written, and it rejects every edit of the file exactly if the
file is empty. -/
theorem edits_rejected_iff (wal : BroccoliWriteAheadLog ρ) (nextFrameId totalFramesLogged : ℕ)
    (events : List (LogEvent ρ)) (hjson : ∀ e ∈ events, PayloadSurvives e)
    (hwritten : Guarded (LogState.step sha256) NoShortWrite
      (.empty nextFrameId totalFramesLogged) events) :
    let s := run (LogState.step sha256) (.empty nextFrameId totalFramesLogged) events
    (∃ frames wal', wal.replay sha256 s.file = .ok (frames, wal') ∧
      frames ++ s.inFlight ++ s.wal.writeBuffer = s.appended) ∧
    ((∀ edited, EditOf s.file edited → ∃ e, wal.replay sha256 edited = .error e) ↔
      s.file = []) := by
  intro s
  have hlines : ∀ line ∈ s.file, IntactLine sha256 line :=
    intactLine_run nextFrameId totalFramesLogged events
  constructor
  · obtain ⟨frames, wal', hfile, hreplay⟩ := replay_of_intactLines hlines wal
    refine ⟨frames, wal', hreplay, ?_⟩
    have hsame : Holding (fun f => f.serialize = f) (fun _ => True) s :=
      serialize_run nextFrameId totalFramesLogged hjson
    have hlinesOf : ∀ {frames : List (WalFrame ρ)},
        (∀ f ∈ frames, f.serialize = f) →
          LogState.linesOf frames = frames.map Line.frame := by
      intro frames hframes
      exact map_congr_left fun f hf => congrArg Line.frame (hframes f hf)
    have hkept : FramesKept s := framesKept_run nextFrameId totalFramesLogged hwritten
    unfold FramesKept at hkept
    rw [hlinesOf hsame.appended, hlinesOf hsame.inFlight, hlinesOf hsame.writeBuffer, hfile,
      ← map_append, ← map_append] at hkept
    exact (map_injective_iff.mpr (fun f g h => Line.frame.inj h) hkept).symm
  · constructor
    · intro hrejects
      cases hfile : s.file with
      | nil => rfl
      | cons line lines =>
        -- the first line is repeated at the end, and every line is still intact
        have hedit := editOf_repeat line lines
        rw [← hfile] at hedit
        obtain ⟨e, he⟩ := hrejects _ hedit
        obtain ⟨frames, wal', -, hok⟩ :=
          replay_of_intactLines (fun l hl => hlines l (hedit.1 l hl)) wal
        rw [hok] at he
        cases he
    · intro hnil edited hedit
      rw [hnil] at hedit
      cases edited with
      | nil => exact absurd nil_prefix hedit.2
      | cons line rest => exact absurd (hedit.1 line mem_cons_self) not_mem_nil

/-! ## Two lines change places -/

section

open scoped Js.Ascii

/-- The deletion of the task. -/
def deleteDraft : WalCall PlainRecord := ⟨.delete, text "tasks", text "t1", none⟩

/-- A task is inserted and deleted, and both frames reach the file. -/
def insertAndDelete : List (LogEvent PlainRecord) :=
  [.appendFrame insertDraft 0 false, .appendFrame deleteDraft 1 false, .flush, .start, .written]

/-- The file with its two lines exchanged is accepted; its replay ends with the insertion. -/
theorem swapped_lines_are_accepted :
    ∃ first second, (run (LogState.step id) (.empty 1 0) insertAndDelete).file = [first, second] ∧
      EditOf [first, second] [second, first] ∧
      ∃ result, (BroccoliWriteAheadLog.new : BroccoliWriteAheadLog PlainRecord).replay id
        [second, first] = .ok result := by
  have hlines : ∀ line ∈ (run (LogState.step id) (.empty 1 0) insertAndDelete).file,
      IntactLine id line := intactLine_run 1 0 insertAndDelete
  refine ⟨_, _, rfl, ⟨fun line hl => ?_, fun hle => ?_⟩, ?_⟩
  · exact mem_reverse.mp hl
  · -- the frames have different numbers
    have hhead := (cons_prefix_cons.mp hle).1
    have hid : (2 : ℕ) = 1 := congrArg WalFrame.frameId (Line.frame.inj hhead)
    exact absurd hid (by decide)
  · obtain ⟨frames, wal', -, hok⟩ := replay_of_intactLines
      (fun line hl => hlines line (mem_reverse.mp hl)) BroccoliWriteAheadLog.new
    exact ⟨_, hok⟩

/-- The same log, as it was written, is read back. -/
theorem written_log_is_read_back :
    let s := run (LogState.step id) (.empty 1 0) insertAndDelete
    (∃ frames wal', (BroccoliWriteAheadLog.new : BroccoliWriteAheadLog PlainRecord).replay id
        s.file = .ok (frames, wal') ∧ frames ++ s.inFlight ++ s.wal.writeBuffer = s.appended) ∧
      ((∀ edited, EditOf s.file edited → ∃ e,
        (BroccoliWriteAheadLog.new : BroccoliWriteAheadLog PlainRecord).replay id edited
          = .error e) ↔ s.file = []) := by
  refine edits_rejected_iff .new 1 0 insertAndDelete (fun e he => ?_) ?_
  · intro call now synchronous heq
    subst heq
    simp only [insertAndDelete, mem_cons, LogEvent.appendFrame.injEq, reduceCtorEq,
      not_mem_nil, or_false] at he
    rcases he with ⟨rfl, -, -⟩ | ⟨rfl, -, -⟩
    · decide
    · rfl
  · exact guarded_of_forall_mem fun e he _ lines heq => by
      subst heq
      simp [insertAndDelete] at he

end

end Lumi.Wal
