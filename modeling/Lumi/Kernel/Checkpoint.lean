import Lumi.Kernel.Recovery

/-!
# When a checkpoint loses nothing

A checkpoint takes a snapshot of the tables and, when the snapshot has become the base
file, rotates the log away.  As long as the log still holds what was logged since the
snapshot, the snapshot overwritten by any part of the log that has all of this gives the
tables (`Covers`): replaying once more what the snapshot already contains changes nothing.

But puts and deletes go on while the files are written, and the flush of `truncate` itself
writes their frames to the file that is then renamed.  The rename loses nothing exactly if
what it takes with it was written again or changed nothing (`RotationKeeps`).
-/

namespace Lumi.Kernel

open Js Lumi.Db Lumi.Wal Overwrite Run List InsertionMap

/-! ## Rotations -/

section

/-- The call will rotate the log. -/
def jobRotates : Job → Bool
  | .flush thenRotate => thenRotate
  | .rotate => true

variable {ρ : Type*}

/-- The rotation that the call with the mutex is to make or is making. -/
def heldRotations : Option (Section ρ) → ℕ
  | none => 0
  | some (.writing _ thenRotate) => if thenRotate then 1 else 0
  | some (.rotating _) => 1

/-- The rotations that are under way or have been asked for. -/
def rotations (log : LogState ρ) : ℕ :=
  heldRotations log.held + log.waiting.countP jobRotates

variable {log : LogState ρ}

theorem rotations_of_eq {log' : LogState ρ} (hheld : log'.held = log.held)
    (hwaiting : log'.waiting = log.waiting) : rotations log' = rotations log := by
  rw [rotations, rotations, hheld, hwaiting]

theorem rotations_flush (thenRotate : Bool) :
    rotations (log.flush thenRotate) = rotations log + if thenRotate then 1 else 0 := by
  unfold LogState.flush
  by_cases hempty : log.wal.writeBuffer.length = 0
  · rw [if_pos hempty]
    cases thenRotate with
    | false => rfl
    | true =>
      rw [if_pos rfl, rotations, countP_append, ← Nat.add_assoc]
      rfl
  · rw [if_neg hempty, rotations, countP_append, ← Nat.add_assoc]
    cases thenRotate <;> rfl

theorem rotations_start : rotations log.start = rotations log := by
  unfold LogState.start
  split
  · next thenRotate waiting hheld hwaiting =>
    have hcount : rotations log = (if thenRotate then 1 else 0) + waiting.countP jobRotates := by
      rw [rotations, hheld, hwaiting, countP_cons, heldRotations, Nat.zero_add,
        Nat.add_comm]
      rfl
    rw [hcount]
    by_cases hempty : log.wal.writeBuffer.length = 0
    · rw [if_pos hempty, rotations]
      cases thenRotate with
      | false => simp [hheld, heldRotations]
      | true =>
        simp only [hheld, heldRotations, if_true, countP_append, countP_singleton,
          jobRotates]
        omega
    · rw [if_neg hempty]
      rfl
  · next waiting hheld hwaiting =>
    rw [rotations, rotations, hheld, hwaiting, countP_cons, heldRotations, heldRotations]
    simp only [jobRotates, if_true]
    omega
  · rfl

theorem rotations_written [Record ρ] [JsonRecord ρ] : rotations log.written = rotations log := by
  unfold LogState.written
  split
  · next batch thenRotate hheld =>
    rw [rotations, rotations, hheld, heldRotations, heldRotations]
    cases thenRotate with
    | false => rfl
    | true =>
      simp only [if_true, countP_append, countP_singleton, jobRotates]
      omega
  · rfl

/-- Where no rotation has been asked for, none is being made. -/
theorem held_ne_of_rotations (h : rotations log = 0) (renamed : Bool) :
    log.held ≠ some (.rotating renamed) := by
  intro hheld
  rw [rotations, hheld, heldRotations] at h
  omega

theorem held_flush (log : LogState ρ) (thenRotate : Bool) :
    (log.flush thenRotate).held = log.held := by
  unfold LogState.flush
  split_ifs <;> rfl

/-- A call that gets the mutex has not renamed the file yet. -/
theorem start_held_ne (h : log.held ≠ some (.rotating true)) :
    log.start.held ≠ some (.rotating true) := by
  unfold LogState.start
  split
  · split_ifs
    · exact h
    · exact h
    · simp
  · simp
  · exact h

end

section

variable {ρ : Type*} [Record ρ] [JsonRecord ρ]

/-! ## Conditions -/

/-- A snapshot has every record under its own id, as JSON keeps it. -/
def SnapshotFaithful (k : DatabaseKernel ρ) : Prop :=
  ∀ name id record, (k.getTable name).records.get? id = some record →
    name ≠ text "__proto__" ∧ ownId? record = some id ∧
      JsonRecord.reparse (cloneRecordWithComputed (k.getTable name).computedColumns record)
        = record

/-- Of the writes that were logged after the snapshot, those that have reached the file are
written again, or left what the base checkpoint has. -/
def RotationKeeps (k : DatabaseKernel ρ) (logged : ℕ) : Prop :=
  ∀ key, lastOf? Prod.fst (writesOf (LogState.linesOf k.log.wal.writeBuffer)) key = none →
    ∀ w, lastOf? Prod.fst (writesOf (k.log.file.drop logged)) key = some w →
      w.2 = baseContents k.base key

/-- The snapshots of a run are faithful. -/
def SnapshotsFaithful (k : DatabaseKernel ρ) : CheckpointEvent ρ → Prop
  | .snapshot => k.checkpoint = some .flushing → SnapshotFaithful k
  | _ => True

/-- Every call is told by its frames, and the log is rotated when that loses nothing. -/
def LosesNothing [Host] (k : DatabaseKernel ρ) : CheckpointEvent ρ → Prop
  | .kernel event => EventLogged k event
  | .renamed => ∀ logged, k.checkpoint = some (.truncating logged) →
      k.log.held = some (.rotating false) → RotationKeeps k logged
  | _ => True

/-! ## Snapshots -/

omit [Record ρ] [JsonRecord ρ] in
/-- A part of the log that is replayed again changes nothing. -/
theorem overwrite_writesOf_drop (contents : Text × Text → Option ρ) (lines : List (Line ρ))
    (m : ℕ) :
    overwrite (overwrite contents (writesOf lines)) (writesOf (lines.drop m))
      = overwrite contents (writesOf lines) := by
  have hdrop : writesOf (lines.drop m)
      = (writesOf lines).drop (writesOf (lines.take m)).length := by
    rw [← take_append_drop m lines, writesOf_append, take_append_drop,
      drop_left]
  rw [hdrop, overwrite_drop_overwrite]

/-- The records of a table that JSON keeps and that have their ids. -/
theorem loadedRecords_getAll {t : DbTable ρ}
    (h : ∀ id record, t.records.get? id = some record → ownId? record = some id ∧
      JsonRecord.reparse (cloneRecordWithComputed t.computedColumns record) = record) :
    loadedRecords (t.getAll.map JsonRecord.reparse) = t.records := by
  have hentry : ∀ e ∈ t.records.entries, ownId? e.2 = some e.1 ∧
      JsonRecord.reparse (cloneRecordWithComputed t.computedColumns e.2) = e.2 :=
    fun e he => h e.1 e.2 (mem_entries_iff.mp he)
  have hlist : (t.getAll.map JsonRecord.reparse).filterMap
      (fun record => (ownId? record).map (·, record)) = t.records.entries := by
    rw [DbTable.getAll, InsertionMap.values, map_map, map_map, filterMap_map]
    conv_rhs => rw [← filterMap_some (l := t.records.entries)]
    refine filterMap_congr fun e he => ?_
    obtain ⟨hid, hjson⟩ := hentry e he
    show (ownId? (JsonRecord.reparse _)).map _ = some e
    simp only [Function.comp_apply, hjson, hid, Option.map_some]
  rw [loadedRecords, hlist, ofList_entries]

variable {k : DatabaseKernel ρ}

omit [Record ρ] [JsonRecord ρ] in
theorem getTable_of_get? {name : Text} {t : DbTable ρ} (h : k.tables.get? name = some t) :
    k.getTable name = t := by
  rw [DatabaseKernel.getTable, h, Option.getD_some]

theorem baseContents_allTableData (h : SnapshotFaithful k) :
    baseContents (some k.allTableData) = k.contents := by
  funext key
  obtain ⟨name, id⟩ := key
  show ((k.allTableData.get? name).map loadedRecords).bind (·.get? id)
    = (k.getTable name).records.get? id
  rw [DatabaseKernel.allTableData, get?_filterMap]
  cases htable : k.tables.get? name with
  | none =>
    rw [DatabaseKernel.getTable, htable]
    rfl
  | some t =>
    have hfaithful := h name
    rw [getTable_of_get? htable] at hfaithful ⊢
    by_cases hname : name = text "__proto__"
    · have hnone : t.records.get? id = none := by
        rw [Option.eq_none_iff_forall_not_mem]
        exact fun record hrecord => (hfaithful id record hrecord).1 hname
      rw [Option.bind_some, if_pos hname, hnone]
      rfl
    · rw [Option.bind_some, if_neg hname, Option.map_some, Option.bind_some,
        loadedRecords_getAll fun id record hrecord => (hfaithful id record hrecord).2]

theorem hasIds_allTableData (h : SnapshotFaithful k) : HasIds k.allTableData := by
  intro name records hrecords record hrecord
  rw [DatabaseKernel.allTableData, get?_filterMap, Option.bind_eq_some_iff]
    at hrecords
  obtain ⟨t, htable, hshown⟩ := hrecords
  have hfaithful := h name
  rw [getTable_of_get? htable] at hfaithful
  rw [Option.ite_none_left_eq_some] at hshown
  rw [← Option.some.inj hshown.2, DbTable.getAll, InsertionMap.values, map_map,
    map_map] at hrecord
  obtain ⟨e, he, rfl⟩ := mem_map.mp hrecord
  obtain ⟨-, hid, hjson⟩ := hfaithful e.1 e.2 (mem_entries_iff.mp he)
  show (ownId? (JsonRecord.reparse (cloneRecordWithComputed t.computedColumns e.2))).isSome
  rw [hjson, hid]
  rfl

/-! ## The invariant -/

/-- Contents that lead to those of the tables when they are overwritten by any part of the log
that has all of what was logged since. -/
def Covers (contents : Text × Text → Option ρ) (logged : ℕ) (k : DatabaseKernel ρ) : Prop :=
  logged ≤ (LogState.lines k.log).length ∧
    ∀ m ≤ logged, overwrite contents (writesOf ((LogState.lines k.log).drop m)) = k.contents

/-- What a run keeps of the phases of a checkpoint. -/
def PhaseSound (k : DatabaseKernel ρ) : Prop :=
  match k.checkpoint with
  | none | some .flushing | some .logging => rotations k.log = 0
  | some (.writing data logged) | some (.committing data logged) =>
    rotations k.log = 0 ∧ HasIds data ∧ Covers (baseContents (some data)) logged k
  | some (.archiving logged) => rotations k.log = 0 ∧ Covers (baseContents k.base) logged k
  | some (.truncating logged) =>
    rotations k.log = 1 ∧ k.log.held ≠ some (.rotating true) ∧
      Covers (baseContents k.base) logged k
  | some .rotating => rotations k.log = 1 ∧ k.log.held = some (.rotating true)

/-- A snapshot covers whatever is logged from now on. -/
theorem covers_allTableData (h : Recovered k) (hfaithful : SnapshotFaithful k) :
    Covers (baseContents (some k.allTableData)) (LogState.lines k.log).length k := by
  refine ⟨le_rfl, fun m _ => ?_⟩
  have hrecovered : overwrite (baseContents k.base) (writesOf (LogState.lines k.log))
      = k.contents := h
  calc
    overwrite (baseContents (some k.allTableData)) (writesOf ((LogState.lines k.log).drop m))
      = overwrite (overwrite (baseContents k.base) (writesOf (LogState.lines k.log)))
          (writesOf ((LogState.lines k.log).drop m)) := by
        rw [baseContents_allTableData hfaithful, hrecovered]
    _ = overwrite (baseContents k.base) (writesOf (LogState.lines k.log)) :=
        overwrite_writesOf_drop _ _ _
    _ = k.contents := hrecovered

variable [Host] {sha256 : Text → Text}

theorem Covers.step {contents : Text × Text → Option ρ} {logged : ℕ}
    (h : Covers contents logged k) (hwf : WellFormed sha256 k) {e : KernelEvent ρ}
    (he : EventLogged k e) : Covers contents logged (k.step sha256 e) := by
  obtain ⟨frames, hlines, htold⟩ := step_spec hwf e
  refine ⟨?_, fun m hm => ?_⟩
  · rw [hlines, length_append]
    exact Nat.le_add_right_of_le h.1
  · calc
      overwrite contents (writesOf ((LogState.lines (k.step sha256 e).log).drop m))
        = overwrite (overwrite contents (writesOf ((LogState.lines k.log).drop m)))
            (writesOf (LogState.linesOf frames)) := by
          rw [hlines, drop_append_of_le_length (hm.trans h.1), writesOf_append,
            overwrite_append]
      _ = overwrite k.contents (writesOf (LogState.linesOf frames)) := by rw [h.2 m hm]
      _ = (k.step sha256 e).contents := htold.mpr he

theorem rotations_step (hwf : WellFormed sha256 k) (e : KernelEvent ρ) :
    rotations (k.step sha256 e).log = rotations k.log := by
  cases e with
  | call table call clock =>
    obtain ⟨-, frames, happends⟩ := appends_call hwf table call clock
    exact rotations_of_eq happends.held happends.waiting
  | addComputedColumn table column computeFn => rfl
  | flush => exact rotations_flush false
  | start => exact rotations_start
  | written => exact rotations_written

theorem held_step_ne (hwf : WellFormed sha256 k) (h : k.log.held ≠ some (.rotating true))
    (e : KernelEvent ρ) : (k.step sha256 e).log.held ≠ some (.rotating true) := by
  cases e with
  | call table call clock =>
    obtain ⟨-, frames, happends⟩ := appends_call hwf table call clock
    exact happends.held ▸ h
  | addComputedColumn table column computeFn => exact h
  | flush => exact held_flush k.log false ▸ h
  | start => exact start_held_ne h
  | written =>
    show k.log.written.held ≠ _
    unfold LogState.written
    split
    · simp
    · exact h

theorem held_step_of_renamed (hwf : WellFormed sha256 k) (h : k.log.held = some (.rotating true))
    (e : KernelEvent ρ) : (k.step sha256 e).log.held = some (.rotating true) := by
  cases e with
  | call table call clock =>
    obtain ⟨-, frames, happends⟩ := appends_call hwf table call clock
    exact happends.held.trans h
  | addComputedColumn table column computeFn => exact h
  | flush => exact (held_flush k.log false).trans h
  | start =>
    show k.log.start.held = _
    rw [LogState.start, h]
    exact h
  | written =>
    show k.log.written.held = _
    rw [LogState.written, h]
    exact h

/-! ## Steps -/

/-- What every run keeps whose snapshots are faithful and that loses nothing. -/
structure CheckpointSound (sha256 : Text → Text) (k : DatabaseKernel ρ) : Prop where
  sound : Sound sha256 k
  phase : PhaseSound k

theorem checkpoint_step (e : KernelEvent ρ) : (k.step sha256 e).checkpoint = k.checkpoint := by
  cases e <;> rfl

theorem CheckpointSound.kernel (h : CheckpointSound sha256 k) {e : KernelEvent ρ}
    (he : EventLogged k e) : CheckpointSound sha256 (k.step sha256 e) := by
  have hwf := h.sound.wellFormed
  refine ⟨h.sound.step he, ?_⟩
  have hphase := h.phase
  unfold PhaseSound at hphase ⊢
  rw [checkpoint_step, base_step, rotations_step hwf]
  cases hcheckpoint : k.checkpoint with
  | none =>
    rw [hcheckpoint] at hphase
    exact hphase
  | some phase =>
    rw [hcheckpoint] at hphase
    cases phase with
    | flushing | logging => exact hphase
    | writing data logged | committing data logged =>
      exact ⟨hphase.1, hphase.2.1, hphase.2.2.step hwf he⟩
    | archiving logged => exact ⟨hphase.1, hphase.2.step hwf he⟩
    | truncating logged =>
      exact ⟨hphase.1, held_step_ne hwf hphase.2.1 e, hphase.2.2.step hwf he⟩
    | rotating => exact ⟨hphase.1, held_step_of_renamed hwf hphase.2 e⟩

section

omit [Host]

/-- The log is changed, but not what it will have written. -/
theorem Sound.of_lines (h : Sound sha256 k) {log : LogState ρ} (hlog : LogSound sha256 log)
    (hlines : LogState.lines log = LogState.lines k.log) (checkpoint : Option (Checkpoint ρ)) :
    Sound sha256 { k with log, checkpoint } := by
  refine ⟨⟨h.wellFormed.tables, hlog.2, h.wellFormed.hasIds⟩, hlog.1, ?_⟩
  have hrec := h.recovered
  rw [Recovered, ← hlines] at hrec
  exact hrec

/-- Frames are appended of which replay takes no notice. -/
theorem Sound.append (h : Sound sha256 k) {log : LogState ρ} {frames : List (WalFrame ρ)}
    (happends : Appends k.log log frames) (hintact : ∀ f ∈ frames, Intact sha256 f)
    (hwrites : writesOf (LogState.linesOf frames) = []) (checkpoint : Option (Checkpoint ρ)) :
    Sound sha256 { k with log, checkpoint } := by
  refine ⟨⟨h.wellFormed.tables, fun f hf => ?_, h.wellFormed.hasIds⟩, ?_, ?_⟩
  · rw [happends.inFlight, happends.writeBuffer, ← append_assoc] at hf
    rcases mem_append.mp hf with hf | hf
    · exact h.wellFormed.intact f hf
    · exact hintact f hf
  · exact happends.file ▸ h.readable
  · show overwrite (baseContents k.base) (writesOf (LogState.lines log)) = k.contents
    rw [happends.lines, writesOf_append, hwrites, append_nil]
    exact h.recovered

theorem Sound.logSound (h : Sound sha256 k) : LogSound sha256 k.log :=
  ⟨h.readable, h.wellFormed.intact⟩

end

omit [Record ρ] [JsonRecord ρ] [Host] in
theorem renamed_of_held {log : LogState ρ} (hheld : log.held = some (.rotating false)) :
    log.renamed = { log with
      file := [], held := some (.rotating true), appended := log.wal.writeBuffer } := by
  rw [LogState.renamed, hheld]

omit [JsonRecord ρ] [Host] in
theorem wellFormed_renamed (h : WellFormed sha256 k)
    (hheld : k.log.held = some (.rotating false)) (checkpoint : Option (Checkpoint ρ)) :
    WellFormed sha256 { k with log := k.log.renamed, checkpoint } ∧
      Readable sha256 k.log.renamed.file := by
  rw [renamed_of_held hheld]
  exact ⟨⟨h.tables, fun f hf => h.intact f (mem_append_right _ hf), h.hasIds⟩,
    fun wal => ⟨wal, rfl⟩⟩

omit [Host] in
/-- The rename takes away what has been written; nothing else is lost if that is covered. -/
theorem recovered_renamed_iff {logged : ℕ} (hheld : k.log.held = some (.rotating false))
    (hcovers : Covers (baseContents k.base) logged k) (checkpoint : Option (Checkpoint ρ)) :
    Recovered { k with log := k.log.renamed, checkpoint } ↔ RotationKeeps k logged := by
  have hlines : LogState.lines k.log
      = k.log.file ++ LogState.linesOf k.log.wal.writeBuffer := by
    rw [LogState.lines, LogState.inFlight, hheld]
    exact congrArg (· ++ _) (append_nil _)
  have hrenamed : LogState.lines k.log.renamed = LogState.linesOf k.log.wal.writeBuffer := by
    rw [renamed_of_held hheld]
    rfl
  have hskip := overwrite_skip_iff (baseContents k.base) (writesOf (k.log.file.drop logged))
    (writesOf (LogState.linesOf k.log.wal.writeBuffer))
  -- the snapshot may be of a moment when some of the buffer was still to be written
  let m := min logged k.log.file.length
  have hfile : k.log.file.drop logged = k.log.file.drop m := by
    rw [drop_eq_drop_iff, min_assoc, min_self]
  have hcontents := calc
    overwrite (overwrite (baseContents k.base) (writesOf (k.log.file.drop logged)))
        (writesOf (LogState.linesOf k.log.wal.writeBuffer))
      = overwrite (baseContents k.base)
          (writesOf (k.log.file.drop m ++ LogState.linesOf k.log.wal.writeBuffer)) := by
        rw [hfile, writesOf_append, overwrite_append]
    _ = overwrite (baseContents k.base) (writesOf ((LogState.lines k.log).drop m)) := by
        rw [hlines, drop_append_of_le_length (min_le_right _ _)]
    _ = k.contents := hcovers.2 m (min_le_left _ _)
  rw [hcontents] at hskip
  unfold Recovered
  rw [hrenamed]
  exact hskip

theorem CheckpointSound.step (h : CheckpointSound sha256 k) {e : CheckpointEvent ρ}
    (hfaithful : SnapshotsFaithful k e) (hloses : LosesNothing k e) :
    CheckpointSound sha256 (k.checkpointStep sha256 e) := by
  have hphase := h.phase
  unfold PhaseSound at hphase
  cases e with
  | kernel event => exact h.kernel hloses
  | checkpoint =>
    dsimp only [DatabaseKernel.checkpointStep]
    split
    · exact h
    · next hcheckpoint =>
      rw [hcheckpoint] at hphase
      exact ⟨h.sound.of_lines (h.sound.logSound.flush false) (lines_flush false) _,
        (rotations_flush false).trans hphase⟩
  | snapshot =>
    dsimp only [DatabaseKernel.checkpointStep]
    split
    · next hcheckpoint =>
      rw [hcheckpoint] at hphase
      have hsnapshot := hfaithful hcheckpoint
      exact ⟨h.sound.of_lines h.sound.logSound rfl _, hphase, hasIds_allTableData hsnapshot,
        covers_allTableData h.sound.recovered hsnapshot⟩
    · exact h
  | tmpWritten =>
    dsimp only [DatabaseKernel.checkpointStep]
    split
    · next data logged hcheckpoint =>
      rw [hcheckpoint] at hphase
      exact ⟨h.sound.of_lines h.sound.logSound rfl _, hphase⟩
    · exact h
  | baseRenamed =>
    dsimp only [DatabaseKernel.checkpointStep]
    split
    · next data logged hcheckpoint =>
      rw [hcheckpoint] at hphase
      obtain ⟨hrotations, hids, hcovers⟩ := hphase
      refine ⟨⟨⟨h.sound.wellFormed.tables, h.sound.wellFormed.intact, ?_⟩,
        h.sound.readable, hcovers.2 0 (Nat.zero_le _)⟩, hrotations, hcovers⟩
      intro data' hdata'
      rw [← Option.some.inj hdata']
      exact hids
    · exact h
  | archived =>
    dsimp only [DatabaseKernel.checkpointStep]
    split
    · next logged hcheckpoint =>
      rw [hcheckpoint] at hphase
      obtain ⟨hrotations, hcovers⟩ := hphase
      refine ⟨h.sound.of_lines (h.sound.logSound.flush true) (lines_flush true) _,
        (rotations_flush true).trans (congrArg (· + 1) hrotations), ?_, ?_⟩
      · exact held_flush k.log true ▸ held_ne_of_rotations hrotations true
      · rw [Covers, ← lines_flush true] at hcovers
        exact hcovers
    · exact h
  | renamed =>
    dsimp only [DatabaseKernel.checkpointStep]
    split
    · next logged hcheckpoint hheld =>
      rw [hcheckpoint] at hphase
      obtain ⟨hrotations, -, hcovers⟩ := hphase
      obtain ⟨hwf, hread⟩ := wellFormed_renamed h.sound.wellFormed hheld (some .rotating)
      have hrec := (recovered_renamed_iff hheld hcovers (some .rotating)).mpr
        (hloses logged hcheckpoint hheld)
      refine ⟨⟨hwf, hread, hrec⟩, ?_⟩
      rw [rotations, hheld] at hrotations
      rw [renamed_of_held hheld]
      exact ⟨hrotations, rfl⟩
    · exact h
  | rotated =>
    dsimp only [DatabaseKernel.checkpointStep]
    split
    · next hcheckpoint =>
      rw [hcheckpoint] at hphase
      obtain ⟨hrotations, hheld⟩ := hphase
      have hrotated : k.log.rotated = { k.log with
          wal := { k.log.wal with lastFrameHash := genesisHash }, held := none } := by
        rw [LogState.rotated, hheld]
      have hinFlight : k.log.inFlight = [] := by rw [LogState.inFlight, hheld]
      have hlines : LogState.lines k.log.rotated = LogState.lines k.log := by
        rw [hrotated, LogState.lines, LogState.lines, hinFlight]
        rfl
      refine ⟨h.sound.of_lines ⟨?_, ?_⟩ hlines _, ?_⟩
      · rw [hrotated]
        exact h.sound.readable
      · rw [hrotated]
        exact fun f hf => h.sound.wellFormed.intact f (mem_append_right _ hf)
      · show rotations k.log.rotated = 0
        rw [rotations, hheld, heldRotations] at hrotations
        rw [hrotated, rotations]
        show 0 + k.log.waiting.countP jobRotates = 0
        omega
    · exact h
  | logged checkpointId payload now =>
    dsimp only [DatabaseKernel.checkpointStep]
    split
    · next hcheckpoint =>
      rw [hcheckpoint] at hphase
      let call : WalCall ρ := ⟨.checkpoint, text "system", checkpointId, some payload⟩
      let frame := (k.log.wal.appendFrame sha256 call now).1
      have happends : Appends k.log (k.log.appendFrame sha256 call now false) [frame] :=
        ⟨rfl, rfl, rfl, rfl⟩
      have hignored : frameWrite? frame.serialize = none := by
        rw [frameWrite?]
        split_ifs <;> rfl
      refine ⟨h.sound.append happends (fun f hf => ?_) ?_ none, hphase⟩
      · rw [mem_singleton.mp hf]
        exact intact_appendFrame _ _ _
      · rw [writesOf, framesOf_linesOf, map_singleton, filterMap_cons, hignored]
        rfl
    · exact h
  | failed =>
    dsimp only [DatabaseKernel.checkpointStep]
    split
    · next data logged hcheckpoint =>
      rw [hcheckpoint] at hphase
      exact ⟨h.sound.of_lines h.sound.logSound rfl _, hphase.1⟩
    · next data logged hcheckpoint =>
      rw [hcheckpoint] at hphase
      exact ⟨h.sound.of_lines h.sound.logSound rfl _, hphase.1⟩
    · next logged hcheckpoint =>
      rw [hcheckpoint] at hphase
      exact ⟨h.sound.of_lines h.sound.logSound rfl _, hphase.1⟩
    · exact h

/-- A step after which the directory recovers the tables has lost nothing. -/
theorem CheckpointSound.losesNothing (h : CheckpointSound sha256 k) {e : CheckpointEvent ρ}
    (hstarts : StartsWith sha256 (k.checkpointStep sha256 e).flushedDirectory
      (k.checkpointStep sha256 e).contents) : LosesNothing k e := by
  cases e with
  | kernel event =>
    obtain ⟨hwf, hread⟩ := wellFormed_step h.sound.wellFormed h.sound.readable event
    exact (recovered_step_iff h.sound.wellFormed h.sound.recovered event).mp
      ((startsWith_flushed_iff hwf hread).mp hstarts)
  | renamed =>
    intro logged hcheckpoint hheld
    have hphase := h.phase
    rw [PhaseSound, hcheckpoint] at hphase
    have hstep : k.checkpointStep sha256 .renamed
        = { k with log := k.log.renamed, checkpoint := some .rotating } := by
      simp only [DatabaseKernel.checkpointStep, hcheckpoint, hheld]
    obtain ⟨hwf, hread⟩ := wellFormed_renamed h.sound.wellFormed hheld (some .rotating)
    rw [hstep] at hstarts
    exact (recovered_renamed_iff hheld hphase.2.2 _).mp
      ((startsWith_flushed_iff hwf hread).mp hstarts)
  | checkpoint | snapshot | tmpWritten | baseRenamed | archived | rotated | logged | failed =>
    trivial

/-- **Checkpoints.**  Take any kernel started on a directory whose base checkpoint has an id in
every record, and any interleaving of calls on its tables with the steps of its checkpoints and
of its log.  Where the snapshots are faithful: in every state, a fresh kernel started once the
log is flushed holds just what the tables hold, exactly if the frames of every call tell what
it did and every rotation of the log keeps what was logged since the snapshot. -/
theorem checkpoints_lose_nothing_iff {clock : ℕ → ℕ} {uuid : Text → ℕ → Text}
    {dir : Directory ρ} (hids : ∀ data ∈ dir.base, HasIds data)
    (hstart : DatabaseKernel.start sha256 clock uuid dir = .ok k)
    {events : List (CheckpointEvent ρ)}
    (hfaithful : Guarded (DatabaseKernel.checkpointStep sha256) SnapshotsFaithful k events) :
    Always (DatabaseKernel.checkpointStep sha256)
        (fun k => StartsWith sha256 k.flushedDirectory k.contents) k events ↔
      Guarded (DatabaseKernel.checkpointStep sha256) LosesNothing k events := by
  have hstarted := started_of_start hids hstart
  have hinit : CheckpointSound sha256 k := by
    refine ⟨⟨hstarted.wellFormed, hstarted.readable, hstarted.recovered⟩, ?_⟩
    rw [PhaseSound, hstarted.checkpoint, rotations, hstarted.held, hstarted.waiting]
    rfl
  exact always_iff_guarded_of_invariant (fun k h => h.sound.startsWith)
    (fun k e h hf hl => h.step hf hl) (fun k e h _ hl hsafe => hl (h.losesNothing hsafe))
    hinit hfaithful

end

/-! ## A put during a checkpoint -/

section

open scoped Js.Ascii

/-- A task with its id. -/
def task : PlainRecord := .ofList [(text "id", .string (text "t1"))]

def putTask : CheckpointEvent PlainRecord :=
  .kernel (.call (text "tasks") (.put (text "t1") task none) fun _ => 0)

/-- A checkpoint up to the rename of the log, with what happens while the base file is
written. -/
def checkpointWith (meanwhile : List (CheckpointEvent PlainRecord)) :
    List (CheckpointEvent PlainRecord) :=
  [.checkpoint, .kernel .start, .kernel .written, .snapshot] ++ meanwhile ++
    [.tmpWritten, .baseRenamed, .archived, .kernel .start, .kernel .written, .kernel .start,
      .renamed]

/-- A task that is put after the snapshot is in neither file. -/
theorem put_during_checkpoint_is_lost :
    let k := run (DatabaseKernel.checkpointStep id) freshKernel (checkpointWith [putTask])
    k.log.inFlight = [] ∧ k.log.wal.writeBuffer = [] ∧
      k.contents (text "tasks", text "t1") = some task ∧
      ¬ Always (DatabaseKernel.checkpointStep id)
        (fun k => StartsWith id k.flushedDirectory k.contents) freshKernel
        (checkpointWith [putTask]) := by
  refine ⟨rfl, rfl, rfl, fun h => ?_⟩
  have hlast := always_iff_forall_split.mp h (checkpointWith [putTask]) []
    (append_nil _).symm
  have hids : ∀ data ∈ (run (DatabaseKernel.checkpointStep id) freshKernel
      (checkpointWith [putTask])).flushedDirectory.base, HasIds data := by
    intro data hdata name records hrecords
    rw [← Option.some.inj hdata] at hrecords
    cases hrecords
  have hcontents := (startsWith_iff hids (fun wal => ⟨wal, rfl⟩) _).mp hlast
  have hkey : none = some task := congrFun hcontents (text "tasks", text "t1")
  cases hkey

theorem snapshotFaithful_task :
    SnapshotFaithful (run (DatabaseKernel.checkpointStep id) freshKernel
      [putTask, .checkpoint, .kernel .start, .kernel .written]) := by
  intro name i record hrecord
  have htables : (run (DatabaseKernel.checkpointStep id) freshKernel
      [putTask, .checkpoint, .kernel .start, .kernel .written]).tables
        = InsertionMap.empty.set (text "tasks")
          { ((freshKernel.getTable (text "tasks")).put (text "t1") task none).2 with
            frames := [] } := rfl
  rw [DatabaseKernel.getTable, htables, get?_set] at hrecord ⊢
  by_cases hname : name = text "tasks"
  · rw [if_pos hname] at hrecord ⊢
    change (InsertionMap.empty.set (text "t1") task).get? i = some record at hrecord
    rw [get?_set] at hrecord
    by_cases hi : i = text "t1"
    · rw [if_pos hi] at hrecord
      rw [← Option.some.inj hrecord, hname, hi]
      decide
    · rw [if_neg hi] at hrecord
      cases hrecord
  · rw [if_neg hname] at hrecord
    cases hrecord

/-- Without a put meanwhile, a checkpoint is safe at every moment. -/
theorem quiet_checkpoint_is_safe :
    Always (DatabaseKernel.checkpointStep id)
      (fun k => StartsWith id k.flushedDirectory k.contents) freshKernel
      (putTask :: checkpointWith []) := by
  have hput : EventLogged freshKernel
      (.call (text "tasks") (.put (text "t1") task none) fun _ => 0) := by
    show LoggedWrite (freshKernel.getTable (text "tasks")) (text "t1") (some task) (some task)
    decide
  refine (checkpoints_lose_nothing_iff (fun _ h => by cases h)
    (start_empty (fun _ => 0) fun _ _ => []) ?_).mpr ?_
  · refine ⟨trivial, trivial, trivial, trivial, fun _ => ?_, trivial, trivial, trivial, trivial,
      trivial, trivial, trivial, trivial⟩
    exact snapshotFaithful_task
  · refine ⟨hput, trivial, trivial, trivial, trivial, trivial, trivial, trivial, trivial,
      trivial, trivial, ?_, trivial⟩
    intro logged hcheckpoint _ key _ w hw
    have hlogged : 1 = logged := Checkpoint.truncating.inj (Option.some.inj hcheckpoint)
    subst hlogged
    cases hw

end

end Lumi.Kernel
