import Lumi.Kernel.Replay

/-!
# When a crash loses nothing

Once its log is flushed, a directory recovers the base checkpoint overwritten by the
writes of the log, and a call on a table adds to these just the writes of its frames.  So
the directory recovers what the tables hold as long as every call is told by its frames
(`EventLogged`), and no longer: a clearing, an undo, a redo, a checkout and a merge change
records of which replay does not learn, and what JSON does not keep comes back changed.
-/

namespace Lumi.Kernel

open Js Lumi.Db Lumi.Wal Overwrite Run

section

variable {ρ : Type*} [Record ρ] [JsonRecord ρ]

/-! ## The lines of the log -/

section

variable {log : LogState ρ} {sha256 : Text → Text}

theorem lines_flush (thenRotate : Bool) :
    LogState.lines (log.flush thenRotate) = LogState.lines log := by
  unfold LogState.flush
  split_ifs <;> rfl

theorem lines_start : LogState.lines log.start = LogState.lines log := by
  unfold LogState.start
  split
  · next thenRotate waiting hheld hwaiting =>
    split_ifs
    · rfl
    · rfl
    · have hnone : log.inFlight = [] := by rw [LogState.inFlight, hheld]
      show log.file ++ LogState.linesOf log.wal.writeBuffer ++ LogState.linesOf [] = _
      rw [LogState.lines, hnone]
      simp [LogState.linesOf]
  · next waiting hheld hwaiting =>
    have hnone : log.inFlight = [] := by rw [LogState.inFlight, hheld]
    show log.file ++ LogState.linesOf [] ++ _ = _
    rw [LogState.lines, hnone]
  · rfl

theorem lines_written : LogState.lines log.written = LogState.lines log := by
  unfold LogState.written
  split
  · next batch thenRotate hheld =>
    show log.file ++ LogState.linesOf batch ++ LogState.linesOf [] ++ _ = _
    rw [LogState.lines, LogState.inFlight_of_writing hheld]
    simp [LogState.linesOf]
  · rfl

/-- What is on its way to the file can be read back. -/
def LogSound (sha256 : Text → Text) (log : LogState ρ) : Prop :=
  Readable sha256 log.file ∧ ∀ f ∈ log.inFlight ++ log.wal.writeBuffer, Intact sha256 f

namespace LogSound

omit [JsonRecord ρ] in
theorem flush (h : LogSound sha256 log) (thenRotate : Bool) :
    LogSound sha256 (log.flush thenRotate) := by
  unfold LogState.flush
  split_ifs <;> exact h

omit [JsonRecord ρ] in
theorem start (h : LogSound sha256 log) : LogSound sha256 log.start := by
  unfold LogState.start
  split
  · split_ifs
    · exact h
    · exact h
    · refine ⟨h.1, fun f hf => h.2 f (List.mem_append_right _ ?_)⟩
      rw [← List.append_nil log.wal.writeBuffer]
      exact hf
  · exact ⟨h.1, fun f hf => h.2 f (List.mem_append_right _ hf)⟩
  · exact h

theorem written (h : LogSound sha256 log) : LogSound sha256 log.written := by
  unfold LogState.written
  split
  · next batch thenRotate hheld =>
    have hbatch := h.2
    rw [LogState.inFlight_of_writing hheld] at hbatch
    exact ⟨readable_append_linesOf h.1 fun f hf => hbatch f (List.mem_append_left _ hf),
      fun f hf => hbatch f (List.mem_append_right _ hf)⟩
  · exact h

theorem readable_lines (h : LogSound sha256 log) : Readable sha256 (LogState.lines log) := by
  rw [LogState.lines, List.append_assoc, ← LogState.linesOf_append]
  exact readable_append_linesOf h.1 h.2

end LogSound

end

/-! ## Steps -/

variable [Host] {sha256 : Text → Text} {k : DatabaseKernel ρ}

/-- A call whose frames tell what it did. -/
def EventLogged (k : DatabaseKernel ρ) : KernelEvent ρ → Prop
  | .call table call _ => Logged (k.getTable table) call
  | _ => True

/-- A call on a table appends its frames to the log. -/
theorem appends_call (h : WellFormed sha256 k) (table : Text) (call : TableCall ρ) (clock : ℕ → ℕ) :
    WellFormed sha256 (k.step sha256 (.call table call clock)) ∧
      ∃ frames, Appends k.log (k.step sha256 (.call table call clock)).log frames := by
  obtain ⟨-, hhook, -⟩ := h.tables table
  obtain ⟨writes, hlogs, -⟩ := told_call hhook call
  obtain ⟨hwf, frames, happends, -⟩ := h.onTable clock table (fun t => t.call call) hlogs
  exact ⟨hwf, frames, happends⟩

/-- What a step adds to the log, and what the log then tells of it. -/
theorem step_spec (h : WellFormed sha256 k) (e : KernelEvent ρ) :
    ∃ frames, LogState.lines (k.step sha256 e).log
        = LogState.lines k.log ++ LogState.linesOf frames ∧
      (overwrite k.contents (writesOf (LogState.linesOf frames)) = (k.step sha256 e).contents ↔
        EventLogged k e) := by
  have hquiet {log : LogState ρ} (hlines : LogState.lines log = LogState.lines k.log) :
      LogState.lines log = LogState.lines k.log ++ LogState.linesOf [] :=
    hlines.trans (List.append_nil _).symm
  cases e with
  | call table call clock =>
    obtain ⟨-, hhook, -⟩ := h.tables table
    obtain ⟨writes, hlogs, htold⟩ := told_call hhook call
    obtain ⟨-, frames, happends, hwrites⟩ := h.onTable clock table (fun t => t.call call) hlogs
    refine ⟨frames, happends.lines, Iff.trans ?_ htold⟩
    rw [hwrites]
    constructor
    · intro heq
      funext id
      have hkey := congrFun heq (table, id)
      rw [overwrite_pair, if_pos rfl] at hkey
      exact hkey.trans ((contents_onTable k clock table _ (table, id)).trans (if_pos rfl))
    · intro heq
      exact (contents_onTable_overwrite k clock table _ _ heq.symm).symm
  | addComputedColumn table column computeFn =>
    refine ⟨[], hquiet rfl, iff_of_true (funext fun key => ?_) trivial⟩
    show (k.getTable key.1).records.get? key.2
      = (((k.tables.set table _).get? key.1).getD _).records.get? key.2
    rw [InsertionMap.get?_set]
    by_cases hkey : key.1 = table
    · rw [if_pos hkey, hkey]
      rfl
    · rw [if_neg hkey]
      rfl
  | flush => exact ⟨[], hquiet (lines_flush false), iff_of_true rfl trivial⟩
  | start => exact ⟨[], hquiet lines_start, iff_of_true rfl trivial⟩
  | written => exact ⟨[], hquiet lines_written, iff_of_true rfl trivial⟩

theorem wellFormed_step (h : WellFormed sha256 k) (hread : Readable sha256 k.log.file)
    (e : KernelEvent ρ) :
    WellFormed sha256 (k.step sha256 e) ∧ Readable sha256 (k.step sha256 e).log.file := by
  have hlog : LogSound sha256 k.log := ⟨hread, h.intact⟩
  have hof {log : LogState ρ} (hsound : LogSound sha256 log) :
      WellFormed sha256 { k with log } ∧ Readable sha256 log.file :=
    ⟨⟨h.tables, hsound.2, h.hasIds⟩, hsound.1⟩
  cases e with
  | call table call clock =>
    obtain ⟨hwf, frames, happends⟩ := appends_call h table call clock
    exact ⟨hwf, happends.file ▸ hread⟩
  | addComputedColumn table column computeFn =>
    refine ⟨⟨fun name => ?_, h.intact, h.hasIds⟩, hread⟩
    show (((k.tables.set table _).get? name).getD _).name = name ∧
      (((k.tables.set table _).get? name).getD _).hasWalHook = true ∧
      (((k.tables.set table _).get? name).getD _).frames = []
    rw [InsertionMap.get?_set]
    by_cases hname : name = table
    · rw [if_pos hname, hname]
      exact h.tables table
    · rw [if_neg hname]
      exact h.tables name
  | flush => exact hof (hlog.flush false)
  | start => exact hof hlog.start
  | written => exact hof hlog.written

/-- The log, once written, makes of the base checkpoint what the tables hold. -/
def Recovered (k : DatabaseKernel ρ) : Prop :=
  overwrite (baseContents k.base) (writesOf (LogState.lines k.log)) = k.contents

theorem startsWith_flushed_iff (h : WellFormed sha256 k) (hread : Readable sha256 k.log.file) :
    StartsWith sha256 k.flushedDirectory k.contents ↔ Recovered k :=
  startsWith_iff h.hasIds (LogSound.readable_lines ⟨hread, h.intact⟩) k.contents

theorem base_step (e : KernelEvent ρ) : (k.step sha256 e).base = k.base := by
  cases e <;> rfl

theorem recovered_step_iff (h : WellFormed sha256 k) (hrec : Recovered k) (e : KernelEvent ρ) :
    Recovered (k.step sha256 e) ↔ EventLogged k e := by
  obtain ⟨frames, hlines, hiff⟩ := step_spec h e
  rw [Recovered, base_step, hlines, writesOf_append, overwrite_append, hrec]
  exact hiff

omit [Host] in
theorem Started.recovered {dir : Directory ρ} (h : Started sha256 dir k) : Recovered k := by
  have hlines : LogState.lines k.log = k.log.file := by
    rw [LogState.lines, LogState.inFlight, h.held, h.writeBuffer]
    show k.log.file ++ [] ++ [] = k.log.file
    rw [List.append_nil, List.append_nil]
  rw [Recovered, hlines, h.base, h.file, h.contents]

/-- What a run keeps as long as every call is told by its frames. -/
structure Sound (sha256 : Text → Text) (k : DatabaseKernel ρ) : Prop where
  wellFormed : WellFormed sha256 k
  readable : Readable sha256 k.log.file
  recovered : Recovered k

theorem Sound.step (h : Sound sha256 k) {e : KernelEvent ρ} (he : EventLogged k e) :
    Sound sha256 (k.step sha256 e) := by
  obtain ⟨hwf, hread⟩ := wellFormed_step h.wellFormed h.readable e
  exact ⟨hwf, hread, (recovered_step_iff h.wellFormed h.recovered e).mpr he⟩

theorem Sound.startsWith (h : Sound sha256 k) : StartsWith sha256 k.flushedDirectory k.contents :=
  (startsWith_flushed_iff h.wellFormed h.readable).mpr h.recovered

end

/-! ## A table is cleared -/

section

open scoped Js.Ascii

/-- A kernel in an empty directory. -/
def freshKernel : DatabaseKernel PlainRecord := .new ⟨none, []⟩

theorem start_empty (clock : ℕ → ℕ) (uuid : Text → ℕ → Text) :
    DatabaseKernel.start id clock uuid (⟨none, []⟩ : Directory PlainRecord) = .ok freshKernel :=
  rfl

def draft : PlainRecord := .ofList [(text "title", .string (text "Draft"))]

/-- A task is put. -/
def putDraft : KernelEvent PlainRecord :=
  .call (text "tasks") (.put (text "t1") draft none) fun _ => 0

/-- The table of the task is cleared. -/
def clearTasks : KernelEvent PlainRecord := .call (text "tasks") .clear fun _ => 0

theorem eventLogged_putDraft : EventLogged freshKernel putDraft := by
  show LoggedWrite (freshKernel.getTable (text "tasks")) (text "t1") (some draft) (some draft)
  decide

theorem sound_putDraft : Sound id (freshKernel.step id putDraft) := by
  have hstarted : Started id ⟨none, []⟩ freshKernel :=
    started_of_start (fun _ h => by cases h) (start_empty (fun _ => 0) fun _ _ => [])
  have hfresh : Sound id freshKernel :=
    ⟨hstarted.wellFormed, hstarted.readable, hstarted.recovered⟩
  exact hfresh.step eventLogged_putDraft

end

end Lumi.Kernel
