import Lumi.Wal.Integrity
import Lumi.Kernel.Logging

/-!
# What a start recovers

A kernel that starts loads the records of the base checkpoint under their own ids, which
logs a clearing of every table, and then replays the frames of the log.  So the tables
come to hold what the base checkpoint holds, overwritten by the writes of the log
(`startsWith_iff`), and a directory is a list of writes for what it recovers.
-/

namespace Lumi.Kernel

open Js Lumi.Db Lumi.Wal Overwrite List InsertionMap

variable {ρ : Type*}

/-! ## Frames as writes -/

/-- What replay makes of a frame: a table and an id, and what is stored there from then on. -/
def frameWrite? (frame : WalFrame ρ) : Option ((Text × Text) × Option ρ) :=
  if frame.table = [] then none
  else
    match frame.op, frame.payload with
    | .insert, some record | .update, some record =>
      some ((frame.table, frame.recordId), some record)
    | .delete, _ => some ((frame.table, frame.recordId), none)
    | _, _ => none

/-- The writes in the lines of a file. -/
def writesOf (lines : List (Line ρ)) : List ((Text × Text) × Option ρ) :=
  (framesOf lines).filterMap frameWrite?

theorem writesOf_append (first second : List (Line ρ)) :
    writesOf (first ++ second) = writesOf first ++ writesOf second := by
  rw [writesOf, framesOf_append, filterMap_append]
  rfl

variable [Record ρ]

/-- Every record of the base checkpoint has an id of its own. -/
def HasIds (data : BaseCheckpoint ρ) : Prop :=
  ∀ name records, data.get? name = some records → ∀ record ∈ records, (ownId? record).isSome

/-- The records of a table of the base checkpoint, under their ids. -/
def loadedRecords (records : List ρ) : InsertionMap Text ρ :=
  .ofList (records.filterMap fun record => (ownId? record).map (·, record))

/-- The records of a table, under their ids or what is drawn for them. -/
def underIds (uuid : ℕ → Text) (records : List ρ) : List (Text × ρ) :=
  records.zipIdx.map fun e => ((ownId? e.1).getD (uuid e.2), e.1)

def loadedWith (uuid : ℕ → Text) (records : List ρ) : InsertionMap Text ρ :=
  .ofList (underIds uuid records)

/-- The records of the base checkpoint. -/
def baseContents (base : Option (BaseCheckpoint ρ)) (key : Text × Text) : Option ρ :=
  ((base.bind (·.get? key.1)).map loadedRecords).bind (·.get? key.2)

/-! ## One table of the kernel -/

section

variable {sha256 : Text → Text} (k : DatabaseKernel ρ) (clock : ℕ → ℕ) (name : Text)
  (method : DbTable ρ → DbTable ρ)

theorem getTable_onTable (name' : Text) :
    (k.onTable sha256 clock name method).getTable name'
      = if name' = name then { method (k.getTable name) with frames := [] }
        else k.getTable name' := by
  show ((k.tables.set name _).get? name').getD _ = _
  rw [get?_set]
  by_cases h : name' = name
  · rw [if_pos h, if_pos h]
    rfl
  · rw [if_neg h, if_neg h]
    rfl

theorem contents_onTable (key : Text × Text) :
    (k.onTable sha256 clock name method).contents key
      = if key.1 = name then (method (k.getTable name)).records.get? key.2
        else k.contents key := by
  unfold DatabaseKernel.contents
  rw [getTable_onTable]
  by_cases h : key.1 = name
  · rw [if_pos h, if_pos h]
  · rw [if_neg h, if_neg h]

/-- A method of which the log tells some writes to the table. -/
theorem contents_onTable_overwrite (writes : List (Text × Option ρ))
    (h : (method (k.getTable name)).records.get?
      = overwrite (k.getTable name).records.get? writes) :
    (k.onTable sha256 clock name method).contents
      = overwrite k.contents (writes.map fun w => ((name, w.1), w.2)) := by
  funext key
  rw [contents_onTable, overwrite_pair, h]
  rfl

variable [Host]

theorem contents_replayFrame (frame : WalFrame ρ) :
    (DatabaseKernel.replayFrame sha256 clock k frame).contents
      = overwrite k.contents (frameWrite? frame).toList := by
  have hput (record : ρ) : (k.onTable sha256 clock frame.table fun t =>
      t.putInternal frame.recordId record).contents
        = overwrite k.contents [((frame.table, frame.recordId), some record)] :=
    contents_onTable_overwrite k clock frame.table _ [(frame.recordId, some record)]
      (get?_set_eq_update _ _ _)
  have hdelete : (k.onTable sha256 clock frame.table fun t =>
      (t.deleteInternal frame.recordId).2).contents
        = overwrite k.contents [((frame.table, frame.recordId), none)] := by
    refine contents_onTable_overwrite k clock frame.table _ [(frame.recordId, none)] ?_
    rw [DbTable.records_deleteInternal, get?_delete_eq_update]
    rfl
  unfold DatabaseKernel.replayFrame frameWrite?
  by_cases htable : frame.table = []
  · simp only [if_pos htable]
    split <;> rfl
  · simp only [if_neg htable]
    cases frame.op with
    | insert =>
      cases frame.payload with
      | none => rfl
      | some record => exact hput record
    | update =>
      cases frame.payload with
      | none => rfl
      | some record => exact hput record
    | delete => exact hdelete
    | clear | checkpoint | rollback | branchMerge => rfl

theorem contents_replay (frames : List (WalFrame ρ)) :
    (frames.foldl (DatabaseKernel.replayFrame sha256 clock) k).contents
      = overwrite k.contents (frames.filterMap frameWrite?) := by
  induction frames generalizing k with
  | nil => rfl
  | cons frame rest ih =>
    rw [foldl_cons, ih, contents_replayFrame, ← overwrite_append]
    congr 1
    rw [filterMap_cons]
    cases frameWrite? frame <;> rfl

end

variable [JsonRecord ρ]

/-- A frame of a log, read back, is the write of its call. -/
theorem frameWrite?_serialize (frame : WalFrame ρ) :
    frameWrite? frame.serialize =
      (WalCall.write? ⟨frame.op, frame.table, frame.recordId, frame.payload⟩).map
        fun w => ((frame.table, w.1), w.2) := by
  unfold frameWrite? WalCall.write? WalFrame.serialize
  by_cases htable : frame.table = []
  · rw [if_pos htable, if_pos htable]
    rfl
  · rw [if_neg htable, if_neg htable]
    cases frame.op <;> cases frame.payload <;> rfl

/-! ## Frames that are appended -/

/-- Lines of frames, as writes. -/
theorem framesOf_linesOf (frames : List (WalFrame ρ)) :
    framesOf (LogState.linesOf frames) = frames.map WalFrame.serialize := by
  rw [← framesOf_map (frames.map WalFrame.serialize), map_map]
  rfl

theorem readable_append_linesOf {sha256 : Text → Text} {file : List (Line ρ)}
    (h : Readable sha256 file) {frames : List (WalFrame ρ)}
    (hframes : ∀ f ∈ frames, Intact sha256 f) :
    Readable sha256 (file ++ LogState.linesOf frames) := by
  have hlines : LogState.linesOf frames = (frames.map WalFrame.serialize).map Line.frame := by
    rw [map_map]
    rfl
  rw [hlines]
  refine h.append fun f hf => ?_
  obtain ⟨g, hg, rfl⟩ := mem_map.mp hf
  exact intact_serialize (hframes g hg)

/-- A log after frames were appended to it. -/
structure Appends (log log' : LogState ρ) (frames : List (WalFrame ρ)) : Prop where
  file : log'.file = log.file
  held : log'.held = log.held
  waiting : log'.waiting = log.waiting
  writeBuffer : log'.wal.writeBuffer = log.wal.writeBuffer ++ frames

namespace Appends

variable {log log' log'' : LogState ρ} {frames more : List (WalFrame ρ)}

omit [Record ρ] [JsonRecord ρ] in
theorem trans (h : Appends log log' frames) (h' : Appends log' log'' more) :
    Appends log log'' (frames ++ more) :=
  ⟨h'.file.trans h.file, h'.held.trans h.held, h'.waiting.trans h.waiting, by
    rw [h'.writeBuffer, h.writeBuffer, append_assoc]⟩

omit [Record ρ] [JsonRecord ρ] in
theorem inFlight (h : Appends log log' frames) : log'.inFlight = log.inFlight := by
  rw [LogState.inFlight, h.held]
  rfl

theorem lines (h : Appends log log' frames) :
    LogState.lines log' = LogState.lines log ++ LogState.linesOf frames := by
  calc
    LogState.lines log'
      = log.file ++ LogState.linesOf log.inFlight
          ++ LogState.linesOf (log.wal.writeBuffer ++ frames) := by
        rw [LogState.lines, h.file, h.inFlight, h.writeBuffer]
    _ = LogState.lines log ++ LogState.linesOf frames := by
        rw [LogState.linesOf_append, ← append_assoc]
        rfl

end Appends

/-- The frames of calls on one table, as the hook of the kernel appends them. -/
theorem appends_calls (sha256 : Text → Text) (clock : ℕ → ℕ) (name : Text)
    {calls : List (WalCall ρ)} (htable : ∀ call ∈ calls, call.table = name) (log : LogState ρ) :
    ∃ frames, Appends log (calls.foldl
        (fun log call => log.appendFrame sha256 call (clock log.wal.nextFrameId) false) log)
        frames ∧
      (∀ f ∈ frames, Intact sha256 f) ∧
      writesOf (LogState.linesOf frames)
        = (calls.filterMap WalCall.write?).map fun w => ((name, w.1), w.2) := by
  induction calls generalizing log with
  | nil =>
    refine ⟨[], ⟨rfl, rfl, rfl, (append_nil _).symm⟩, fun _ hf => (by cases hf), rfl⟩
  | cons call rest ih =>
    let frame := (log.wal.appendFrame sha256 call (clock log.wal.nextFrameId)).1
    have hone : Appends log
        (log.appendFrame sha256 call (clock log.wal.nextFrameId) false) [frame] :=
      ⟨rfl, rfl, rfl, rfl⟩
    obtain ⟨frames, happends, hintact, hwrites⟩ :=
      ih (fun c hc => htable c (mem_cons_of_mem _ hc))
        (log.appendFrame sha256 call (clock log.wal.nextFrameId) false)
    refine ⟨frame :: frames, hone.trans happends,
      forall_mem_cons.mpr ⟨intact_appendFrame _ _ _, hintact⟩, ?_⟩
    have hframe : frameWrite? frame.serialize
        = (WalCall.write? call).map fun w => ((name, w.1), w.2) := by
      rw [← htable call mem_cons_self]
      exact frameWrite?_serialize frame
    rw [writesOf, framesOf_linesOf, map_cons, filterMap_cons, hframe,
      filterMap_cons]
    rw [writesOf, framesOf_linesOf] at hwrites
    cases WalCall.write? call with
    | none => exact hwrites
    | some w => exact congrArg (((name, w.1), w.2) :: ·) hwrites

/-! ## The kernel as a whole -/

/-- The tables are those of their names and tell the kernel, and what the log is to write can
be read back. -/
structure WellFormed (sha256 : Text → Text) (k : DatabaseKernel ρ) : Prop where
  tables : ∀ name, (k.getTable name).name = name ∧ (k.getTable name).hasWalHook = true ∧
    (k.getTable name).frames = []
  intact : ∀ f ∈ k.log.inFlight ++ k.log.wal.writeBuffer, Intact sha256 f
  hasIds : ∀ data ∈ k.base, HasIds data

/-- A table method appends the frames of its calls to the log. -/
theorem WellFormed.onTable {sha256 : Text → Text} {k : DatabaseKernel ρ} (h : WellFormed sha256 k)
    (clock : ℕ → ℕ) (name : Text) (method : DbTable ρ → DbTable ρ) {writes : List (Text × Option ρ)}
    (hlogs : Logs (k.getTable name) (method (k.getTable name)) writes) :
    WellFormed sha256 (k.onTable sha256 clock name method) ∧
      ∃ frames, Appends k.log (k.onTable sha256 clock name method).log frames ∧
        writesOf (LogState.linesOf frames) = writes.map fun w => ((name, w.1), w.2) := by
  obtain ⟨hname, hhook, hframes⟩ := h.tables name
  obtain ⟨calls, hcalls, htable, hwrites⟩ := hlogs.frames
  rw [hframes, nil_append] at hcalls
  obtain ⟨frames, happends, hintact, hwritesOf⟩ := appends_calls sha256 clock name
    (fun call hcall => (htable call hcall).trans hname) k.log
  rw [← hcalls] at happends
  change Appends k.log (k.onTable sha256 clock name method).log frames at happends
  refine ⟨⟨fun name' => ?_, ?_, h.hasIds⟩, frames, happends, hwritesOf.trans (by rw [hwrites])⟩
  · rw [getTable_onTable]
    by_cases hn : name' = name
    · rw [if_pos hn, hn]
      exact ⟨hlogs.name.trans hname, hlogs.hasWalHook.trans hhook, rfl⟩
    · rw [if_neg hn]
      exact h.tables name'
  · intro f hf
    rw [happends.inFlight, happends.writeBuffer, ← append_assoc] at hf
    rcases mem_append.mp hf with hf | hf
    · exact h.intact f hf
    · exact hintact f hf

/-! ## Loading the base checkpoint -/

section

variable [Host] {sha256 : Text → Text}

theorem logs_loadTable {t : DbTable ρ} (hhook : t.hasWalHook = true) (uuid : ℕ → Text)
    (records : List ρ) : Logs t (loadTable uuid records t) [] := by
  unfold loadTable
  generalize records.zipIdx = entries
  have hputs : ∀ t : DbTable ρ, Logs t (entries.foldl
      (fun table e => table.putInternal ((ownId? e.1).getD (uuid e.2)) e.1) t) [] := by
    induction entries with
    | nil => exact fun t => .refl t
    | cons e rest ih =>
      intro t
      have hone : Logs t (t.putInternal ((ownId? e.1).getD (uuid e.2)) e.1) [] :=
        .of_eq rfl rfl rfl
      exact hone.trans (ih _)
  exact (logs_clear hhook).trans (hputs _)

omit [JsonRecord ρ] in
theorem records_loadTable (t : DbTable ρ) (uuid : ℕ → Text) (records : List ρ) :
    (loadTable uuid records t).records = loadedWith uuid records := by
  unfold loadTable loadedWith underIds InsertionMap.ofList
  rw [foldl_map]
  generalize records.zipIdx = entries
  have hputs : ∀ t : DbTable ρ, (entries.foldl
      (fun table e => table.putInternal ((ownId? e.1).getD (uuid e.2)) e.1) t).records
        = entries.foldl (fun m e => m.set ((ownId? e.1).getD (uuid e.2)) e.1) t.records := by
    induction entries with
    | nil => exact fun _ => rfl
    | cons e rest ih => exact fun t => ih _
  exact hputs t.clear

omit [JsonRecord ρ] [Host] in
/-- Where every record has an id, nothing is drawn. -/
theorem loadedWith_of_hasIds (uuid : ℕ → Text) {records : List ρ}
    (hids : ∀ record ∈ records, (ownId? record).isSome) :
    loadedWith uuid records = loadedRecords records := by
  have hgen : ∀ (records : List ρ) (n : ℕ), (∀ record ∈ records, (ownId? record).isSome) →
      (records.zipIdx n).map (fun e => ((ownId? e.1).getD (uuid e.2), e.1))
        = records.filterMap fun record => (ownId? record).map (·, record) := by
    intro records
    induction records with
    | nil => exact fun _ _ => rfl
    | cons record rest ih =>
      intro n hids
      obtain ⟨id, hid⟩ := Option.isSome_iff_exists.mp (hids record mem_cons_self)
      rw [zipIdx_cons, map_cons, filterMap_cons, hid,
        ih _ fun r hr => hids r (mem_cons_of_mem _ hr)]
      rfl
  rw [loadedWith, underIds, hgen records 0 hids, loadedRecords]

variable (sha256) in
omit [JsonRecord ρ] in
/-- The tables of a base checkpoint are loaded one by one. -/
theorem contents_loadEntries (clock : ℕ → ℕ) (uuid : Text → ℕ → Text)
    {entries : List (Text × List ρ)} (hnodup : (entries.map Prod.fst).Nodup)
    (k : DatabaseKernel ρ) (key : Text × Text) :
    (entries.foldl (fun k e => k.onTable sha256 clock e.1 (loadTable (uuid e.1) e.2)) k).contents
        key
      = (((InsertionMap.mk entries hnodup).get? key.1).map
          fun records => (loadedWith (uuid key.1) records).get? key.2).getD (k.contents key) := by
  induction entries generalizing k with
  | nil => rfl
  | cons e rest ih =>
    have hcons := hnodup
    rw [map_cons, nodup_cons] at hcons
    rw [foldl_cons, ih hcons.2, contents_onTable, records_loadTable,
      get?_cons hnodup]
    by_cases hkey : key.1 = e.1
    · have hnone : (InsertionMap.mk rest hcons.2).get? key.1 = none := by
        rw [get?_eq_none_iff, hkey]
        exact hcons.1
      rw [hnone, if_pos hkey, if_pos hkey, ← hkey]
      rfl
    · rw [if_neg hkey, if_neg hkey]

variable (sha256) in
/-- Loading logs that the tables are cleared, which is no write. -/
theorem loadEntries_spec (clock : ℕ → ℕ) (uuid : Text → ℕ → Text)
    (entries : List (Text × List ρ)) {k : DatabaseKernel ρ} (h : WellFormed sha256 k) :
    let loaded := entries.foldl
      (fun k e => k.onTable sha256 clock e.1 (loadTable (uuid e.1) e.2)) k
    WellFormed sha256 loaded ∧
      (∃ frames, Appends k.log loaded.log frames ∧ writesOf (LogState.linesOf frames) = []) ∧
      loaded.base = k.base ∧ loaded.checkpoint = k.checkpoint := by
  induction entries generalizing k with
  | nil => exact ⟨h, ⟨[], ⟨rfl, rfl, rfl, (append_nil _).symm⟩, rfl⟩, rfl, rfl⟩
  | cons e rest ih =>
    obtain ⟨hwf, frames, happends, hwrites⟩ :=
      h.onTable clock e.1 _ (logs_loadTable (h.tables e.1).2.1 (uuid e.1) e.2)
    obtain ⟨hwf', ⟨more, happends', hwrites'⟩, hbase, hcheckpoint⟩ := ih hwf
    refine ⟨hwf', ⟨frames ++ more, happends.trans happends', ?_⟩, hbase, hcheckpoint⟩
    rw [LogState.linesOf_append, writesOf_append, hwrites, hwrites']
    rfl

omit [JsonRecord ρ] [Host] in
theorem wellFormed_new {dir : Directory ρ} (hids : ∀ data ∈ dir.base, HasIds data) :
    WellFormed sha256 (DatabaseKernel.new dir) :=
  ⟨fun _ => ⟨rfl, rfl, rfl⟩, fun _ hf => (by cases hf), hids⟩

variable (sha256) in
theorem loadBaseCheckpoint_spec (clock : ℕ → ℕ) (uuid : Text → ℕ → Text) {dir : Directory ρ}
    (hids : ∀ data ∈ dir.base, HasIds data) :
    let k := (DatabaseKernel.new dir).loadBaseCheckpoint sha256 clock uuid
    WellFormed sha256 k ∧
      (∃ frames, Appends (DatabaseKernel.new dir).log k.log frames ∧
        writesOf (LogState.linesOf frames) = []) ∧
      k.contents = baseContents dir.base ∧ k.base = dir.base ∧ k.checkpoint = none := by
  obtain ⟨base, file⟩ := dir
  cases base with
  | none =>
    exact ⟨wellFormed_new hids, ⟨[], ⟨rfl, rfl, rfl, rfl⟩, rfl⟩, rfl, rfl, rfl⟩
  | some data =>
    have hdata := hids data rfl
    obtain ⟨hwf, happends, hbase, hcheckpoint⟩ :=
      loadEntries_spec sha256 clock uuid data.entries (wellFormed_new hids)
    have hcontents := contents_loadEntries sha256 clock uuid data.nodup
      (DatabaseKernel.new ⟨some data, file⟩)
    refine ⟨hwf, happends, funext fun key => (hcontents key).trans ?_, hbase, hcheckpoint⟩
    show ((data.get? key.1).map _).getD _ = ((data.get? key.1).map loadedRecords).bind _
    cases hrecords : data.get? key.1 with
    | none => rfl
    | some records =>
      rw [Option.map_some, loadedWith_of_hasIds _ (hdata key.1 records hrecords)]
      rfl

/-! ## Replay -/

omit [JsonRecord ρ] [Host] in
/-- A method that does not call the hook leaves the log as it is. -/
theorem log_onTable (k : DatabaseKernel ρ) (clock : ℕ → ℕ) {name : Text}
    {method : DbTable ρ → DbTable ρ} (h : (method (k.getTable name)).frames = []) :
    (k.onTable sha256 clock name method).log = k.log := by
  show (method (k.getTable name)).frames.foldl _ k.log = k.log
  rw [h]
  rfl

/-- Replay changes the records of the tables, and nothing else of the kernel. -/
theorem replayFrame_spec {k : DatabaseKernel ρ} (h : WellFormed sha256 k) (clock : ℕ → ℕ)
    (frame : WalFrame ρ) :
    let k' := DatabaseKernel.replayFrame sha256 clock k frame
    WellFormed sha256 k' ∧ k'.log = k.log ∧ k'.base = k.base ∧ k'.checkpoint = k.checkpoint := by
  have hput (record : ρ) : Logs (k.getTable frame.table)
      ((k.getTable frame.table).putInternal frame.recordId record) [] := .of_eq rfl rfl rfl
  have hdelete := logs_deleteInternal (k.getTable frame.table) frame.recordId
  have hframes : ((k.getTable frame.table).deleteInternal frame.recordId).2.frames = [] := by
    rw [DbTable.deleteInternal_frame]
    exact (h.tables frame.table).2.2
  intro k'
  unfold k' DatabaseKernel.replayFrame
  by_cases htable : frame.table = []
  · simp only [if_pos htable]
    split <;> exact ⟨h, rfl, rfl, rfl⟩
  · simp only [if_neg htable]
    split
    · exact ⟨(h.onTable clock _ _ (hput _)).1, log_onTable k clock (h.tables frame.table).2.2,
        rfl, rfl⟩
    · exact ⟨(h.onTable clock _ _ (hput _)).1, log_onTable k clock (h.tables frame.table).2.2,
        rfl, rfl⟩
    · exact ⟨(h.onTable clock _ _ hdelete).1, log_onTable k clock hframes, rfl, rfl⟩
    · exact ⟨h, rfl, rfl, rfl⟩

theorem replay_spec {k : DatabaseKernel ρ} (h : WellFormed sha256 k) (clock : ℕ → ℕ)
    (frames : List (WalFrame ρ)) :
    let k' := frames.foldl (DatabaseKernel.replayFrame sha256 clock) k
    WellFormed sha256 k' ∧ k'.log = k.log ∧ k'.base = k.base ∧ k'.checkpoint = k.checkpoint := by
  induction frames generalizing k with
  | nil => exact ⟨h, rfl, rfl, rfl⟩
  | cons frame rest ih =>
    obtain ⟨hwf, hlog, hbase, hcheckpoint⟩ := replayFrame_spec h clock frame
    obtain ⟨hwf', hlog', hbase', hcheckpoint'⟩ := ih hwf
    exact ⟨hwf', hlog'.trans hlog, hbase'.trans hbase, hcheckpoint'.trans hcheckpoint⟩

/-! ## Start -/

/-- A kernel just started: what it holds is what its directory holds, and nothing is under way
in its log. -/
structure Started (sha256 : Text → Text) (dir : Directory ρ) (k : DatabaseKernel ρ) : Prop where
  wellFormed : WellFormed sha256 k
  readable : Readable sha256 k.log.file
  contents : k.contents = overwrite (baseContents dir.base) (writesOf dir.file)
  base : k.base = dir.base
  checkpoint : k.checkpoint = none
  held : k.log.held = none
  waiting : k.log.waiting = []
  writeBuffer : k.log.wal.writeBuffer = []
  file : writesOf k.log.file = writesOf dir.file

omit [Host] in
theorem lines_of_appends_new {dir : Directory ρ} {log : LogState ρ} {frames : List (WalFrame ρ)}
    (h : Appends (DatabaseKernel.new dir).log log frames) :
    LogState.lines log = dir.file ++ LogState.linesOf frames := by
  rw [h.lines]
  congr 1
  show dir.file ++ [] ++ [] = dir.file
  rw [append_nil, append_nil]

theorem started_of_start {clock : ℕ → ℕ} {uuid : Text → ℕ → Text} {dir : Directory ρ}
    (hids : ∀ data ∈ dir.base, HasIds data) {k : DatabaseKernel ρ}
    (h : DatabaseKernel.start sha256 clock uuid dir = .ok k) : Started sha256 dir k := by
  obtain ⟨hwf, ⟨frames, happends, hwrites⟩, hcontents, hbase, hcheckpoint⟩ :=
    loadBaseCheckpoint_spec sha256 clock uuid hids
  unfold DatabaseKernel.start at h
  dsimp only at h
  generalize (DatabaseKernel.new dir).loadBaseCheckpoint sha256 clock uuid = loaded at *
  have hlines := lines_of_appends_new happends
  have hfile : writesOf (LogState.lines loaded.log) = writesOf dir.file := by
    rw [hlines, writesOf_append, hwrites, append_nil]
  split at h
  · next frames' wal hreplay =>
    obtain ⟨hframes, hread⟩ := readable_of_replay hreplay
    have hbuffer : wal.writeBuffer = [] := writeBuffer_replayLines hreplay
    have hinFlight : loaded.log.inFlight = [] := by
      rw [LogState.inFlight, happends.held]
      rfl
    have hnext : WellFormed sha256 { loaded with
        log := { loaded.log with file := LogState.lines loaded.log, wal } } := by
      refine ⟨hwf.tables, fun f hf => ?_, hwf.hasIds⟩
      change f ∈ loaded.log.inFlight ++ wal.writeBuffer at hf
      rw [hinFlight, hbuffer] at hf
      cases hf
    obtain ⟨hwf', hlog, hbase', hcheckpoint'⟩ := replay_spec hnext clock frames'
    rw [← Except.ok.inj h]
    refine ⟨hwf', ?_, ?_, hbase'.trans hbase, hcheckpoint'.trans hcheckpoint, ?_, ?_, ?_, ?_⟩
    · rw [hlog]
      exact hread
    · rw [contents_replay, hframes]
      show overwrite loaded.contents (writesOf (LogState.lines loaded.log)) = _
      rw [hcontents, hfile]
    · rw [hlog]
      exact happends.held
    · rw [hlog]
      exact happends.waiting
    · rw [hlog]
      exact hbuffer
    · rw [hlog]
      exact hfile
  · cases h

theorem start_of_readable (clock : ℕ → ℕ) (uuid : Text → ℕ → Text) {dir : Directory ρ}
    (hids : ∀ data ∈ dir.base, HasIds data) (hread : Readable sha256 dir.file) :
    ∃ k, DatabaseKernel.start sha256 clock uuid dir = .ok k := by
  obtain ⟨hwf, ⟨frames, happends, -⟩, -⟩ :=
    loadBaseCheckpoint_spec sha256 clock uuid hids
  have hlines := lines_of_appends_new happends
  unfold DatabaseKernel.start
  dsimp only
  generalize (DatabaseKernel.new dir).loadBaseCheckpoint sha256 clock uuid = loaded at *
  have hreadable : Readable sha256 (LogState.lines loaded.log) := by
    rw [hlines]
    refine readable_append_linesOf hread fun f hf => hwf.intact f ?_
    rw [happends.writeBuffer]
    exact mem_append_right _ (mem_append_right _ hf)
  obtain ⟨wal, hreplay⟩ := hreadable { loaded.log.wal with writeBuffer := [] }
  rw [hreplay]
  exact ⟨_, rfl⟩

/-- **What a start recovers**: the base checkpoint, overwritten by the writes of the log. -/
theorem startsWith_iff {dir : Directory ρ} (hids : ∀ data ∈ dir.base, HasIds data)
    (hread : Readable sha256 dir.file) (contents : Text × Text → Option ρ) :
    StartsWith sha256 dir contents ↔
      overwrite (baseContents dir.base) (writesOf dir.file) = contents := by
  constructor
  · intro h
    obtain ⟨k, hstart, hcontents⟩ := h (fun _ => 0) fun _ _ => []
    rw [← hcontents, (started_of_start hids hstart).contents]
  · intro h clock uuid
    obtain ⟨k, hstart⟩ := start_of_readable clock uuid hids hread
    exact ⟨k, hstart, (started_of_start hids hstart).contents.trans h⟩

end

end Lumi.Kernel
