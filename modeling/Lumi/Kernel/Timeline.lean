import Mathlib.Data.Fintype.EquivFin
import Lumi.Kernel.Checkpoint

/-!
# Checkpoints and their files

The timeline of a kernel, and what the file of a checkpoint keeps of the keys of a table.
-/

open List InsertionMap

namespace Lumi.Kernel

open Js Lumi.Db Lumi.Wal

/-! ## The timeline of a kernel

Beside the base file, a checkpoint keeps a snapshot of the tables in memory, under its id,
and writes the same data as the base file to a history file.  `rollback` restores the
snapshot in memory if this kernel has taken it, and else reads the history file.

What a running `checkpoint` has gathered is kept from its snapshot to the moment at which
the history file is written.  `rollback` changes the tables in one go, when it has the
mutex and, on disk, the text of its file.  A restart makes a fresh kernel on the base
file and whatever file of the log is there; the history files stay.  The record that
describes a checkpoint is left out, as nothing here reads it.
-/

/-- The records of every table, as a checkpoint keeps them in memory. -/
abbrev MemorySnapshot (ρ : Type*) := InsertionMap Text (InsertionMap Text ρ)

/-- `checkpointId`, `allTableData` and `memorySnapshot` of a running `checkpoint`. -/
structure Gathered (ρ : Type*) where
  checkpointId : Text
  data : BaseCheckpoint ρ
  memorySnapshot : MemorySnapshot ρ

/-- A kernel with its checkpoints: those in memory, and the files of its `checkpointsDir`. -/
structure Timeline (ρ : Type*) where
  kernel : DatabaseKernel ρ
  memorySnapshots : InsertionMap Text (MemorySnapshot ρ)
  history : InsertionMap Text (BaseCheckpoint ρ)
  gathered : Option (Gathered ρ)

/-- What a kernel reads from its clock, and the identifiers it draws for records without
one. -/
structure Ambient (ρ : Type*) where
  clock : ℕ → ℕ
  uuid : Text → ℕ → Text
  /-- The payload `{ source }` of a frame. -/
  sourced : Text → ρ

/-- The steps of `checkpoint` and of the log and the calls on tables, each with the id that a
snapshot draws then, the calls of `rollback`, and restarts. -/
inductive TimelineEvent (ρ : Type*)
  | kernel (event : CheckpointEvent ρ) (drawn : Text)
  | rollback (checkpointId : Text) (ambient : Ambient ρ)
  | restart (file : List (Line ρ)) (ambient : Ambient ρ)

variable {ρ : Type*} [Record ρ]

def DatabaseKernel.memorySnapshot (k : DatabaseKernel ρ) : MemorySnapshot ρ :=
  k.tables.map fun _ table => table.createSnapshot

namespace Timeline

def new (k : DatabaseKernel ρ) (history : InsertionMap Text (BaseCheckpoint ρ)) : Timeline ρ :=
  ⟨k, .empty, history, none⟩

variable [JsonRecord ρ] [Host] (sha256 : Text → Text)

/-- The tables of a snapshot that exist. -/
def restoreFromMemory (k : DatabaseKernel ρ) (ambient : Ambient ρ) (inMemory : MemorySnapshot ρ) :
    DatabaseKernel ρ :=
  inMemory.entries.foldl
    (fun k e =>
      match k.tables.get? e.1 with
      | some _ => k.onTable sha256 ambient.clock e.1 fun table => table.restoreSnapshot e.2
      | none => k)
    k

/-- The tables of a history file, created where they do not exist. -/
def restoreFromHistory (k : DatabaseKernel ρ) (ambient : Ambient ρ) (data : BaseCheckpoint ρ) :
    DatabaseKernel ρ :=
  data.entries.foldl
    (fun k e => k.onTable sha256 ambient.clock e.1 (loadTable (ambient.uuid e.1) e.2)) k

/-- `appendFrame("ROLLBACK", "system", checkpointId, { source }, true)`. -/
def logRollback (k : DatabaseKernel ρ) (ambient : Ambient ρ) (checkpointId source : Text) :
    DatabaseKernel ρ :=
  { k with
    log := k.log.appendFrame sha256
      ⟨.rollback, text "system", checkpointId, some (ambient.sourced source)⟩
      (ambient.clock k.log.wal.nextFrameId) true }

def rollback (t : Timeline ρ) (ambient : Ambient ρ) (checkpointId : Text) : Bool × Timeline ρ :=
  match t.memorySnapshots.get? checkpointId with
  | some inMemory =>
    (true, { t with
      kernel := logRollback sha256 (restoreFromMemory sha256 t.kernel ambient inMemory) ambient
        checkpointId (text "memory_cache") })
  | none =>
    match t.history.get? checkpointId with
    | some data =>
      (true, { t with
        kernel := logRollback sha256 (restoreFromHistory sha256 t.kernel ambient data) ambient
          checkpointId (text "disk_snapshot") })
    | none => (false, t)

/-- What a step of `checkpoint` does beside what it does to the kernel: the snapshot is gathered,
and once its history file is written it is kept in memory. -/
def keep (t : Timeline ρ) (drawn : Text) : CheckpointEvent ρ → Timeline ρ
  | .snapshot =>
    match t.kernel.checkpoint with
    | some .flushing =>
      { t with gathered := some ⟨drawn, t.kernel.allTableData, t.kernel.memorySnapshot⟩ }
    | _ => t
  | .archived =>
    match t.kernel.checkpoint, t.gathered with
    | some (.archiving _), some gathered =>
      { t with
        history := t.history.set gathered.checkpointId gathered.data
        memorySnapshots := t.memorySnapshots.set gathered.checkpointId gathered.memorySnapshot
        gathered := none }
    | _, _ => t
  | _ => t

def step (t : Timeline ρ) : TimelineEvent ρ → Timeline ρ
  | .kernel event drawn =>
    { t.keep drawn event with kernel := t.kernel.checkpointStep sha256 event }
  | .rollback checkpointId ambient =>
    match t.kernel.checkpoint with
    -- the call waits for the mutex of the kernel
    | some _ => t
    | none => (t.rollback sha256 ambient checkpointId).2
  | .restart file ambient =>
    match DatabaseKernel.start sha256 ambient.clock ambient.uuid ⟨t.kernel.base, file⟩ with
    | .ok kernel => .new kernel t.history
    -- no kernel comes up
    | .error _ => t

end Timeline

open Overwrite Run

/-! ## What a checkpoint file keeps of the keys

The files of a checkpoint have the records of a table without the keys they were stored
under; whoever reads them takes the `id` field of a record for its key, or draws one.
So a table comes back as it was exactly if its records, as the file has them, are the
records that the table has under their own ids, each of them once (`KeepsKeys`).

For the converse the records are counted: a file has as many records as the table, so
that no key is missed only if no two records come back under one key.
-/

variable [JsonRecord ρ]

/-- A record of a table as `getAll` shows it and JSON keeps it. -/
def shown (table : DbTable ρ) (record : ρ) : ρ :=
  JsonRecord.reparse (cloneRecordWithComputed table.computedColumns record)

/-- Every record of the table, as it is shown, is stored under its own id, and no two records
have the same. -/
def KeepsKeys (table : DbTable ρ) : Prop :=
  (∀ id record, table.records.get? id = some record → ∃ own,
      ownId? (shown table record) = some own ∧
        table.records.get? own = some (shown table record)) ∧
    ∀ id record id' record', table.records.get? id = some record →
      table.records.get? id' = some record' →
      ownId? (shown table record) = ownId? (shown table record') → id = id'

/-! ### One table -/

section

variable {table : DbTable ρ}

theorem reparse_getAll :
    table.getAll.map JsonRecord.reparse
      = table.records.entries.map fun e => shown table e.2 := by
  rw [DbTable.getAll, InsertionMap.values, map_map, map_map]
  rfl

omit [JsonRecord ρ] in
/-- The entries a file is read as. -/
theorem mem_underIds (uuid : ℕ → Text) {records : List ρ} {record : ρ}
    (hrecord : record ∈ records) :
    ∃ i, ((ownId? record).getD (uuid i), record) ∈ underIds uuid records := by
  obtain ⟨i, hi, rfl⟩ := mem_iff_getElem.mp hrecord
  refine ⟨i, mem_map.mpr ⟨(records[i], i), ?_, rfl⟩⟩
  rw [mem_zipIdx_iff_getElem?]
  exact getElem?_eq_getElem hi

omit [JsonRecord ρ] in
theorem map_fst_underIds (uuid : ℕ → Text) {records : List ρ}
    (hids : ∀ record ∈ records, (ownId? record).isSome) :
    (underIds uuid records).map Prod.fst
      = records.map fun record => (ownId? record).getD [] := by
  unfold underIds
  refine ext_getElem (by simp) fun i h₁ h₂ => ?_
  have hi : i < records.length := by simpa using h₂
  obtain ⟨own, hown⟩ := Option.isSome_iff_exists.mp (hids records[i] (getElem_mem hi))
  simp [hown]

/-- The converse direction: with the draws free, every record has an id of its own. -/
theorem ownId?_isSome_of_loads
    (h : ∀ uuid, (loadedWith uuid (table.getAll.map JsonRecord.reparse)).get?
      = table.records.get?) :
    ∀ record ∈ table.getAll.map JsonRecord.reparse, (ownId? record).isSome := by
  intro record hrecord
  by_contra hnone
  -- an id that no record is stored under
  obtain ⟨drawn, hdrawn⟩ := Infinite.exists_notMem_finset table.records.keys.toFinset
  obtain ⟨i, hi⟩ := mem_underIds (fun _ => drawn) hrecord
  rw [Option.not_isSome_iff_eq_none.mp hnone] at hi
  have hkey : drawn ∈ (loadedWith (fun _ => drawn)
      (table.getAll.map JsonRecord.reparse)).keys :=
    mem_keys_ofList.mpr (mem_map.mpr ⟨_, hi, rfl⟩)
  rw [mem_keys_iff, h, ← mem_keys_iff] at hkey
  exact hdrawn (mem_toFinset.mpr hkey)

/-- **One table.**  It comes back from its file, whatever ids are drawn, exactly if it keeps its
keys. -/
theorem loads_iff_keepsKeys :
    (∀ uuid, (loadedWith uuid (table.getAll.map JsonRecord.reparse)).get?
        = table.records.get?) ↔ KeepsKeys table := by
  have hlen (uuid : ℕ → Text) :
      (underIds uuid (table.getAll.map JsonRecord.reparse)).length = table.records.size := by
    rw [underIds, length_map, length_zipIdx, reparse_getAll, length_map,
      InsertionMap.size]
  have hkeys (hids : ∀ record ∈ table.getAll.map JsonRecord.reparse, (ownId? record).isSome)
      (uuid : ℕ → Text) :
      (underIds uuid (table.getAll.map JsonRecord.reparse)).map Prod.fst
        = table.records.entries.map fun e => (ownId? (shown table e.2)).getD [] := by
    rw [map_fst_underIds uuid hids, reparse_getAll, map_map]
    rfl
  constructor
  · intro h
    have hids := ownId?_isSome_of_loads h
    obtain ⟨hnodup, hentries⟩ :=
      (get?_ofList_eq_iff (hlen fun _ => [])).mp (h fun _ => [])
    have hshown : ∀ id record, table.records.get? id = some record →
        shown table record ∈ table.getAll.map JsonRecord.reparse := by
      intro id record hrecord
      rw [reparse_getAll]
      exact mem_map.mpr ⟨(id, record), mem_entries_iff.mpr hrecord, rfl⟩
    refine ⟨fun id record hrecord => ?_, fun id record id' record' hrecord hrecord' hown => ?_⟩
    · obtain ⟨own, hown⟩ := Option.isSome_iff_exists.mp (hids _ (hshown id record hrecord))
      obtain ⟨i, hi⟩ := mem_underIds (fun _ => []) (hshown id record hrecord)
      have hstored := hentries _ hi
      rw [hown] at hstored
      exact ⟨own, hown, hstored⟩
    · rw [hkeys hids] at hnodup
      have heq := inj_on_of_nodup_map hnodup (mem_entries_iff.mpr hrecord)
        (mem_entries_iff.mpr hrecord')
        (show (ownId? (shown table record)).getD [] = (ownId? (shown table record')).getD [] by
          rw [hown])
      exact congrArg Prod.fst heq
  · rintro ⟨hstored, hdistinct⟩ uuid
    have hids : ∀ record ∈ table.getAll.map JsonRecord.reparse, (ownId? record).isSome := by
      intro record hrecord
      rw [reparse_getAll] at hrecord
      obtain ⟨e, he, rfl⟩ := mem_map.mp hrecord
      obtain ⟨own, hown, -⟩ := hstored e.1 e.2 (mem_entries_iff.mp he)
      rw [hown]
      rfl
    refine (get?_ofList_eq_iff (hlen uuid)).mpr ⟨?_, fun e he => ?_⟩
    · rw [hkeys hids]
      refine List.Nodup.map_on (fun e he e' he' hown => ?_) table.records.nodup.of_map
      have hget := mem_entries_iff.mp he
      have hget' := mem_entries_iff.mp he'
      obtain ⟨own, heq, -⟩ := hstored e.1 e.2 hget
      obtain ⟨own', heq', -⟩ := hstored e'.1 e'.2 hget'
      rw [heq, heq', Option.getD_some, Option.getD_some] at hown
      have hfst := hdistinct e.1 e.2 e'.1 e'.2 hget hget' (by rw [heq, heq', hown])
      rw [hfst, hget'] at hget
      exact Prod.ext hfst (Option.some.inj hget).symm
    · obtain ⟨⟨record, i⟩, hi, rfl⟩ := mem_map.mp he
      have hrecord : record ∈ table.getAll.map JsonRecord.reparse :=
        mem_of_getElem? (mem_zipIdx_iff_getElem?.mp hi)
      rw [reparse_getAll] at hrecord
      obtain ⟨e, he', rfl⟩ := mem_map.mp hrecord
      obtain ⟨own, hown, hget⟩ := hstored e.1 e.2 (mem_entries_iff.mp he')
      show table.records.get? ((ownId? (shown table e.2)).getD (uuid i)) = some _
      rw [hown]
      exact hget

end

/-! ### A fresh kernel -/

section

variable [Host] {sha256 : Text → Text}

/-- What is loaded from a base checkpoint. -/
def loadedContents (uuid : Text → ℕ → Text) (base : Option (BaseCheckpoint ρ))
    (key : Text × Text) : Option ρ :=
  (base.bind (·.get? key.1)).bind fun records => (loadedWith (uuid key.1) records).get? key.2

omit [JsonRecord ρ] in
/-- Loading tables does not look at the base file. -/
theorem loadEntries_base (clock : ℕ → ℕ) (uuid : Text → ℕ → Text)
    (entries : List (Text × List ρ)) (k : DatabaseKernel ρ) (base : Option (BaseCheckpoint ρ)) :
    entries.foldl (fun k e => k.onTable sha256 clock e.1 (loadTable (uuid e.1) e.2))
        { k with base }
      = { entries.foldl
          (fun k e => k.onTable sha256 clock e.1 (loadTable (uuid e.1) e.2)) k with base } := by
  induction entries generalizing k with
  | nil => rfl
  | cons e rest ih => exact ih (k.onTable sha256 clock e.1 (loadTable (uuid e.1) e.2))

/-- What a start recovers, also from records without ids. -/
theorem start_contents (clock : ℕ → ℕ) (uuid : Text → ℕ → Text) {dir : Directory ρ}
    (hread : Readable sha256 dir.file) :
    ∃ k, DatabaseKernel.start sha256 clock uuid dir = .ok k ∧
      k.contents = overwrite (loadedContents uuid dir.base) (writesOf dir.file) := by
  obtain ⟨base, file⟩ := dir
  have hload : ∃ frames, Appends (DatabaseKernel.new ⟨base, file⟩).log
      ((DatabaseKernel.new ⟨base, file⟩).loadBaseCheckpoint sha256 clock uuid).log frames ∧
      (∀ f ∈ frames, Intact sha256 f) ∧ writesOf (LogState.linesOf frames) = [] ∧
      ((DatabaseKernel.new ⟨base, file⟩).loadBaseCheckpoint sha256 clock uuid).contents
        = loadedContents uuid base := by
    cases base with
    | none => exact ⟨[], ⟨rfl, rfl, rfl, rfl⟩, fun _ hf => (by cases hf), rfl, rfl⟩
    | some data =>
      have hnew : WellFormed sha256 (DatabaseKernel.new ⟨none, file⟩ : DatabaseKernel ρ) :=
        wellFormed_new fun _ hdata => (by cases hdata)
      obtain ⟨hwf, ⟨frames, happends, hwrites⟩, -⟩ :=
        loadEntries_spec sha256 clock uuid data.entries hnew
      have hlog := congrArg DatabaseKernel.log (@loadEntries_base _ _ _ sha256 clock uuid
        data.entries (DatabaseKernel.new ⟨none, file⟩) (some data))
      refine ⟨frames, ?_, fun f hf => hwf.intact f ?_, hwrites, funext fun key => ?_⟩
      · rw [← hlog] at happends
        exact happends
      · rw [happends.writeBuffer]
        exact mem_append_right _ (mem_append_right _ hf)
      · refine (contents_loadEntries sha256 clock uuid data.nodup _ key).trans ?_
        show ((data.get? key.1).map _).getD none = (data.get? key.1).bind _
        cases data.get? key.1 <;> rfl
  obtain ⟨frames, happends, hintact, hwrites, hcontents⟩ := hload
  have hlines := lines_of_appends_new happends
  unfold DatabaseKernel.start
  dsimp only
  generalize (DatabaseKernel.new ⟨base, file⟩).loadBaseCheckpoint sha256 clock uuid = loaded at *
  have hreadable : Readable sha256 (LogState.lines loaded.log) := by
    rw [hlines]
    exact readable_append_linesOf hread hintact
  obtain ⟨wal, hreplay⟩ := hreadable { loaded.log.wal with writeBuffer := [] }
  rw [hreplay]
  refine ⟨_, rfl, ?_⟩
  rw [contents_replay]
  show overwrite loaded.contents (writesOf (LogState.lines loaded.log)) = _
  rw [hcontents, hlines, writesOf_append, hwrites, append_nil]

/-- A directory whose log tells no write. -/
theorem startsWith_iff_loaded {dir : Directory ρ} (hread : Readable sha256 dir.file)
    (hwrites : writesOf dir.file = []) (contents : Text × Text → Option ρ) :
    StartsWith sha256 dir contents ↔ ∀ uuid, loadedContents uuid dir.base = contents := by
  constructor
  · intro h uuid
    obtain ⟨k, hstart, hcontents⟩ := h (fun _ => 0) uuid
    obtain ⟨k', hstart', hcontents'⟩ := start_contents (fun _ => 0) uuid hread
    rw [hstart'] at hstart
    rw [← Except.ok.inj hstart, hcontents', hwrites] at hcontents
    exact hcontents
  · intro h clock uuid
    obtain ⟨k, hstart, hcontents⟩ := start_contents clock uuid hread
    exact ⟨k, hstart, by rw [hcontents, hwrites, overwrite_nil, h]⟩

end

/-- The tables of a kernel that come back from the base file. -/
theorem loadedContents_allTableData_iff {k : DatabaseKernel ρ} :
    (∀ uuid, loadedContents uuid (some k.allTableData) = k.contents) ↔
      ∀ name table, k.tables.get? name = some table →
        if name = text "__proto__" then table.records = .empty else KeepsKeys table := by
  have hloaded (uuid : Text → ℕ → Text) (name id : Text) :
      loadedContents uuid (some k.allTableData) (name, id)
        = ((k.tables.get? name).bind fun table => if name = text "__proto__" then none
            else some (table.getAll.map JsonRecord.reparse)).bind
          fun records => (loadedWith (uuid name) records).get? id :=
    congrArg (Option.bind · _) (get?_filterMap _ _ _)
  constructor
  · intro h name table htable
    have hname (uuid : Text → ℕ → Text) (id : Text) :=
      (hloaded uuid name id).symm.trans (congrFun (h uuid) (name, id))
    simp only [htable, Option.bind_some, DatabaseKernel.contents, getTable_of_get? htable]
      at hname
    split_ifs with hproto
    · refine get?_eq_get?_empty_iff.mp (funext fun id => ?_)
      rw [← hname (fun _ _ => []) id, if_pos hproto]
      rfl
    · refine loads_iff_keepsKeys.mp fun uuid => funext fun id => ?_
      rw [← hname (fun _ => uuid) id, if_neg hproto]
      rfl
  · intro h uuid
    funext ⟨name, id⟩
    rw [hloaded, DatabaseKernel.contents]
    cases htable : k.tables.get? name with
    | none =>
      rw [DatabaseKernel.getTable, htable]
      rfl
    | some table =>
      have hkeeps := h name table htable
      rw [getTable_of_get? htable, Option.bind_some]
      split_ifs at hkeeps ⊢
      · rw [hkeeps]
        rfl
      · exact congrFun (loads_iff_keepsKeys.mpr hkeeps (uuid name)) id

end Lumi.Kernel
