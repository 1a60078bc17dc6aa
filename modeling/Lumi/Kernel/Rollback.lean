import Lumi.Kernel.Timeline

/-!
# What rollback restores

A snapshot in memory has the tables that existed when it was taken, and rollback restores
those.  So it restores the whole world exactly if the tables made since are empty; from the
history file it also needs every table to keep its keys (`RestoresWorld`).

What a run keeps of a checkpoint is said by `Remembers`: wherever its id is found, there is
the snapshot, and as long as it is in memory its tables exist.
-/

namespace Lumi.Kernel

open Js Lumi.Db Lumi.Wal Overwrite Run List InsertionMap Option

variable {ρ : Type*} [Record ρ]

omit [Record ρ] in
theorem contents_eq (k : DatabaseKernel ρ) (key : Text × Text) :
    k.contents key = (k.tables.get? key.1).bind (·.records.get? key.2) := by
  rw [DatabaseKernel.contents, DatabaseKernel.getTable]
  cases k.tables.get? key.1 <;> rfl

omit [Record ρ] in
theorem get?_memorySnapshot (k : DatabaseKernel ρ) (name : Text) :
    k.memorySnapshot.get? name = (k.tables.get? name).map DbTable.records := by
  rw [DatabaseKernel.memorySnapshot, get?_map]
  exact congrArg (Option.map · _) (funext fun table => ofList_entries table.records)

theorem isSome_tables_onTable {sha256 : Text → Text} (k : DatabaseKernel ρ) (clock : ℕ → ℕ)
    (name : Text) (method : DbTable ρ → DbTable ρ) (name' : Text) :
    ((k.onTable sha256 clock name method).tables.get? name').isSome
      = (decide (name' = name) || (k.tables.get? name').isSome) := by
  show ((k.tables.set name _).get? name').isSome = _
  rw [get?_set]
  by_cases h : name' = name
  · rw [if_pos h, decide_eq_true h]
    rfl
  · rw [if_neg h, decide_eq_false h]
    rfl

/-! ## Tables once made are there -/

/-- No table is lost on the way from one kernel to another. -/
def Outlives (k₀ k : DatabaseKernel ρ) : Prop :=
  ∀ name, (k₀.tables.get? name).isSome → (k.tables.get? name).isSome

omit [Record ρ] in
theorem Outlives.trans {k₀ k k' : DatabaseKernel ρ} (h : Outlives k₀ k) (h' : Outlives k k') :
    Outlives k₀ k' := fun name hname => h' name (h name hname)

theorem outlives_onTable {sha256 : Text → Text} (k : DatabaseKernel ρ) (clock : ℕ → ℕ) (name : Text)
    (method : DbTable ρ → DbTable ρ) : Outlives k (k.onTable sha256 clock name method) := by
  intro name' hname
  rw [isSome_tables_onTable, hname, Bool.or_true]

section

variable [JsonRecord ρ] [Host] {sha256 : Text → Text}

omit [JsonRecord ρ] in
/-- The tables of the snapshot that exist get its records, and no other changes. -/
theorem contents_restoreFromMemory (k : DatabaseKernel ρ) (ambient : Ambient ρ)
    (inMemory : MemorySnapshot ρ) (key : Text × Text) :
    (Timeline.restoreFromMemory sha256 k ambient inMemory).contents key
      = if (k.tables.get? key.1).isSome then
          ((inMemory.get? key.1).map (·.get? key.2)).getD (k.contents key)
        else k.contents key := by
  obtain ⟨entries, hnodup⟩ := inMemory
  unfold Timeline.restoreFromMemory
  induction entries generalizing k with
  | nil => exact (ite_self _).symm
  | cons e rest ih =>
    have hcons := hnodup
    rw [map_cons, nodup_cons] at hcons
    have hrest := fun k => ih k hcons.2
    rw [foldl_cons, hrest, get?_cons hnodup]
    cases htable : k.tables.get? e.1 with
    | none =>
      by_cases hkey : key.1 = e.1
      · rw [hkey, htable]
        rfl
      · rw [if_neg hkey]
    | some table =>
      dsimp only
      rw [isSome_tables_onTable, contents_onTable]
      by_cases hkey : key.1 = e.1
      · have hnone : (InsertionMap.mk rest hcons.2).get? key.1 = none := by
          rw [get?_eq_none_iff, hkey]
          exact hcons.1
        rw [hnone, if_pos hkey, if_pos hkey, hkey, htable, decide_eq_true rfl,
          DbTable.records_restoreSnapshot]
        rfl
      · rw [if_neg hkey, if_neg hkey, decide_eq_false hkey, Bool.false_or]

omit [JsonRecord ρ] in
theorem contents_restoreFromHistory (k : DatabaseKernel ρ) (ambient : Ambient ρ)
    (data : BaseCheckpoint ρ) (key : Text × Text) :
    (Timeline.restoreFromHistory sha256 k ambient data).contents key
      = ((data.get? key.1).map
          fun records => (loadedWith (ambient.uuid key.1) records).get? key.2).getD
          (k.contents key) :=
  contents_loadEntries sha256 ambient.clock ambient.uuid data.nodup k key

omit [Record ρ] [JsonRecord ρ] [Host] in
theorem outlives_foldl {α : Type*} (restore : DatabaseKernel ρ → α → DatabaseKernel ρ)
    (h : ∀ k e, Outlives k (restore k e)) (entries : List α) (k : DatabaseKernel ρ) :
    Outlives k (entries.foldl restore k) := by
  induction entries generalizing k with
  | nil => exact fun _ hname => hname
  | cons e rest ih => exact (h k e).trans (ih _)

omit [JsonRecord ρ] in
theorem outlives_rollback (t : Timeline ρ) (ambient : Ambient ρ) (checkpointId : Text) :
    Outlives t.kernel (t.rollback sha256 ambient checkpointId).2.kernel := by
  unfold Timeline.rollback
  split
  · refine outlives_foldl _ (fun k e => ?_) _ _
    split
    · exact outlives_onTable k _ _ _
    · exact fun _ hname => hname
  · split
    · exact outlives_foldl _ (fun k e => outlives_onTable k _ _ _) _ _
    · exact fun _ hname => hname

theorem outlives_checkpointStep (k : DatabaseKernel ρ) (e : CheckpointEvent ρ) :
    Outlives k (k.checkpointStep sha256 e) := by
  cases e with
  | kernel event =>
    cases event with
    | call table call clock => exact outlives_onTable k clock table _
    | addComputedColumn table column computeFn =>
      intro name hname
      show ((k.tables.set table _).get? name).isSome
      rw [get?_set]
      split_ifs
      · rfl
      · exact hname
    | flush | start | written => exact fun _ hname => hname
  | checkpoint | snapshot | tmpWritten | baseRenamed | archived | renamed | rotated | failed =>
    dsimp only [DatabaseKernel.checkpointStep]
    split <;> exact fun _ hname => hname
  | logged checkpointId payload now =>
    dsimp only [DatabaseKernel.checkpointStep]
    split <;> exact fun _ hname => hname

end

/-! ## What a run keeps of a checkpoint -/

section

variable [JsonRecord ρ]

/-- The id is found, if at all, with what the checkpoint took from its kernel. -/
structure Remembers (taken : Option (DatabaseKernel ρ)) (checkpointId : Text) (t : Timeline ρ) :
    Prop where
  gathered : ∀ g, t.gathered = some g → g.checkpointId = checkpointId → ∃ k₀ ∈ taken,
    g.data = k₀.allTableData ∧ g.memorySnapshot = k₀.memorySnapshot ∧ Outlives k₀ t.kernel
  history : ∀ data, t.history.get? checkpointId = some data → ∃ k₀ ∈ taken,
    data = k₀.allTableData
  memory : ∀ inMemory, t.memorySnapshots.get? checkpointId = some inMemory → ∃ k₀ ∈ taken,
    inMemory = k₀.memorySnapshot ∧ Outlives k₀ t.kernel

/-- The event draws the id for a checkpoint. -/
def Draws (checkpointId : Text) : TimelineEvent ρ → Prop
  | .kernel .snapshot drawn => drawn = checkpointId
  | _ => False

variable {taken : Option (DatabaseKernel ρ)} {c : Text} {t : Timeline ρ}

theorem Remembers.kernel (h : Remembers taken c t) {k : DatabaseKernel ρ}
    (houtlives : Outlives t.kernel k) : Remembers taken c { t with kernel := k } := by
  refine ⟨fun g hg hid => ?_, h.history, fun inMemory hmemory => ?_⟩
  · obtain ⟨k₀, hk₀, hdata, hsnapshot, hold⟩ := h.gathered g hg hid
    exact ⟨k₀, hk₀, hdata, hsnapshot, hold.trans houtlives⟩
  · obtain ⟨k₀, hk₀, hsnapshot, hold⟩ := h.memory inMemory hmemory
    exact ⟨k₀, hk₀, hsnapshot, hold.trans houtlives⟩

/-- A snapshot is gathered under another id, or as the one that is remembered. -/
theorem Remembers.gather (h : Remembers taken c t) {g : Gathered ρ}
    (hg : g.checkpointId = c → ∃ k₀ ∈ taken,
      g.data = k₀.allTableData ∧ g.memorySnapshot = k₀.memorySnapshot ∧ Outlives k₀ t.kernel) :
    Remembers taken c { t with gathered := some g } := by
  refine ⟨fun g' hg' hid => ?_, h.history, h.memory⟩
  obtain rfl := Option.some.inj hg'
  exact hg hid

theorem Remembers.keep (h : Remembers taken c t) {drawn : Text} {e : CheckpointEvent ρ}
    (he : ¬ Draws c (.kernel e drawn)) : Remembers taken c (t.keep drawn e) := by
  unfold Timeline.keep
  split
  · split
    · exact h.gather fun hid => absurd hid he
    · exact h
  · split
    · next gathered _ hgathered =>
      refine ⟨fun g hg _ => (by cases hg), fun data hdata => ?_, fun inMemory hmemory => ?_⟩
      · change (t.history.set _ _).get? c = some data at hdata
        rw [get?_set] at hdata
        split_ifs at hdata with hid
        · obtain ⟨k₀, hk₀, hkept, -⟩ := h.gathered gathered hgathered hid.symm
          exact ⟨k₀, hk₀, (Option.some.inj hdata).symm.trans hkept⟩
        · exact h.history data hdata
      · change (t.memorySnapshots.set _ _).get? c = some inMemory at hmemory
        rw [get?_set] at hmemory
        split_ifs at hmemory with hid
        · obtain ⟨k₀, hk₀, -, hkept, hold⟩ := h.gathered gathered hgathered hid.symm
          exact ⟨k₀, hk₀, (Option.some.inj hmemory).symm.trans hkept, hold⟩
        · exact h.memory inMemory hmemory
    · exact h
  · exact h

variable [Host] {sha256 : Text → Text}

omit [Host] in
theorem kernel_keep (t : Timeline ρ) (drawn : Text) (e : CheckpointEvent ρ) :
    (t.keep drawn e).kernel = t.kernel := by
  unfold Timeline.keep
  split <;> first | rfl | (split <;> rfl)

omit [JsonRecord ρ] in
theorem rollback_frame (t : Timeline ρ) (ambient : Ambient ρ) (checkpointId : Text) :
    (t.rollback sha256 ambient checkpointId).2
      = { t with kernel := (t.rollback sha256 ambient checkpointId).2.kernel } := by
  unfold Timeline.rollback
  split
  · rfl
  · split <;> rfl

theorem Remembers.step (h : Remembers taken c t) {e : TimelineEvent ρ} (he : ¬ Draws c e) :
    Remembers taken c (t.step sha256 e) := by
  cases e with
  | kernel event drawn =>
    refine (h.keep he).kernel ?_
    rw [kernel_keep]
    exact outlives_checkpointStep t.kernel event
  | rollback checkpointId ambient =>
    dsimp only [Timeline.step]
    split
    · exact h
    · rw [rollback_frame]
      exact h.kernel (outlives_rollback t ambient checkpointId)
  | restart file ambient =>
    dsimp only [Timeline.step]
    split
    · exact ⟨fun g hg => (by cases hg), h.history, fun _ hmemory => (by cases hmemory)⟩
    · exact h

theorem Remembers.run (h : Remembers taken c t) {events : List (TimelineEvent ρ)}
    (hevents : ∀ e ∈ events, ¬ Draws c e) :
    Remembers taken c (run (Timeline.step sha256) t events) :=
  run_preserves (fun _ _ h he => h.step he) h
    (guarded_of_forall_mem fun e he _ => hevents e he)

/-- The snapshot of a checkpoint whose id is not known yet. -/
theorem Remembers.snapshot (h : Remembers none c t) :
    Remembers (some t.kernel) c (t.step sha256 (.kernel .snapshot c)) := by
  have hmono : Remembers (some t.kernel) c t := by
    refine ⟨fun g hg hid => ?_, fun data hdata => ?_, fun inMemory hmemory => ?_⟩
    · obtain ⟨_, hnone, _⟩ := h.gathered g hg hid
      cases hnone
    · obtain ⟨_, hnone, _⟩ := h.history data hdata
      cases hnone
    · obtain ⟨_, hnone, _⟩ := h.memory inMemory hmemory
      cases hnone
  refine Remembers.kernel (t := t.keep c .snapshot) ?_ ?_
  · dsimp only [Timeline.keep]
    split
    · exact hmono.gather fun _ => ⟨t.kernel, rfl, rfl, rfl, fun _ hname => hname⟩
    · exact hmono
  · rw [kernel_keep]
    exact outlives_checkpointStep t.kernel .snapshot

/-! ## Both ways of restoring -/

omit [Host] in
theorem get?_allTableData (k : DatabaseKernel ρ) (name : Text) :
    k.allTableData.get? name = (k.tables.get? name).bind fun table =>
      if name = text "__proto__" then none else some (table.getAll.map JsonRecord.reparse) :=
  get?_filterMap _ _ _

omit [JsonRecord ρ] in
/-- From memory, the tables of the snapshot are restored. -/
theorem contents_rollback_memory {k₀ : DatabaseKernel ρ} (ambient : Ambient ρ)
    (hmemory : t.memorySnapshots.get? c = some k₀.memorySnapshot)
    (hold : Outlives k₀ t.kernel) (key : Text × Text) :
    (t.rollback sha256 ambient c).2.kernel.contents key
      = if (k₀.tables.get? key.1).isSome then k₀.contents key else t.kernel.contents key := by
  have hrestore := @contents_restoreFromMemory _ _ _ sha256 t.kernel ambient
    k₀.memorySnapshot key
  rw [get?_memorySnapshot] at hrestore
  rw [Timeline.rollback, hmemory]
  refine hrestore.trans ?_
  rw [contents_eq k₀]
  cases htable : k₀.tables.get? key.1 with
  | none => exact ite_self _
  | some table =>
    rw [if_pos (hold key.1 (by rw [htable]; rfl))]
    rfl

/-- From the history file, they are restored as the file has them. -/
theorem contents_rollback_history {k₀ : DatabaseKernel ρ} (ambient : Ambient ρ)
    (hmemory : t.memorySnapshots.get? c = none)
    (hhistory : t.history.get? c = some k₀.allTableData) (key : Text × Text) :
    (t.rollback sha256 ambient c).2.kernel.contents key
      = if (k₀.allTableData.get? key.1).isSome then
          loadedContents ambient.uuid (some k₀.allTableData) key
        else t.kernel.contents key := by
  rw [Timeline.rollback, hmemory, hhistory]
  refine (@contents_restoreFromHistory _ _ _ sha256 t.kernel ambient _ key).trans ?_
  rw [loadedContents, bind_some]
  cases k₀.allTableData.get? key.1 <;> rfl

/-- What makes rollback restore every table: the tables made since the snapshot are empty; and
from the history file, those that it has keep their keys. -/
def RestoresWorld (k₀ : DatabaseKernel ρ) (t : Timeline ρ) (checkpointId : Text) : Prop :=
  match t.memorySnapshots.get? checkpointId with
  | some _ => ∀ name, k₀.tables.get? name = none → (t.kernel.getTable name).records = .empty
  | none =>
    (∀ name table, k₀.tables.get? name = some table → name ≠ text "__proto__" →
      KeepsKeys table) ∧
    ∀ name, k₀.tables.get? name = none ∨ name = text "__proto__" →
      (t.kernel.getTable name).records.get? = (k₀.getTable name).records.get?

variable [Inhabited ρ]

instance : Inhabited (Ambient ρ) := ⟨⟨fun _ => 0, fun _ _ => [], fun _ => default⟩⟩

omit [JsonRecord ρ] in
theorem restores_memory_iff {k₀ : DatabaseKernel ρ}
    (hmemory : t.memorySnapshots.get? c = some k₀.memorySnapshot) (hold : Outlives k₀ t.kernel) :
    (∀ ambient, (t.rollback sha256 ambient c).2.kernel.contents = k₀.contents) ↔
      ∀ name, k₀.tables.get? name = none → (t.kernel.getTable name).records = .empty := by
  constructor
  · intro h name hname
    refine get?_eq_get?_empty_iff.mp (funext fun id => ?_)
    have hkey := congrFun (h default) (name, id)
    rw [contents_rollback_memory default hmemory hold, hname, if_neg (by simp),
      contents_eq k₀, hname] at hkey
    exact hkey
  · intro h ambient
    funext key
    rw [contents_rollback_memory ambient hmemory hold]
    split_ifs with hexists
    · rfl
    · have hnone := not_isSome_iff_eq_none.mp hexists
      rw [contents_eq k₀, hnone, DatabaseKernel.contents, h key.1 hnone]
      rfl

theorem restores_history_iff {k₀ : DatabaseKernel ρ} (hmemory : t.memorySnapshots.get? c = none)
    (hhistory : t.history.get? c = some k₀.allTableData) :
    (∀ ambient, (t.rollback sha256 ambient c).2.kernel.contents = k₀.contents) ↔
      (∀ name table, k₀.tables.get? name = some table → name ≠ text "__proto__" →
        KeepsKeys table) ∧
      ∀ name, k₀.tables.get? name = none ∨ name = text "__proto__" →
        (t.kernel.getTable name).records.get? = (k₀.getTable name).records.get? := by
  have hfile {name : Text} {table : DbTable ρ} (htable : k₀.tables.get? name = some table)
      (hproto : name ≠ text "__proto__") :
      k₀.allTableData.get? name = some (table.getAll.map JsonRecord.reparse) := by
    rw [get?_allTableData, htable, bind_some, if_neg hproto]
  have hloaded {name : Text} {table : DbTable ρ} (htable : k₀.tables.get? name = some table)
      (hproto : name ≠ text "__proto__") (uuid : Text → ℕ → Text) (id : Text) :
      loadedContents uuid (some k₀.allTableData) (name, id)
        = (loadedWith (uuid name) (table.getAll.map JsonRecord.reparse)).get? id := by
    rw [loadedContents, bind_some, hfile htable hproto]
    rfl
  have hnone {name : Text} (hname : k₀.tables.get? name = none ∨ name = text "__proto__") :
      k₀.allTableData.get? name = none := by
    rw [get?_allTableData]
    rcases hname with hname | hname
    · rw [hname]
      rfl
    · simp only [if_pos hname, bind_fun_none]
  constructor
  · intro h
    refine ⟨fun name table htable hproto => loads_iff_keepsKeys.mp fun uuid => ?_,
      fun name hname => funext fun id => ?_⟩
    · funext id
      have hkey := congrFun (h ⟨fun _ => 0, fun _ => uuid, fun _ => default⟩) (name, id)
      rw [contents_rollback_history _ hmemory hhistory, hfile htable hproto,
        if_pos isSome_some, hloaded htable hproto, contents_eq k₀, htable] at hkey
      exact hkey
    · have hkey := congrFun (h default) (name, id)
      rw [contents_rollback_history _ hmemory hhistory, hnone hname, if_neg (by simp)] at hkey
      exact hkey
  · rintro ⟨hkeeps, hothers⟩ ambient
    funext ⟨name, id⟩
    rw [contents_rollback_history _ hmemory hhistory]
    by_cases hname : k₀.tables.get? name = none ∨ name = text "__proto__"
    · rw [hnone hname, if_neg (by simp)]
      exact congrFun (hothers name hname) id
    · obtain ⟨hexists, hproto⟩ := not_or.mp hname
      obtain ⟨table, htable⟩ := ne_none_iff_exists'.mp hexists
      rw [hfile htable hproto, if_pos isSome_some, hloaded htable hproto, contents_eq k₀,
        htable]
      exact congrFun (loads_iff_keepsKeys.mpr (hkeeps name table htable hproto) _) id

omit [JsonRecord ρ] [Inhabited ρ] in
theorem rollback_fst (ambient : Ambient ρ) (h : (t.history.get? c).isSome) :
    (t.rollback sha256 ambient c).1 = true := by
  obtain ⟨data, hdata⟩ := isSome_iff_exists.mp h
  unfold Timeline.rollback
  rw [hdata]
  split <;> rfl

/-- **Rollback.**  Take any run of a kernel in which a checkpoint draws an id of its own and its
history file is written, with whatever calls, rollbacks and restarts go on before and after.
Whatever the kernel reads from its clock and draws, rollback to the checkpoint returns true
and leaves every table as it was at the snapshot, exactly if it restores the whole world. -/
theorem rollback_restores_world_iff {k : DatabaseKernel ρ}
    {history : InsertionMap Text (BaseCheckpoint ρ)} (hnew : history.get? c = none)
    {before after : List (TimelineEvent ρ)} (hbefore : ∀ e ∈ before, ¬ Draws c e)
    (hafter : ∀ e ∈ after, ¬ Draws c e) {t t' : Timeline ρ}
    (ht : t = run (Timeline.step sha256) (.new k history) before)
    (ht' : t' = run (Timeline.step sha256) (t.step sha256 (.kernel .snapshot c)) after)
    (htaken : (t'.history.get? c).isSome) :
    (∀ ambient, (t'.rollback sha256 ambient c).1 = true ∧
        (t'.rollback sha256 ambient c).2.kernel.contents = t.kernel.contents) ↔
      RestoresWorld t.kernel t' c := by
  have hinit : Remembers none c (Timeline.new k history) := by
    refine ⟨fun g hg => (by cases hg), fun data hdata => ?_, fun _ hmemory => (by cases hmemory)⟩
    rw [Timeline.new, hnew] at hdata
    cases hdata
  have hremembers : Remembers (some t.kernel) c t' := by
    rw [ht']
    refine Remembers.run (Remembers.snapshot ?_) hafter
    rw [ht]
    exact hinit.run hbefore
  have hreturns (ambient : Ambient ρ) := @rollback_fst _ _ _ _ _ sha256 ambient htaken
  simp only [hreturns, true_and]
  unfold RestoresWorld
  cases hmemory : t'.memorySnapshots.get? c with
  | some inMemory =>
    obtain ⟨k₀, hk₀, rfl, hold⟩ := hremembers.memory inMemory hmemory
    obtain rfl := Option.some.inj hk₀
    exact restores_memory_iff hmemory hold
  | none =>
    obtain ⟨data, hdata⟩ := isSome_iff_exists.mp htaken
    obtain ⟨k₀, hk₀, rfl⟩ := hremembers.history data hdata
    obtain rfl := Option.some.inj hk₀
    exact restores_history_iff hmemory hdata

/-! ## The files of a checkpoint -/

/-- The same world in a kernel that has not taken the checkpoint itself. -/
def Timeline.forget (t : Timeline ρ) (checkpointId : Text) : Timeline ρ :=
  { t with memorySnapshots := t.memorySnapshots.delete checkpointId }

/-- A checkpoint from its call to its end, with nothing else going on. -/
def quietCheckpoint (checkpointId : Text) (payload : ρ) (now : ℕ) : List (TimelineEvent ρ) :=
  [CheckpointEvent.checkpoint, .kernel .start, .kernel .written, .snapshot, .tmpWritten,
    .baseRenamed, .archived, .kernel .start, .renamed, .rotated,
    .logged checkpointId payload now].map (.kernel · checkpointId)

/-- What is there after a checkpoint: the tables as they were, their data in both files and in
memory, and a log of nothing but the frame of the checkpoint. -/
structure Taken (sha256 : Text → Text) (t t' : Timeline ρ) (checkpointId : Text) : Prop where
  tables : t'.kernel.tables = t.kernel.tables
  base : t'.kernel.base = some t.kernel.allTableData
  history : t'.history.get? checkpointId = some t.kernel.allTableData
  memory : t'.memorySnapshots.get? checkpointId = some t.kernel.memorySnapshot
  gathered : t'.gathered = none
  lines : ∃ frame : WalFrame ρ, LogState.lines t'.kernel.log = LogState.linesOf [frame] ∧
    Intact sha256 frame ∧ frame.op = .checkpoint

variable (sha256) in
omit [Inhabited ρ] in
theorem taken_quietCheckpoint {t : Timeline ρ} (hcheckpoint : t.kernel.checkpoint = none)
    (hheld : t.kernel.log.held = none) (hwaiting : t.kernel.log.waiting = []) (c : Text)
    (payload : ρ) (now : ℕ) :
    Taken sha256 t (run (Timeline.step sha256) t (quietCheckpoint c payload now)) c := by
  obtain ⟨⟨tables, ⟨⟨writeBuffer, nextFrameId, hash, total⟩, file, held, waiting, appended⟩, base,
    checkpoint⟩, memorySnapshots, history, gathered⟩ := t
  subst hcheckpoint hheld hwaiting
  let kernel (file : List (Line ρ)) (held : Option (Section ρ)) (base : Option (BaseCheckpoint ρ))
      (checkpoint : Option (Checkpoint ρ)) (appended : List (WalFrame ρ)) : DatabaseKernel ρ :=
    ⟨tables, ⟨⟨[], nextFrameId, hash, total⟩, file, held, [], appended⟩, base, checkpoint⟩
  have hflushed : ∃ file', run (Timeline.step sha256)
      ⟨⟨tables, ⟨⟨writeBuffer, nextFrameId, hash, total⟩, file, none, [], appended⟩, base, none⟩,
        memorySnapshots, history, gathered⟩
      ([CheckpointEvent.checkpoint, .kernel .start, .kernel .written].map (.kernel · c))
      = ⟨kernel file' none base (some .flushing) appended, memorySnapshots, history, gathered⟩ := by
    cases writeBuffer with
    | nil => exact ⟨file, rfl⟩
    | cons frame rest => exact ⟨file ++ LogState.linesOf (frame :: rest), rfl⟩
  obtain ⟨file', hflushed⟩ := hflushed
  let start := kernel file' none base (some .flushing) appended
  let logged := (LogState.lines start.log).length
  have hsnapshot : run (Timeline.step sha256) ⟨start, memorySnapshots, history, gathered⟩
      ([CheckpointEvent.snapshot, .tmpWritten, .baseRenamed].map (.kernel · c))
      = ⟨kernel file' none (some start.allTableData) (some (.archiving logged)) appended,
          memorySnapshots, history, some ⟨c, start.allTableData, start.memorySnapshot⟩⟩ := rfl
  have harchived : run (Timeline.step sha256)
      ⟨kernel file' none (some start.allTableData) (some (.archiving logged)) appended,
        memorySnapshots, history, some ⟨c, start.allTableData, start.memorySnapshot⟩⟩
      ([CheckpointEvent.archived, .kernel .start, .renamed].map (.kernel · c))
      = ⟨kernel [] (some (.rotating true)) (some start.allTableData) (some .rotating) [],
          memorySnapshots.set c start.memorySnapshot, history.set c start.allTableData, none⟩ :=
    rfl
  have hsplit : quietCheckpoint c payload now
      = [CheckpointEvent.checkpoint, .kernel .start, .kernel .written].map (.kernel · c)
        ++ ([CheckpointEvent.snapshot, .tmpWritten, .baseRenamed].map (.kernel · c)
        ++ ([CheckpointEvent.archived, .kernel .start, .renamed].map (.kernel · c)
        ++ [CheckpointEvent.rotated, .logged c payload now].map (.kernel · c))) := rfl
  rw [hsplit, run_append, hflushed, run_append, hsnapshot, run_append, harchived]
  exact ⟨rfl, rfl, get?_set_self _ _ _, get?_set_self _ _ _, rfl, _, rfl,
    intact_appendFrame _ _ _, rfl⟩

omit [JsonRecord ρ] [Host] [Inhabited ρ] in
theorem isSome_history_keep [JsonRecord ρ] (drawn : Text) (e : CheckpointEvent ρ)
    (h : (t.history.get? c).isSome) : ((t.keep drawn e).history.get? c).isSome := by
  unfold Timeline.keep
  split
  · split <;> exact h
  · split
    · show ((t.history.set _ _).get? c).isSome
      rw [get?_set]
      split_ifs
      · rfl
      · exact h
    · exact h
  · exact h

omit [Inhabited ρ] in
/-- History files stay. -/
theorem isSome_history_step (h : (t.history.get? c).isSome) (e : TimelineEvent ρ) :
    ((t.step sha256 e).history.get? c).isSome := by
  cases e with
  | kernel event drawn => exact isSome_history_keep drawn event h
  | rollback checkpointId ambient =>
    dsimp only [Timeline.step]
    split
    · exact h
    · rw [rollback_frame]
      exact h
  | restart file ambient =>
    dsimp only [Timeline.step]
    split <;> exact h

namespace Taken

variable {t' : Timeline ρ}

omit [Host] [Inhabited ρ] in
theorem outlives (h : Taken sha256 t t' c) : Outlives t.kernel t'.kernel := by
  rw [Outlives, h.tables]
  exact fun _ hname => hname

omit [Inhabited ρ] in
/-- The log has nothing that a start would replay. -/
theorem startsWith_iff (h : Taken sha256 t t' c) (contents : Text × Text → Option ρ) :
    StartsWith sha256 t'.kernel.flushedDirectory contents ↔
      ∀ uuid, loadedContents uuid (some t.kernel.allTableData) = contents := by
  obtain ⟨frame, hlines, hintact, hop⟩ := h.lines
  have hignored : frameWrite? frame.serialize = none := by
    unfold frameWrite? WalFrame.serialize
    rw [hop]
    split_ifs <;> rfl
  have hread : Readable sha256 (LogState.linesOf [frame]) := by
    have hempty : Readable sha256 ([] : List (Line ρ)) := fun wal => ⟨wal, rfl⟩
    rw [← nil_append (LogState.linesOf [frame])]
    refine readable_append_linesOf hempty fun f hf => ?_
    rw [mem_singleton.mp hf]
    exact hintact
  have hwrites : writesOf (LogState.linesOf [frame]) = [] := by
    rw [writesOf, framesOf_linesOf, map_singleton, filterMap_cons, hignored]
    rfl
  rw [DatabaseKernel.flushedDirectory, hlines, h.base]
  exact startsWith_iff_loaded hread hwrites contents

omit [Inhabited ρ] in
/-- What a later moment has of the checkpoint, as long as it is in memory. -/
theorem later (h : Taken sha256 t t' c) {rest : List (TimelineEvent ρ)}
    (hrest : ∀ e ∈ rest, ¬ Draws c e) {later : Timeline ρ}
    (hlater : later = run (Timeline.step sha256) t' rest)
    (hpresent : later.memorySnapshots.get? c ≠ none) :
    later.history.get? c = some t.kernel.allTableData ∧
      later.memorySnapshots.get? c = some t.kernel.memorySnapshot ∧
        Outlives t.kernel later.kernel := by
  have hinit : Remembers (some t.kernel) c t' := by
    refine ⟨fun g hg => ?_, fun data hdata => ?_, fun inMemory hinMemory => ?_⟩
    · rw [h.gathered] at hg
      cases hg
    · rw [h.history] at hdata
      exact ⟨t.kernel, rfl, (Option.some.inj hdata).symm⟩
    · rw [h.memory] at hinMemory
      exact ⟨t.kernel, rfl, (Option.some.inj hinMemory).symm, h.outlives⟩
  have hremembers := @Remembers.run _ _ _ _ _ _ _ sha256 hinit _ hrest
  rw [← hlater] at hremembers
  have hkept : (later.history.get? c).isSome := by
    have hfile : (t'.history.get? c).isSome := by rw [h.history, isSome_some]
    rw [hlater]
    exact run_invariant (P := fun t : Timeline ρ => (t.history.get? c).isSome)
      (fun _ e h => isSome_history_step h e) hfile rest
  obtain ⟨data, hdata⟩ := isSome_iff_exists.mp hkept
  obtain ⟨k₀, hk₀, rfl⟩ := hremembers.history data hdata
  obtain rfl := Option.some.inj hk₀
  obtain ⟨inMemory, hinMemory⟩ := ne_none_iff_exists'.mp hpresent
  obtain ⟨k₁, hk₁, rfl, hold⟩ := hremembers.memory inMemory hinMemory
  obtain rfl := Option.some.inj hk₁
  exact ⟨hdata, hinMemory, hold⟩

/-- The history file does not have the table `__proto__`: a record put into it after the
checkpoint survives the one rollback only. -/
theorem no_proto_table (h : Taken sha256 t t' c)
    (hagree : ∀ rest, (∀ e ∈ rest, ¬ Draws c e) → ∀ later,
      later = run (Timeline.step sha256) t' rest → later.memorySnapshots.get? c ≠ none →
      ∀ ambient ambient', ((later.forget c).rollback sha256 ambient c).2.kernel.contents
        = (later.rollback sha256 ambient' c).2.kernel.contents)
    {table : DbTable ρ} (htable : t.kernel.tables.get? (text "__proto__") = some table) :
    table.records ≠ .empty := by
  intro hempty
  let put : TimelineEvent ρ :=
    .kernel (.kernel (.call (text "__proto__") (.put [] default none) fun _ => 0)) []
  let later := t'.step sha256 put
  have hput : later.kernel.contents (text "__proto__", []) = some default := by
    refine (contents_onTable t'.kernel _ _ _ _).trans ?_
    rw [if_pos rfl]
    exact get?_set_self _ _ _
  have hmemory : later.memorySnapshots.get? c = some t.kernel.memorySnapshot := h.memory
  have hdraws : ∀ e ∈ [put], ¬ Draws c e := by
    intro e he
    rw [mem_singleton.mp he]
    exact id
  have hboth := congrFun (hagree [put] hdraws later rfl (by rw [hmemory]; simp) default default)
    (text "__proto__", [])
  rw [contents_rollback_history (t := later.forget c) default (get?_delete_self _ _)
      h.history, get?_allTableData, htable, bind_some, if_pos rfl, if_neg (by simp),
    contents_rollback_memory default hmemory
      (h.outlives.trans (outlives_checkpointStep t'.kernel _)), htable,
    if_pos isSome_some, contents_eq t.kernel, htable, bind_some, hempty] at hboth
  exact absurd (hput.symm.trans hboth) (some_ne_none _)

end Taken

/-- **Checkpoint files.**  Take a checkpoint of whatever tables, with nothing else going on.  A
fresh kernel on its directory holds just what the tables hold, and after any further run in
which the snapshot is still in memory, rollback from the history file gives what rollback from
memory gives, exactly if every table keeps its keys and none has the name `__proto__`. -/
theorem checkpoint_files_keep_keys_iff {t t' : Timeline ρ}
    (hcheckpoint : t.kernel.checkpoint = none) (hheld : t.kernel.log.held = none)
    (hwaiting : t.kernel.log.waiting = []) {payload : ρ} {now : ℕ}
    (ht' : t' = run (Timeline.step sha256) t (quietCheckpoint c payload now)) :
    (StartsWith sha256 t'.kernel.flushedDirectory t.kernel.contents ∧
      ∀ rest, (∀ e ∈ rest, ¬ Draws c e) → ∀ later,
        later = run (Timeline.step sha256) t' rest → later.memorySnapshots.get? c ≠ none →
        ∀ ambient ambient', ((later.forget c).rollback sha256 ambient c).2.kernel.contents
          = (later.rollback sha256 ambient' c).2.kernel.contents) ↔
      ∀ name table, t.kernel.tables.get? name = some table →
        name ≠ text "__proto__" ∧ KeepsKeys table := by
  have htaken := taken_quietCheckpoint sha256 hcheckpoint hheld hwaiting c payload now
  rw [← ht'] at htaken
  rw [htaken.startsWith_iff, loadedContents_allTableData_iff]
  constructor
  · rintro ⟨hkeeps, hagree⟩ name table htable
    have hkept := hkeeps name table htable
    by_cases hproto : name = text "__proto__"
    · rw [if_pos hproto] at hkept
      subst hproto
      exact absurd hkept (htaken.no_proto_table hagree htable)
    · rw [if_neg hproto] at hkept
      exact ⟨hproto, hkept⟩
  · intro hkeeps
    have hloads : ∀ name table, t.kernel.tables.get? name = some table →
        if name = text "__proto__" then table.records = .empty else KeepsKeys table := by
      intro name table htable
      rw [if_neg (hkeeps name table htable).1]
      exact (hkeeps name table htable).2
    refine ⟨hloads, fun rest hrest later hlater hpresent ambient ambient' => funext fun key => ?_⟩
    obtain ⟨hhistory, hmemory, hold⟩ := htaken.later hrest hlater hpresent
    rw [contents_rollback_history (t := later.forget c) ambient
        (get?_delete_self _ _) hhistory,
      contents_rollback_memory ambient' hmemory hold, get?_allTableData]
    cases htable : t.kernel.tables.get? key.1 with
    | none => rfl
    | some table =>
      rw [bind_some, if_neg (hkeeps key.1 table htable).1, if_pos isSome_some,
        if_pos isSome_some, loadedContents_allTableData_iff.mpr hloads]

end

/-! ## A record under another key, and a table made after the checkpoint -/

section

open scoped Js.Ascii

/-- A kernel in which a task with the id `t1` was put under a key. -/
def withTask (key : Text) : Timeline PlainRecord :=
  .new (freshKernel.step id (.call (text "tasks") (.put key task none) fun _ => 0)) .empty

def quietly (key : Text) : Timeline PlainRecord :=
  run (Timeline.step id) (withTask key) (quietCheckpoint (text "chk_1") task 0)

theorem taken_quietly (key : Text) : Taken id (withTask key) (quietly key) (text "chk_1") :=
  taken_quietCheckpoint id rfl rfl rfl _ task 0

/-- A task that was put under a key other than its id does not come back. -/
theorem foreign_key_is_lost :
    (withTask (text "first")).kernel.contents (text "tasks", text "first") = some task ∧
      ¬ StartsWith id (quietly (text "first")).kernel.flushedDirectory
        (withTask (text "first")).kernel.contents := by
  refine ⟨by decide, fun h => ?_⟩
  have hloaded := ((taken_quietly _).startsWith_iff _).mp h fun _ _ => []
  have hkey := congrFun hloaded (text "tasks", text "first")
  revert hkey
  decide

theorem keepsKeys_task {name : Text} {table : DbTable PlainRecord}
    (h : (withTask (text "t1")).kernel.tables.get? name = some table) :
    name ≠ text "__proto__" ∧ KeepsKeys table := by
  have htables : (withTask (text "t1")).kernel.tables = InsertionMap.empty.set (text "tasks")
      ((withTask (text "t1")).kernel.getTable (text "tasks")) := rfl
  rw [htables, get?_set] at h
  split_ifs at h with hname
  · obtain rfl := Option.some.inj h
    have honly : ∀ id record,
        ((withTask (text "t1")).kernel.getTable (text "tasks")).records.get? id = some record →
          id = text "t1" ∧ record = task := by
      intro id record hrecord
      change (InsertionMap.empty.set (text "t1") task).get? id = some record at hrecord
      rw [get?_set] at hrecord
      split_ifs at hrecord with hid
      · exact ⟨hid, (Option.some.inj hrecord).symm⟩
      · cases hrecord
    refine ⟨by rw [hname]; decide, fun id record hrecord => ?_,
      fun id record id' record' hrecord hrecord' _ => ?_⟩
    · obtain ⟨rfl, rfl⟩ := honly id record hrecord
      exact ⟨text "t1", by decide⟩
    · rw [(honly id record hrecord).1, (honly id' record' hrecord').1]
  · cases h

/-- A task under its own id comes back both ways. -/
theorem own_key_is_kept :
    StartsWith id (quietly (text "t1")).kernel.flushedDirectory
        (withTask (text "t1")).kernel.contents ∧
      ∀ ambient ambient', (((quietly (text "t1")).forget (text "chk_1")).rollback id ambient
          (text "chk_1")).2.kernel.contents
        = ((quietly (text "t1")).rollback id ambient' (text "chk_1")).2.kernel.contents := by
  have h := (@checkpoint_files_keep_keys_iff _ _ _ (text "chk_1") _ id _ (withTask (text "t1"))
    (quietly (text "t1")) rfl rfl rfl _ _ rfl).mpr
    fun _ _ htable => keepsKeys_task htable
  refine ⟨h.1, h.2 [] (fun _ he => (by cases he)) _ rfl ?_⟩
  rw [(taken_quietly _).memory]
  exact some_ne_none _

/-- A checkpoint from its snapshot to its history file, and what is done after it. -/
def archivedThen (after : List (TimelineEvent PlainRecord)) : List (TimelineEvent PlainRecord) :=
  [CheckpointEvent.tmpWritten, .baseRenamed, .archived].map (.kernel · []) ++ after

def flushing (before : List (TimelineEvent PlainRecord)) : Timeline PlainRecord :=
  run (Timeline.step id) (.new freshKernel .empty) (before ++ [.kernel .checkpoint []])

def archived (before after : List (TimelineEvent PlainRecord)) : Timeline PlainRecord :=
  run (Timeline.step id) ((flushing before).step id (.kernel .snapshot (text "chk_1")))
    (archivedThen after)

/-- A table made after the checkpoint keeps its records. -/
theorem new_table_survives_rollback :
    (flushing []).kernel.contents (text "tasks", text "t1") = none ∧
      ((archived [] [.kernel putTask []]).history.get? (text "chk_1")).isSome ∧
      ((archived [] [.kernel putTask []]).rollback id default (text "chk_1")).2.kernel.contents
        (text "tasks", text "t1") = some task := by
  decide

def deleteTask : TimelineEvent PlainRecord :=
  .kernel (.kernel (.call (text "tasks") (.delete (text "t1")) fun _ => 0)) []

/-- Deleting from a table that was there is undone. -/
theorem deletion_is_rolled_back :
    ((archived [.kernel putTask []] [deleteTask]).rollback id default (text "chk_1")).1 = true ∧
      ((archived [.kernel putTask []] [deleteTask]).rollback id default
        (text "chk_1")).2.kernel.contents = (flushing [.kernel putTask []]).kernel.contents := by
  have hkeys : (archived [.kernel putTask []] [deleteTask]).kernel.tables.keys
      = (flushing [.kernel putTask []]).kernel.tables.keys := by decide
  have hmemory : ((archived [.kernel putTask []] [deleteTask]).memorySnapshots.get?
      (text "chk_1")).isSome := by decide
  have hhistory : ((archived [.kernel putTask []] [deleteTask]).history.get?
      (text "chk_1")).isSome := by decide
  have hrestores : RestoresWorld (flushing [.kernel putTask []]).kernel
      (archived [.kernel putTask []] [deleteTask]) (text "chk_1") := by
    obtain ⟨inMemory, hinMemory⟩ := isSome_iff_exists.mp hmemory
    unfold RestoresWorld
    rw [hinMemory]
    intro name hname
    rw [get?_eq_none_iff, ← hkeys, ← get?_eq_none_iff] at hname
    rw [DatabaseKernel.getTable, hname]
    rfl
  have hbefore : ∀ e ∈ [TimelineEvent.kernel putTask []] ++ [.kernel .checkpoint []],
      ¬ Draws (text "chk_1") e :=
    forall_mem_cons.mpr ⟨id, forall_mem_cons.mpr ⟨id, forall_mem_nil _⟩⟩
  have hafter : ∀ e ∈ archivedThen [deleteTask], ¬ Draws (text "chk_1") e :=
    forall_mem_cons.mpr ⟨id, forall_mem_cons.mpr ⟨id, forall_mem_cons.mpr
      ⟨id, forall_mem_cons.mpr ⟨id, forall_mem_nil _⟩⟩⟩⟩
  exact (rollback_restores_world_iff rfl hbefore hafter rfl rfl hhistory).mpr hrestores default

end

end Lumi.Kernel
