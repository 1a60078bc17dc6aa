import Lumi.Db.Table

/-!
# The table and its active branch

A table holds its records twice: in its own map, which every read consults, and
in the map of the branch that is checked out, which forks and merges start from.
`Coherent` says that the two are one map, in the same order.

`put`, `delete`, `clear`, the expiry of a record and a checkout write to both
maps.  A transaction, `undo`, `redo`, `restoreSnapshot` and a merge that fails on
a conflict write to one of them only.  `Keeps` says, call by call, when that makes
no difference: `coherent_call_iff` shows that it is exactly what one call needs,
and the rule for runs turns that into exactly what a run needs.
-/

namespace Lumi.Db

open Js InsertionMap List

variable {ρ : Type*}

/-- The records after one change. -/
def changeRecords (records : InsertionMap Text ρ) : Option (RecordChange ρ) → InsertionMap Text ρ
  | some (.put id record) => records.set id record
  | some (.delete id) => records.delete id
  | none => records

/-- The records after one operation of a transaction callback. -/
def txRecords (records : InsertionMap Text ρ) : TxOp ρ → InsertionMap Text ρ
  | .put id record => records.set id record
  | .delete id => records.delete id

/-- Some record of the source branch differs from the record of the same id in the
active branch. -/
def Conflicting [Record ρ] (source active : InsertionMap Text ρ) : Prop :=
  ∃ id mine theirs, source.get? id = some theirs ∧ active.get? id = some mine ∧
    Record.stringify theirs ≠ Record.stringify mine

namespace DbTable

/-- The records of the table are those of the active branch. -/
def Coherent (t : DbTable ρ) : Prop := t.records = t.branching.getActiveRecords

instance [DecidableEq ρ] (t : DbTable ρ) : Decidable t.Coherent :=
  inferInstanceAs (Decidable (t.records = t.branching.getActiveRecords))

variable [Record ρ] [Host]

/-- The table's records and the records of the active branch change alike. -/
def Keeps (t : DbTable ρ) : TableCall ρ → Prop
  | .transaction ops true => ops.foldl txRecords t.records = t.records
  | .transaction _ false => t.records = .empty
  | .undo =>
    ∀ action ∈ t.branching.undoStack.head?, changeRecords t.records action.undone = t.records
  | .redo =>
    ∀ action ∈ t.branching.redoStack.head?, changeRecords t.records action.redone = t.records
  | .mergeBranch branchName strategy =>
    ∀ source ∈ t.branching.branches.get? (BranchingEngine.cleanName branchName),
      strategy = .failOnConflict → Conflicting source.records t.records →
        ∀ id ∈ source.records.keys, id ∈ t.records.keys
  | .restoreSnapshot snapshot => snapshot = .empty
  | _ => True

/-- Forking a branch and checking it out shows the same records. -/
def ForkKeepsReads (t : DbTable ρ) : Prop :=
  ∀ branchName, (t.forkBranch branchName).1 = true →
    let forked := ((t.forkBranch branchName).2.checkoutBranch branchName).2
    (∀ id, forked.get id = t.get id) ∧ forked.getAll = t.getAll

end DbTable

/-! ## Merging -/

section

variable [Record ρ]

theorem records_mergeRecord_failOnConflict (m : MergeState ρ) (e : Text × ρ) :
    (mergeRecord .failOnConflict m e).records =
      if e.1 ∈ m.records.keys then m.records else m.records.set e.1 e.2 := by
  obtain ⟨id, theirs⟩ := e
  simp only [mergeRecord]
  cases h : m.records.get? id with
  | none => simp [get?_eq_none_iff.mp h]
  | some mine =>
    rw [if_pos (mem_keys_iff.mpr ⟨mine, h⟩)]
    dsimp only
    split <;> rfl

/-- A merge that leaves conflicting records alone changes the target exactly if
the source has an id the target lacks. -/
theorem records_merge_failOnConflict_eq_iff {l : List (Text × ρ)} {m : MergeState ρ} :
    (l.foldl (mergeRecord .failOnConflict) m).records = m.records ↔
      ∀ e ∈ l, e.1 ∈ m.records.keys := by
  have hkeys : ∀ (l : List (Text × ρ)) (m : MergeState ρ) (id : Text),
      id ∈ (l.foldl (mergeRecord .failOnConflict) m).records.keys ↔
        id ∈ m.records.keys ∨ id ∈ l.map Prod.fst := by
    intro l
    induction l with
    | nil => simp
    | cons e rest ih =>
      intro m id
      rw [foldl_cons, ih, records_mergeRecord_failOnConflict]
      by_cases he : e.1 ∈ m.records.keys
      · rw [if_pos he, map_cons, mem_cons]
        constructor
        · exact fun h => h.imp_right Or.inr
        · rintro (h | rfl | h)
          · exact .inl h
          · exact .inl he
          · exact .inr h
      · rw [if_neg he, map_cons, mem_cons]
        have hset : id ∈ (m.records.set e.1 e.2).keys ↔ id = e.1 ∨ id ∈ m.records.keys :=
          mem_keys_setEntries
        rw [hset]
        tauto
  constructor
  · intro h e he
    have := (hkeys l m e.1).mpr (.inr (mem_map_of_mem he))
    rwa [h] at this
  · intro h
    induction l generalizing m with
    | nil => rfl
    | cons e rest ih =>
      have hfirst : (mergeRecord .failOnConflict m e).records = m.records := by
        rw [records_mergeRecord_failOnConflict, if_pos (h e (mem_cons_self ..))]
      rw [foldl_cons, ih, hfirst]
      intro e' he'
      rw [hfirst]
      exact h e' (mem_cons_of_mem _ he')

/-- The conflicts a merge reports are there before it starts. -/
theorem conflicts_merge_failOnConflict {l : List (Text × ρ)} {m : MergeState ρ}
    (hnodup : (l.map Prod.fst).Nodup) :
    (l.foldl (mergeRecord .failOnConflict) m).conflicts ≠ [] ↔
      m.conflicts ≠ [] ∨ ∃ e ∈ l, ∃ mine, m.records.get? e.1 = some mine ∧
        Record.stringify e.2 ≠ Record.stringify mine := by
  induction l generalizing m with
  | nil => simp
  | cons e rest ih =>
    rw [map_cons, nodup_cons] at hnodup
    have hrest : ∀ e' ∈ rest,
        (mergeRecord .failOnConflict m e).records.get? e'.1 = m.records.get? e'.1 := by
      intro e' he'
      have hne : e'.1 ≠ e.1 := fun heq => hnodup.1 (heq ▸ mem_map_of_mem he')
      rw [records_mergeRecord_failOnConflict]
      split
      · rfl
      · exact get?_set_of_ne _ _ hne
    have hfirst : (mergeRecord .failOnConflict m e).conflicts ≠ [] ↔
        m.conflicts ≠ [] ∨ ∃ mine, m.records.get? e.1 = some mine ∧
          Record.stringify e.2 ≠ Record.stringify mine := by
      obtain ⟨id, theirs⟩ := e
      simp only [mergeRecord]
      cases h : m.records.get? id with
      | none => simp
      | some mine =>
        by_cases heq : Record.stringify theirs = Record.stringify mine <;> simp [heq]
    rw [foldl_cons, ih hnodup.2, hfirst]
    simp only [mem_cons, exists_eq_or_imp, or_assoc]
    constructor
    · rintro (h | h | ⟨e', he', h⟩)
      · exact .inl h
      · exact .inr (.inl h)
      · exact .inr (.inr ⟨e', he', by rwa [hrest e' he'] at h⟩)
    · rintro (h | h | ⟨e', he', h⟩)
      · exact .inl h
      · exact .inr (.inl h)
      · exact .inr (.inr ⟨e', he', by rwa [hrest e' he']⟩)

theorem conflicts_merge_iff_conflicting (source active : InsertionMap Text ρ) :
    (source.entries.foldl (mergeRecord .failOnConflict) ⟨active, [], 0⟩).conflicts.length > 0 ↔
      Conflicting source active := by
  rw [gt_iff_lt, length_pos_iff, conflicts_merge_failOnConflict source.nodup]
  constructor
  · rintro (h | ⟨e, he, mine, hmine, hne⟩)
    · exact absurd rfl h
    · exact ⟨e.1, mine, e.2, mem_entries_iff.mp he, hmine, hne⟩
  · rintro ⟨id, mine, theirs, htheirs, hmine, hne⟩
    exact .inr ⟨(id, theirs), mem_entries_iff.mpr htheirs, mine, hmine, hne⟩

end

/-! ## Forking -/

namespace BranchingEngine

variable [Host] {e : BranchingEngine ρ} {branchName : Text}

theorem getActiveRecords_forkBranch (e : BranchingEngine ρ) (branchName : Text) :
    (e.forkBranch branchName).2.getActiveRecords = e.getActiveRecords := by
  unfold forkBranch
  split
  · rfl
  · next hfresh =>
    have hne : e.currentBranchName ≠ cleanName branchName := by
      intro heq
      have := e.headExists
      rw [heq, hfresh] at this
      exact absurd this (by simp)
    simp [getActiveRecords, head, get?_set_of_ne _ _ hne]

/-- A new fork can be checked out, and holds the records it was forked from. -/
theorem checkoutBranch_forkBranch (hfork : (e.forkBranch branchName).1 = true) :
    ((e.forkBranch branchName).2.checkoutBranch branchName).1 = true ∧
      ((e.forkBranch branchName).2.checkoutBranch branchName).2.getActiveRecords =
        e.getActiveRecords := by
  have hnew : (e.forkBranch branchName).2.branches.get? (cleanName branchName) =
      some ⟨cleanName branchName, InsertionMap.ofList e.getActiveRecords.entries⟩ := by
    unfold forkBranch at hfork ⊢
    split at hfork
    · exact absurd hfork (by simp)
    · simp
  have hexists : ((e.forkBranch branchName).2.branches.get? (cleanName branchName)).isSome := by
    rw [hnew]
    rfl
  unfold checkoutBranch
  rw [dif_pos hexists]
  refine ⟨rfl, ?_⟩
  show (((e.forkBranch branchName).2.branches.get? (cleanName branchName)).get hexists).records = _
  simp only [hnew, Option.get_some]
  exact e.getActiveRecords.ofList_entries

end BranchingEngine

/-! ## One call -/

namespace DbTable

variable [Record ρ]

variable [Host] {t : DbTable ρ}

theorem Coherent.put (h : t.Coherent) (id : Text) (record : ρ) (ttlMs : Option Number) :
    (t.put id record ttlMs).2.Coherent := by
  have hrecords : (t.put id record ttlMs).2.records = t.records.set id record := rfl
  have hactive : (t.put id record ttlMs).2.branching.getActiveRecords =
      t.branching.getActiveRecords.set id record := by
    simp [DbTable.put, emitChangeEvent, callWalHook]
  rw [Coherent, hrecords, hactive, h]

theorem Coherent.delete (h : t.Coherent) (id : Text) : (t.delete id).2.Coherent := by
  unfold DbTable.delete
  cases t.records.get? id with
  | none => exact h
  | some existing =>
    simp only [Coherent, callWalHook, emitChangeEvent, records_deleteInternal,
      branching_deleteInternal, BranchingEngine.getActiveRecords_recordAction,
      BranchingEngine.getActiveRecords_setActiveRecords]
    rw [h]

theorem Coherent.expire (h : t.Coherent) (id : Text) : (t.expire id).Coherent := by
  unfold DbTable.expire
  split
  · cases t.records.get? id with
    | none => exact h
    | some expiredRec =>
      simp only [Coherent, callWalHook, emitChangeEvent, records_deleteInternal,
        branching_deleteInternal, BranchingEngine.getActiveRecords_setActiveRecords]
      rw [h]
  · exact h

omit [Host] in
theorem coherent_clear (t : DbTable ρ) : t.clear.Coherent := by
  simp [Coherent, clear, callWalHook, emitChangeEvent]

theorem coherent_loadActiveRecords (t : DbTable ρ) : t.loadActiveRecords.Coherent := by
  rw [Coherent, records_loadActiveRecords, branching_loadActiveRecords]

theorem Coherent.checkoutBranch (h : t.Coherent) (branchName : Text) :
    (t.checkoutBranch branchName).2.Coherent := by
  rw [checkoutBranch_snd]
  by_cases hsuccess : (t.branching.checkoutBranch branchName).1 = true
  · rw [if_pos hsuccess]
    exact coherent_loadActiveRecords _
  · have hsame : (t.branching.checkoutBranch branchName).2 = t.branching := by
      unfold BranchingEngine.checkoutBranch at hsuccess ⊢
      by_cases hexists : (t.branching.branches.get? (BranchingEngine.cleanName branchName)).isSome
      · simp [hexists] at hsuccess
      · rw [dif_neg hexists]
    rw [if_neg hsuccess, Coherent, hsame]
    exact h

/-- The records after a transaction callback. -/
theorem records_foldl_applyTxOp (ops : List (TxOp ρ)) (t : DbTable ρ) :
    (ops.foldl applyTxOp t).records = ops.foldl txRecords t.records := by
  induction ops generalizing t with
  | nil => rfl
  | cons op rest ih =>
    rw [foldl_cons, foldl_cons, ih]
    cases op with
    | put id record => rfl
    | delete id => rw [applyTxOp, records_deleteInternal, txRecords]

theorem branching_foldl_applyTxOp (ops : List (TxOp ρ)) (t : DbTable ρ) :
    (ops.foldl applyTxOp t).branching = t.branching := by
  induction ops generalizing t with
  | nil => rfl
  | cons op rest ih =>
    rw [foldl_cons, ih]
    cases op with
    | put id record => rfl
    | delete id => exact branching_deleteInternal t id

omit [Record ρ] [Host] in
/-- Logging the staged mutations touches neither map. -/
theorem foldl_logTxOp (ops : List (TxOp ρ)) (t : DbTable ρ) :
    (ops.foldl logTxOp t).records = t.records ∧ (ops.foldl logTxOp t).branching = t.branching := by
  induction ops generalizing t with
  | nil => exact ⟨rfl, rfl⟩
  | cons op rest ih =>
    rw [foldl_cons]
    cases op <;> exact ih _

theorem coherent_transaction_iff (h : t.Coherent) (ops : List (TxOp ρ)) (commits : Bool) :
    (t.call (.transaction ops commits)).Coherent ↔ t.Keeps (.transaction ops commits) := by
  cases commits with
  | true =>
    show (ops.foldl logTxOp (ops.foldl applyTxOp t)).Coherent ↔ _
    rw [Coherent, (foldl_logTxOp ops _).1, (foldl_logTxOp ops _).2, records_foldl_applyTxOp,
      branching_foldl_applyTxOp, ← h]
    rfl
  | false =>
    show ((ops.foldl applyTxOp t).restoreSnapshot t.createSnapshot).Coherent ↔ t.records = .empty
    have hsnapshot : t.createSnapshot = t.records := t.records.ofList_entries
    rw [Coherent, restoreSnapshot, records_putAll_of_empty _ _ rfl, branching_putAll, hsnapshot]
    simp [clear, emitChangeEvent, callWalHook]

theorem coherent_restoreSnapshot_iff (t : DbTable ρ) (snapshot : InsertionMap Text ρ) :
    (t.restoreSnapshot snapshot).Coherent ↔ snapshot = .empty := by
  rw [Coherent, restoreSnapshot, records_putAll_of_empty _ _ rfl, branching_putAll]
  simp [clear, emitChangeEvent, callWalHook]

/-- `undo` and `redo` change the records of the table, and only those. -/
theorem coherent_applyChange_iff (h : t.Coherent) {branching : BranchingEngine ρ}
    (hactive : branching.getActiveRecords = t.branching.getActiveRecords)
    (change : Option (RecordChange ρ)) :
    ({ t with branching }.applyChange change).Coherent ↔
      changeRecords t.records change = t.records := by
  rw [Coherent] at h ⊢
  match change with
  | none => simp [applyChange, changeRecords, hactive, h]
  | some (.put id record) => simp [applyChange, changeRecords, hactive, h]
  | some (.delete id) => simp [applyChange, changeRecords, hactive, h]

theorem coherent_undo_iff (h : t.Coherent) : (t.call .undo).Coherent ↔ t.Keeps .undo := by
  show ({ t with branching := t.branching.undo.2.2 }.applyChange t.branching.undo.2.1).Coherent ↔ _
  rw [coherent_applyChange_iff h (BranchingEngine.getActiveRecords_undo _)]
  unfold Keeps BranchingEngine.undo
  cases t.branching.undoStack <;> simp [changeRecords]

theorem coherent_redo_iff (h : t.Coherent) : (t.call .redo).Coherent ↔ t.Keeps .redo := by
  show ({ t with branching := t.branching.redo.2.2 }.applyChange t.branching.redo.2.1).Coherent ↔ _
  rw [coherent_applyChange_iff h (BranchingEngine.getActiveRecords_redo _)]
  unfold Keeps BranchingEngine.redo
  cases t.branching.redoStack <;> simp [changeRecords]

/-- A merge from a branch that exists: it fails on a conflict only if told to, and
the active branch then still takes the new records. -/
theorem mergeBranch_of_source {e : BranchingEngine ρ} {branchName : Text}
    {source : BranchDescriptor ρ}
    (hsource : e.branches.get? (BranchingEngine.cleanName branchName) = some source)
    (strategy : MergeResolutionStrategy) :
    ((e.mergeBranch branchName strategy).1.success = true ↔
      ¬(strategy = .failOnConflict ∧ Conflicting source.records e.getActiveRecords)) ∧
    (e.mergeBranch branchName strategy).2.getActiveRecords =
      (source.records.entries.foldl (mergeRecord strategy)
        ⟨e.getActiveRecords, [], 0⟩).records := by
  unfold BranchingEngine.mergeBranch
  simp only [hsource]
  by_cases hstrategy : strategy = .failOnConflict
  · subst hstrategy
    have hlength := conflicts_merge_iff_conflicting source.records e.getActiveRecords
    by_cases hconflict : Conflicting source.records e.getActiveRecords
    · rw [if_pos ⟨rfl, hlength.mpr hconflict⟩]
      simp [hconflict]
    · rw [if_neg fun h => hconflict (hlength.mp h.2)]
      simp [hconflict]
  · simp [hstrategy]

theorem coherent_mergeBranch_iff_success (h : t.Coherent) (branchName : Text)
    (strategy : MergeResolutionStrategy) :
    (t.mergeBranch branchName strategy).2.Coherent ↔
      (t.branching.mergeBranch branchName strategy).1.success = true ∨
        (t.branching.mergeBranch branchName strategy).2.getActiveRecords =
          t.branching.getActiveRecords := by
  rw [mergeBranch_snd]
  by_cases hsuccess : (t.branching.mergeBranch branchName strategy).1.success = true
  · rw [if_pos hsuccess]
    exact iff_of_true (coherent_loadActiveRecords _) (.inl hsuccess)
  · rw [Coherent] at h
    simp [hsuccess, Coherent, h, eq_comm]

theorem coherent_mergeBranch_iff (h : t.Coherent) (branchName : Text)
    (strategy : MergeResolutionStrategy) :
    (t.call (.mergeBranch branchName strategy)).Coherent ↔
      t.Keeps (.mergeBranch branchName strategy) := by
  show (t.mergeBranch branchName strategy).2.Coherent ↔ _
  rw [coherent_mergeBranch_iff_success h]
  unfold Keeps
  cases hsource : t.branching.branches.get? (BranchingEngine.cleanName branchName) with
  | none => simp [BranchingEngine.mergeBranch, hsource]
  | some source =>
    obtain ⟨hsuccess, hactive⟩ := mergeBranch_of_source hsource strategy
    rw [hsuccess, hactive, h]
    simp only [hsource, Option.mem_def, Option.some.injEq, forall_eq']
    by_cases hstrategy : strategy = .failOnConflict
    · subst hstrategy
      rw [records_merge_failOnConflict_eq_iff (m := ⟨t.branching.getActiveRecords, [], 0⟩)]
      simp only [true_and, forall_const, InsertionMap.keys, forall_mem_map]
      exact Iff.symm imp_iff_not_or
    · simp [hstrategy]

/-- **What one call needs.**  From a coherent table, a call leads to a coherent
table exactly if it keeps the two maps in step. -/
theorem coherent_call_iff (h : t.Coherent) (c : TableCall ρ) : (t.call c).Coherent ↔ t.Keeps c := by
  cases c with
  | put id record ttlMs => exact iff_of_true (h.put id record ttlMs) trivial
  | delete id => exact iff_of_true (h.delete id) trivial
  | clear => exact iff_of_true (coherent_clear t) trivial
  | bulkPut records =>
    refine iff_of_true ?_ trivial
    rw [call, bulkPut_snd]
    exact Run.run_invariant (fun t r (h : t.Coherent) => h.put r.id r.record r.ttlMs) h records
  | bulkDelete ids =>
    refine iff_of_true ?_ trivial
    rw [call, bulkDelete_snd]
    exact Run.run_invariant (fun t id (h : t.Coherent) => h.delete id) h ids
  | expire id => exact iff_of_true (h.expire id) trivial
  | transaction ops commits => exact coherent_transaction_iff h ops commits
  | undo => exact coherent_undo_iff h
  | redo => exact coherent_redo_iff h
  | forkBranch branchName =>
    refine iff_of_true ?_ trivial
    show t.records = (t.branching.forkBranch branchName).2.getActiveRecords
    rw [BranchingEngine.getActiveRecords_forkBranch]
    exact h
  | checkoutBranch branchName => exact iff_of_true (h.checkoutBranch branchName) trivial
  | mergeBranch branchName strategy => exact coherent_mergeBranch_iff h branchName strategy
  | restoreSnapshot snapshot => exact coherent_restoreSnapshot_iff t snapshot
  | createIndex field => exact iff_of_true h trivial
  | createSortedIndex field => exact iff_of_true h trivial
  | createCompositeIndex fields => exact iff_of_true h trivial
  | createPrefixIndex field => exact iff_of_true h trivial
  | subscribe filter => exact iff_of_true h trivial

/-- A fork copies the records of the active branch, and a checkout shows them. -/
theorem Coherent.forkKeepsReads (h : t.Coherent) : t.ForkKeepsReads := by
  intro branchName hfork forked
  obtain ⟨hsuccess, hactive⟩ := BranchingEngine.checkoutBranch_forkBranch hfork
  have hforked : forked = { t with
      branching := ((t.branching.forkBranch branchName).2.checkoutBranch branchName).2
      }.loadActiveRecords := by
    exact (checkoutBranch_snd _ _).trans (if_pos hsuccess)
  have hrecords : forked.records = t.records := by
    rw [hforked, records_loadActiveRecords, hactive, h]
  have hcolumns : forked.computedColumns = t.computedColumns := by
    rw [hforked, computedColumns_loadActiveRecords]
  simp only [get, getAll, hrecords, hcolumns, implies_true, and_self]

end DbTable

/-- **Coherence over runs.**  From a new table, in every state of a run the records
of the table are those of the active branch, and a fork that is checked out shows
the same records, exactly if every call of the run keeps the two maps in step. -/
theorem coherent_iff_keeps [Record ρ] [Host] (name : Text) (hasWalHook : Bool)
    (calls : List (TableCall ρ)) :
    Run.Always DbTable.call (fun t => t.Coherent ∧ t.ForkKeepsReads)
        (DbTable.init name hasWalHook) calls ↔
      Run.Guarded DbTable.call DbTable.Keeps (DbTable.init name hasWalHook) calls := by
  have hinit : (DbTable.init name hasWalHook : DbTable ρ).Coherent := rfl
  have hruns : Run.Always DbTable.call DbTable.Coherent (DbTable.init name hasWalHook) calls ↔
      Run.Guarded DbTable.call DbTable.Keeps (DbTable.init name hasWalHook) calls :=
    Run.always_iff_guarded (fun t c h => DbTable.coherent_call_iff h c) hinit
  rw [← hruns]
  constructor
  · exact Run.Always.mono fun t h => h.1
  · exact Run.Always.mono fun t h => ⟨h, h.forkKeepsReads⟩

section

open scoped Js.Ascii

/-- A committed transaction writes to the table alone, and a branch forked from it
does not have the record. -/
theorem committed_transaction_breaks_coherence :
    ¬Run.Always DbTable.call (fun t => t.Coherent ∧ t.ForkKeepsReads)
      (DbTable.init (text "tasks") true : DbTable PlainRecord)
      [.transaction [.put (text "t1")
        (InsertionMap.empty.set (text "title") (.string (text "Draft")))] true] := by
  intro h
  exact absurd h.2.1 (by decide)

end

end Lumi.Db
