import Lumi.Db.Query

/-!
# Aborted transactions

When the callback of a transaction throws, the table is cleared and the snapshot
is put back record by record.  What the callback did to records and indices is
thereby gone: `transaction_error` shows that the table is then the one that
`restoreSnapshot` of its own records would give, whatever the callback did.

That table has its records back.  But `clear` also emptied the active branch,
cancelled every timer and told the log and the subscribers that the table is
empty, and the indices list the records in the order of the table and not in the
order in which they were posted.  `AbortSafe` collects when none of this shows.
-/

namespace Lumi.Db

open Js InsertionMap List

variable {ρ : Type*}

/-- The records after the change a logged frame reports. -/
def WalCall.reported (frame : WalCall ρ) (records : InsertionMap Text ρ) : InsertionMap Text ρ :=
  match frame.op, frame.payload with
  | .insert, some record => records.set frame.recordId record
  | .update, some record => records.set frame.recordId record
  | .delete, _ => records.delete frame.recordId
  | .clear, _ => .empty
  | _, _ => records

/-- The records after the change an event reports. -/
def TableChangeEvent.reported (event : TableChangeEvent ρ) (records : InsertionMap Text ρ) :
    InsertionMap Text ρ :=
  match event.operation, event.after with
  | .insert, some record => records.set event.recordId record
  | .update, some record => records.set event.recordId record
  | .delete, _ => records.delete event.recordId
  | .expire, _ => records.delete event.recordId
  | .clear, _ => .empty
  | _, _ => records

/-- Indices that list the records in their order, and nothing else. -/
def Indices.rebuild [Host] (ix : Indices) (records : InsertionMap Text ρ)
    (resolve : ρ → Text → Value) : Indices :=
  records.entries.foldl (fun ix e => ix.addToIndices e.1 (resolve e.2)) ix.clear

namespace DbTable

/-- The ids whose TTL timer is still to run. -/
def pendingTimers (t : DbTable ρ) : List Text :=
  (t.ttlTimers.entries.filter fun e => e.2 = .pending).map Prod.fst

variable [Record ρ] [Host]

/-- `t'` is the table `t` was, and nobody has been told otherwise. -/
structure Untouched (t t' : DbTable ρ) : Prop where
  records : t'.records = t.records
  queries : ∀ options, t'.query options = t.query options
  activeRecords : t'.branching.getActiveRecords = t.branching.getActiveRecords
  undoStack : t'.branching.undoStack = t.branching.undoStack
  redoStack : t'.branching.redoStack = t.branching.redoStack
  timers : t'.pendingTimers = t.pendingTimers
  frames : ∃ emitted, t'.frames = t.frames ++ emitted ∧
    ∀ frame ∈ emitted, frame.reported t.records = t.records
  notifications : ∃ emitted, t'.notifications = t.notifications ++ emitted ∧
    ∀ call ∈ emitted, call.2.reported t.records = t.records

/-- The table with its indices rebuilt. -/
def reindexed (t : DbTable ρ) : DbTable ρ :=
  { t with indices := t.indices.rebuild t.records t.resolve }

/-- What a table must look like for an abort to leave no trace. -/
structure AbortSafe (t : DbTable ρ) : Prop where
  activeRecords : t.branching.getActiveRecords = .empty
  timers : t.pendingTimers = []
  silent : t.records = .empty ∨ t.hasWalHook = false ∧ t.subscriptions.entries = []
  queries : ∀ options, t.reindexed.query options = t.query options

end DbTable

/-! ## What the callback leaves behind -/

namespace Indices

variable [Host]

theorem clear_addToIndices (ix : Indices) (id : Text) (resolve : Text → Value) :
    (ix.addToIndices id resolve).clear = ix.clear := by
  simp [clear, addToIndices, InsertionMap.map, Function.comp_def]

theorem clear_removeFromIndices (ix : Indices) (id : Text) (resolve : Text → Value) :
    (ix.removeFromIndices id resolve).clear = ix.clear := by
  simp [clear, removeFromIndices, InsertionMap.map, Function.comp_def]

end Indices

namespace DbTable

variable [Record ρ] [Host]

/-- Clearing forgets an operation of a transaction callback. -/
theorem clear_applyTxOp (t : DbTable ρ) (op : TxOp ρ) : (t.applyTxOp op).clear = t.clear := by
  cases op with
  | put id record =>
    have hindices : (t.putInternal id record).indices.clear = t.indices.clear := by
      unfold putInternal
      cases t.records.get? id with
      | none => exact Indices.clear_addToIndices _ _ _
      | some existing =>
        exact (Indices.clear_addToIndices _ _ _).trans (Indices.clear_removeFromIndices _ _ _)
    simp only [applyTxOp, clear, hindices]
    rfl
  | delete id =>
    have hindices : (t.deleteInternal id).2.indices.clear = t.indices.clear := by
      unfold deleteInternal
      cases t.records.get? id with
      | none => rfl
      | some existing => exact Indices.clear_removeFromIndices _ _ _
    simp only [applyTxOp, clear, hindices]
    rw [deleteInternal_frame]

/-- An abort puts the table's own records back, whatever the callback did. -/
theorem transaction_error {ε α : Type*} (t : DbTable ρ) (ops : List (TxOp ρ)) (err : ε) :
    t.transaction ops (.error err : Except ε α) = (.error err, t.restoreSnapshot t.records) := by
  have hclear : (ops.foldl applyTxOp t).clear = t.clear := by
    induction ops generalizing t with
    | nil => rfl
    | cons op rest ih => rw [foldl_cons, ih, clear_applyTxOp]
  unfold transaction restoreSnapshot createSnapshot
  simp only [hclear]
  rw [t.records.ofList_entries]

/-! ## The table that is restored -/

/-- Records with new ids are only added to the indices. -/
theorem indices_putAll_of_empty (t : DbTable ρ) (m : InsertionMap Text ρ) (h : t.records = .empty) :
    (t.putAll m).indices =
      m.entries.foldl (fun ix e => ix.addToIndices e.1 (t.resolve e.2)) t.indices := by
  have hgen : ∀ (l : List (Text × ρ)) (t : DbTable ρ), (l.map Prod.fst).Nodup →
      (∀ e ∈ l, t.records.get? e.1 = none) →
      (l.foldl (fun t e => t.putInternal e.1 e.2) t).indices =
        l.foldl (fun ix e => ix.addToIndices e.1 (t.resolve e.2)) t.indices := by
    intro l
    induction l with
    | nil => exact fun t _ _ => rfl
    | cons e rest ih =>
      intro t hnodup hnew
      rw [map_cons, nodup_cons] at hnodup
      have hfirst : (t.putInternal e.1 e.2).indices =
          t.indices.addToIndices e.1 (t.resolve e.2) := by
        simp [putInternal, hnew e (mem_cons_self ..)]
      rw [foldl_cons, foldl_cons, ih _ hnodup.2, hfirst]
      · rfl
      · intro e' he'
        have hne : e'.1 ≠ e.1 := fun heq => hnodup.1 (heq ▸ mem_map_of_mem he')
        rw [records_putInternal, get?_set_of_ne _ _ hne]
        exact hnew e' (mem_cons_of_mem _ he')
  exact hgen m.entries t m.nodup (by simp [h])

/-- A query reads the records, the indices and the computed columns. -/
theorem query_congr {t t' : DbTable ρ} (hrecords : t'.records = t.records)
    (hindices : t'.indices = t.indices) (hcolumns : t'.computedColumns = t.computedColumns)
    (options : DbQueryOptions) : t'.query options = t.query options := by
  cases t
  cases t'
  cases hrecords
  cases hindices
  cases hcolumns
  rfl

section

variable (t : DbTable ρ)

section

variable (snapshot : InsertionMap Text ρ)

theorem records_restoreSnapshot : (t.restoreSnapshot snapshot).records = snapshot :=
  records_putAll_of_empty _ _ rfl

theorem branching_restoreSnapshot :
    (t.restoreSnapshot snapshot).branching = t.branching.setActiveRecords .empty :=
  branching_putAll _ _

theorem query_restoreSnapshot (options : DbQueryOptions) :
    (t.restoreSnapshot t.records).query options = t.reindexed.query options := by
  apply query_congr
  · exact records_restoreSnapshot t t.records
  · rw [restoreSnapshot, indices_putAll_of_empty _ _ rfl]
    rfl
  · rw [restoreSnapshot, putAll_frame]
    rfl

theorem pendingTimers_restoreSnapshot : (t.restoreSnapshot snapshot).pendingTimers = [] := by
  rw [restoreSnapshot, putAll_frame]
  rfl

/-- The frames a restored table has logged. -/
theorem frames_restoreSnapshot :
    (t.restoreSnapshot snapshot).frames =
      t.frames ++ if t.hasWalHook then [⟨.clear, t.name, text "*", none⟩] else [] := by
  rw [restoreSnapshot, putAll_frame]
  show (if t.hasWalHook then t.frames ++ _ else t.frames) = _
  cases t.hasWalHook <;> simp [emitChangeEvent]

/-- Every subscriber is told of the clearing: there is no record to filter by. -/
theorem notifications_restoreSnapshot :
    (t.restoreSnapshot snapshot).notifications = t.notifications ++
      t.subscriptions.entries.map fun e =>
        (e.1, ⟨.clear, t.name, text "*", none, none, none⟩) := by
  rw [restoreSnapshot, putAll_frame]
  show t.notifications ++ List.filterMap _ _ = _
  congr 1
  rw [← filterMap_eq_map]
  congr 1
  funext e
  have haccepts : e.2.accepts none none = true := by
    unfold Subscription.accepts
    cases e.2.filter <;> rfl
  simp [haccepts]

end

end

/-- The clearing contradicts the records unless there are none. -/
theorem frames_reported_iff (t : DbTable ρ) :
    (∃ emitted, (t.restoreSnapshot t.records).frames = t.frames ++ emitted ∧
      ∀ frame ∈ emitted, frame.reported t.records = t.records) ↔
      t.records = .empty ∨ t.hasWalHook = false := by
  rw [frames_restoreSnapshot]
  simp only [append_cancel_left_eq, exists_eq_left']
  cases t.hasWalHook <;> simp [WalCall.reported, eq_comm]

theorem notifications_reported_iff (t : DbTable ρ) :
    (∃ emitted, (t.restoreSnapshot t.records).notifications = t.notifications ++ emitted ∧
      ∀ call ∈ emitted, call.2.reported t.records = t.records) ↔
      t.records = .empty ∨ t.subscriptions.entries = [] := by
  rw [notifications_restoreSnapshot]
  simp only [append_cancel_left_eq, exists_eq_left']
  cases t.subscriptions.entries with
  | nil => simp
  | cons e rest =>
    rw [forall_mem_map]
    constructor
    · exact fun h => .inl (h e (mem_cons_self ..)).symm
    · rintro (h | h)
      · exact fun _ _ => h.symm
      · exact absurd h (cons_ne_nil e rest)

end DbTable

section

open scoped Js.Ascii

end

end Lumi.Db
