import Lumi.Lib.Overwrite
import Lumi.Db.Coherence
import Lumi.Db.Abort
import Lumi.Kernel.Database

/-!
# What the log tells of a call

Replay reads the insertions, updates and deletions of tables whose name is not empty;
of a clearing and of a merge it takes no notice, and an undo, a redo and a checkout are
not logged at all.  So the frames of a call are a list of writes (`WalCall.write?`), and
they tell what the call did exactly if `Logged` holds: the last write of every id left
what its frame says, and a call whose frames say nothing changed nothing.
-/

namespace Lumi.Kernel

open Js Lumi.Db Lumi.Wal Overwrite List InsertionMap Option

variable {ρ : Type*} [Record ρ]

/-- The id an operation of a transaction callback is about. -/
def txId : TxOp ρ → Text
  | .put id _ => id
  | .delete id => id

/-- What is stored under the id after the operation. -/
def txStored : TxOp ρ → Option ρ
  | .put _ record => some record
  | .delete _ => none

variable [JsonRecord ρ]

/-- What replay makes of the frame of a call: an id, and what is stored there from then on. -/
def WalCall.write? (call : WalCall ρ) : Option (Text × Option ρ) :=
  if call.table = [] then none
  else
    match call.op, call.payload with
    | .insert, some record | .update, some record =>
      some (call.recordId, some (JsonRecord.reparse record))
    | .delete, _ => some (call.recordId, none)
    | _, _ => none

/-- What is stored under an id is what replay will store there; without a name for the table,
that is what was there before. -/
def LoggedWrite (t : DbTable ρ) (id : Text) (stored logged : Option ρ) : Prop :=
  if t.name = [] then t.records.get? id = stored else logged.map JsonRecord.reparse = stored

instance [DecidableEq ρ] (t : DbTable ρ) (id : Text) (stored logged : Option ρ) :
    Decidable (LoggedWrite t id stored logged) :=
  inferInstanceAs (Decidable (if t.name = [] then t.records.get? id = stored
    else logged.map JsonRecord.reparse = stored))

/-- **What a log can tell.**  The log tells of a call all that the call did. -/
def Logged [Host] (t : DbTable ρ) : TableCall ρ → Prop
  | .put id record _ =>
    LoggedWrite t id (some record) (some (cloneRecordWithComputed t.computedColumns record))
  | .delete id => t.name = [] → t.records.get? id = none
  | .clear => t.records = .empty
  | .bulkPut records =>
    ∀ id r, lastOf? BulkRecord.id records id = some r →
      LoggedWrite t id (some r.record)
        (some (cloneRecordWithComputed t.computedColumns r.record))
  | .bulkDelete ids => t.name = [] → ∀ id ∈ ids, t.records.get? id = none
  | .expire id => t.ttlTimers.get? id = some .pending → t.name = [] → t.records.get? id = none
  | .transaction ops true =>
    ∀ id op, lastOf? txId ops id = some op → LoggedWrite t id (txStored op) (txStored op)
  | .undo =>
    ∀ action ∈ t.branching.undoStack.head?,
      (changeRecords t.records action.undone).get? = t.records.get?
  | .redo =>
    ∀ action ∈ t.branching.redoStack.head?,
      (changeRecords t.records action.redone).get? = t.records.get?
  | .checkoutBranch branchName =>
    ∀ branch ∈ t.branching.branches.get? (BranchingEngine.cleanName branchName),
      branch.records.get? = t.records.get?
  | .mergeBranch branchName strategy =>
    (t.branching.mergeBranch branchName strategy).1.success = true →
      (t.branching.mergeBranch branchName strategy).2.getActiveRecords.get? = t.records.get?
  | .restoreSnapshot snapshot => snapshot.get? = t.records.get?
  | _ => True

/-! ## Frames -/

/-- A table method keeps the name and the hook, and its frames are its own. -/
structure Logs (t t' : DbTable ρ) (writes : List (Text × Option ρ)) : Prop where
  name : t'.name = t.name
  hasWalHook : t'.hasWalHook = t.hasWalHook
  frames : ∃ calls, t'.frames = t.frames ++ calls ∧ (∀ call ∈ calls, call.table = t.name) ∧
    calls.filterMap WalCall.write? = writes

namespace Logs

variable {t t' t'' : DbTable ρ} {writes writes' : List (Text × Option ρ)}

theorem of_eq (hname : t'.name = t.name) (hhook : t'.hasWalHook = t.hasWalHook)
    (hframes : t'.frames = t.frames) : Logs t t' [] :=
  ⟨hname, hhook, [], by rw [hframes, append_nil], fun _ h => (by cases h), rfl⟩

theorem refl (t : DbTable ρ) : Logs t t [] := of_eq rfl rfl rfl

theorem trans (h : Logs t t' writes) (h' : Logs t' t'' writes') :
    Logs t t'' (writes ++ writes') := by
  obtain ⟨calls, hframes, htable, hwrites⟩ := h.frames
  obtain ⟨calls', hframes', htable', hwrites'⟩ := h'.frames
  refine ⟨h'.name.trans h.name, h'.hasWalHook.trans h.hasWalHook, calls ++ calls', ?_, ?_, ?_⟩
  · rw [hframes', hframes, append_assoc]
  · intro call hcall
    rcases mem_append.mp hcall with hcall | hcall
    · exact htable call hcall
    · exact (htable' call hcall).trans h.name
  · rw [filterMap_append, hwrites, hwrites']

/-- A method that calls the hook at its end, and not before. -/
theorem callWalHook (hname : t'.name = t.name) (hhook : t'.hasWalHook = t.hasWalHook)
    (hframes : t'.frames = t.frames) (hhas : t.hasWalHook = true) (op : WalOperationType)
    (id : Text) (payload : Option ρ) :
    Logs t (t'.callWalHook op id payload) (WalCall.write? ⟨op, t.name, id, payload⟩).toList := by
  refine ⟨hname, hhook, [⟨op, t'.name, id, payload⟩], ?_, fun call hcall => ?_, ?_⟩
  · rw [DbTable.callWalHook, ← hframes]
    exact if_pos (hhook.trans hhas)
  · rw [mem_singleton.mp hcall]
    exact hname
  · rw [filterMap_cons, filterMap_nil, hname]
    cases WalCall.write? ⟨op, t.name, id, payload⟩ <;> rfl

end Logs

/-- Writes of a table, of which replay only takes notice if the table has a name. -/
def named (name : Text) (writes : List (Text × Option ρ)) : List (Text × Option ρ) :=
  if name = [] then [] else writes

theorem write?_put (op : WalOperationType) (hop : op = .insert ∨ op = .update) (name id : Text)
    (record : ρ) :
    (WalCall.write? ⟨op, name, id, some record⟩).toList
      = named name [(id, some (JsonRecord.reparse record))] := by
  unfold WalCall.write? named
  by_cases h : name = []
  · rw [if_pos h, if_pos h]
    rfl
  · rw [if_neg h, if_neg h]
    rcases hop with rfl | rfl <;> rfl

theorem write?_delete (name id : Text) :
    (WalCall.write? (⟨.delete, name, id, none⟩ : WalCall ρ)).toList = named name [(id, none)] := by
  unfold WalCall.write? named
  by_cases h : name = []
  · rw [if_pos h, if_pos h]
    rfl
  · rw [if_neg h, if_neg h]
    rfl

/-- A frame of which replay takes no notice. -/
theorem write?_of_op {op : WalOperationType} (hop : op = .clear ∨ op = .branchMerge)
    (name id : Text) (payload : Option ρ) :
    (WalCall.write? ⟨op, name, id, payload⟩).toList = [] := by
  unfold WalCall.write?
  by_cases h : name = []
  · rw [if_pos h]
    rfl
  · rw [if_neg h]
    rcases hop with rfl | rfl <;> rfl

omit [Record ρ] [JsonRecord ρ] in
theorem named_append (name : Text) (first second : List (Text × Option ρ)) :
    named name (first ++ second) = named name first ++ named name second := by
  unfold named
  split_ifs <;> rfl

section

variable [Host] {t : DbTable ρ}

theorem logs_deleteInternal (t : DbTable ρ) (id : Text) : Logs t (t.deleteInternal id).2 [] := by
  rw [DbTable.deleteInternal_frame]
  exact .of_eq rfl rfl rfl

theorem logs_putAll (t : DbTable ρ) (m : InsertionMap Text ρ) : Logs t (t.putAll m) [] := by
  rw [DbTable.putAll_frame]
  exact .of_eq rfl rfl rfl

theorem logs_put (hhook : t.hasWalHook = true) (id : Text) (record : ρ) (ttlMs : Option Number) :
    Logs t (t.put id record ttlMs).2 (named t.name [(id, some (JsonRecord.reparse
      (cloneRecordWithComputed t.computedColumns record)))]) := by
  rw [← write?_put (if (t.records.get? id).isSome then .update else .insert)
    (by cases (t.records.get? id).isSome <;> simp)]
  show Logs t (DbTable.callWalHook _ _ _ _) _
  exact .callWalHook (by rfl) (by rfl) (by rfl) hhook _ _ _

theorem logs_delete (hhook : t.hasWalHook = true) (id : Text) :
    Logs t (t.delete id).2
      (if (t.records.get? id).isSome then named t.name [(id, none)] else []) := by
  have hdelete : Logs t (t.deleteInternal id).2 [] := logs_deleteInternal t id
  have hframes : (t.deleteInternal id).2.frames = t.frames := by
    rw [DbTable.deleteInternal_frame]
  unfold DbTable.delete
  cases t.records.get? id with
  | none => exact .refl t
  | some existing =>
    rw [if_pos isSome_some, ← write?_delete]
    show Logs t (DbTable.callWalHook _ _ _ _) _
    exact .callWalHook (by exact hdelete.name) (by exact hdelete.hasWalHook) (by exact hframes)
      hhook _ _ _

theorem logs_expire (hhook : t.hasWalHook = true) (id : Text) :
    Logs t (t.expire id)
      (if t.ttlTimers.get? id = some .pending ∧ (t.records.get? id).isSome then
        named t.name [(id, none)] else []) := by
  have hdelete : Logs t (t.deleteInternal id).2 [] := logs_deleteInternal t id
  have hframes : (t.deleteInternal id).2.frames = t.frames := by
    rw [DbTable.deleteInternal_frame]
  unfold DbTable.expire
  by_cases hpending : t.ttlTimers.get? id = some .pending
  · rw [if_pos hpending]
    cases t.records.get? id with
    | none =>
      rw [if_neg fun h => by cases h.2]
      exact .of_eq rfl rfl rfl
    | some expiredRec =>
      rw [if_pos ⟨hpending, isSome_some⟩, ← write?_delete]
      show Logs t (DbTable.callWalHook _ _ _ _) _
      exact .callWalHook (by exact hdelete.name) (by exact hdelete.hasWalHook) (by exact hframes)
        hhook _ _ _
  · rw [if_neg hpending, if_neg fun h => hpending h.1]
    exact .refl t

omit [Host] in
theorem logs_clear (hhook : t.hasWalHook = true) : Logs t t.clear [] := by
  rw [← write?_of_op (.inl rfl) t.name (text "*") (none : Option ρ)]
  show Logs t (DbTable.callWalHook _ _ _ _) _
  exact .callWalHook (by rfl) (by rfl) (by rfl) hhook _ _ _

theorem logs_restoreSnapshot (hhook : t.hasWalHook = true) (snapshot : InsertionMap Text ρ) :
    Logs t (t.restoreSnapshot snapshot) [] :=
  (logs_clear hhook).trans (logs_putAll t.clear snapshot)

theorem logs_applyChange (t : DbTable ρ) (branching : BranchingEngine ρ)
    (change : Option (RecordChange ρ)) : Logs t ({ t with branching }.applyChange change) [] := by
  have hbranching : Logs t { t with branching } [] := .of_eq rfl rfl rfl
  match change with
  | none => exact hbranching
  | some (.put id record) => exact .of_eq rfl rfl rfl
  | some (.delete id) => exact hbranching.trans (logs_deleteInternal _ id)

theorem logs_loadActiveRecords (t : DbTable ρ) (branching : BranchingEngine ρ) :
    Logs t { t with branching }.loadActiveRecords [] := by
  have hempty : Logs t { t with branching, records := .empty } [] := .of_eq rfl rfl rfl
  exact hempty.trans (logs_putAll _ _)

theorem logs_mergeBranch (hhook : t.hasWalHook = true) (branchName : Text)
    (strategy : MergeResolutionStrategy) : Logs t (t.mergeBranch branchName strategy).2 [] := by
  rw [DbTable.mergeBranch_snd]
  split_ifs
  · have hload := logs_loadActiveRecords t (t.branching.mergeBranch branchName strategy).2
    rw [← write?_of_op (.inr rfl) t.name branchName (none : Option ρ)]
    refine .callWalHook hload.name hload.hasWalHook ?_ hhook _ _ _
    rw [DbTable.loadActiveRecords, DbTable.putAll_frame]
  · exact .of_eq rfl rfl rfl

theorem logs_bulkPut (hhook : t.hasWalHook = true) (records : List (BulkRecord ρ)) :
    Logs t (t.bulkPut records).2 (named t.name (records.map fun r => (r.id, some
      (JsonRecord.reparse (cloneRecordWithComputed t.computedColumns r.record))))) := by
  rw [DbTable.bulkPut_snd]
  induction records generalizing t with
  | nil =>
    rw [map_nil, named, ite_self]
    exact .refl t
  | cons r rest ih =>
    have hput := logs_put hhook r.id r.record r.ttlMs
    have hrest := ih (hput.hasWalHook.trans hhook)
    rw [hput.name] at hrest
    have hboth := hput.trans hrest
    rw [← named_append] at hboth
    exact hboth

theorem logs_applyTxOps (ops : List (TxOp ρ)) (t : DbTable ρ) :
    Logs t (ops.foldl DbTable.applyTxOp t) [] := by
  induction ops generalizing t with
  | nil => exact .refl t
  | cons op rest ih =>
    have hop : Logs t (t.applyTxOp op) [] := by
      cases op with
      | put id record => exact .of_eq rfl rfl rfl
      | delete id => exact logs_deleteInternal t id
    exact hop.trans (ih _)

omit [Host] in
theorem logs_logTxOps (ops : List (TxOp ρ)) (hhook : t.hasWalHook = true) :
    Logs t (ops.foldl DbTable.logTxOp t)
      (named t.name (ops.map fun op => (txId op, (txStored op).map JsonRecord.reparse))) := by
  induction ops generalizing t with
  | nil =>
    rw [map_nil, named, ite_self]
    exact .refl t
  | cons op rest ih =>
    have hop : Logs t (t.logTxOp op)
        (named t.name [(txId op, (txStored op).map JsonRecord.reparse)]) := by
      cases op with
      | put id record =>
        have hwrite := write?_put .insert (.inl rfl) t.name id record
        exact hwrite ▸ Logs.callWalHook rfl rfl rfl hhook .insert id (some record)
      | delete id =>
        have hwrite := write?_delete (ρ := ρ) t.name id
        exact hwrite ▸ Logs.callWalHook rfl rfl rfl hhook .delete id none
    have hrest := ih (hop.hasWalHook.trans hhook)
    rw [hop.name] at hrest
    have hboth := hop.trans hrest
    rw [← named_append] at hboth
    exact hboth

/-! ## Records -/

omit [Host] in
/-- Writes that are logged one by one tell the truth exactly if the last of every id does. -/
theorem overwrite_named_iff {α : Type*} (t : DbTable ρ) (l : List α) (key : α → Text)
    (stored logged : α → Option ρ) :
    overwrite t.records.get? (named t.name (l.map fun a =>
        (key a, (logged a).map JsonRecord.reparse)))
      = overwrite t.records.get? (l.map fun a => (key a, stored a)) ↔
      ∀ k a, lastOf? key l k = some a → LoggedWrite t k (stored a) (logged a) := by
  unfold named LoggedWrite
  by_cases hname : t.name = []
  · simp only [if_pos hname]
    rw [overwrite_nil, eq_comm, overwrite_eq_self_iff]
    exact ⟨fun h k a hlast => (h k a hlast).symm, fun h k a hlast => (h k a hlast).symm⟩
  · simp only [if_neg hname]
    exact overwrite_eq_iff _ _ _ _ _

omit [JsonRecord ρ] in
theorem records_bulkPut (records : List (BulkRecord ρ)) (t : DbTable ρ) :
    (t.bulkPut records).2.records.get?
      = overwrite t.records.get? (records.map fun r => (r.id, some r.record)) := by
  rw [DbTable.bulkPut_snd]
  induction records generalizing t with
  | nil => rfl
  | cons r rest ih =>
    rw [foldl_cons, ih, map_cons, ← singleton_append, overwrite_append]
    congr 1
    exact get?_set_eq_update _ _ _

omit [Record ρ] [JsonRecord ρ] [Host] in
theorem get?_foldl_txRecords (ops : List (TxOp ρ)) (m : InsertionMap Text ρ) :
    (ops.foldl txRecords m).get? = overwrite m.get? (ops.map fun op => (txId op, txStored op)) := by
  induction ops generalizing m with
  | nil => rfl
  | cons op rest ih =>
    rw [foldl_cons, ih, map_cons, ← singleton_append, overwrite_append]
    congr 1
    cases op with
    | put id record => exact get?_set_eq_update _ _ _
    | delete id => exact get?_delete_eq_update _ _

section

omit [JsonRecord ρ]

theorem records_delete (t : DbTable ρ) (id : Text) :
    (t.delete id).2.records = t.records.delete id := by
  unfold DbTable.delete
  cases h : t.records.get? id with
  | none => exact (delete_eq_self_of_get?_eq_none h).symm
  | some existing => exact DbTable.records_deleteInternal t id

theorem get?_bulkDelete (ids : List Text) (t : DbTable ρ) (id : Text) :
    (t.bulkDelete ids).2.records.get? id = if id ∈ ids then none else t.records.get? id := by
  rw [DbTable.bulkDelete_snd]
  induction ids generalizing t with
  | nil => rfl
  | cons head rest ih =>
    rw [foldl_cons, ih, records_delete, get?_delete]
    by_cases hrest : id ∈ rest
    · rw [if_pos hrest, if_pos (mem_cons_of_mem _ hrest)]
    · by_cases hhead : id = head
      · rw [if_neg hrest, if_pos hhead, if_pos (hhead ▸ mem_cons_self)]
      · rw [if_neg hrest, if_neg hhead, if_neg (not_mem_cons_of_ne_of_not_mem hhead hrest)]

theorem records_applyChange (t : DbTable ρ) (branching : BranchingEngine ρ)
    (change : Option (RecordChange ρ)) :
    ({ t with branching }.applyChange change).records = changeRecords t.records change := by
  match change with
  | none => rfl
  | some (.put id record) => rfl
  | some (.delete id) => exact DbTable.records_deleteInternal _ id

end

omit [Host] in
theorem loggedWrite_none_iff (t : DbTable ρ) (id : Text) :
    LoggedWrite t id none none ↔ (t.name = [] → t.records.get? id = none) := by
  unfold LoggedWrite
  by_cases hname : t.name = []
  · rw [if_pos hname]
    exact ⟨fun h _ => h, fun h => h hname⟩
  · rw [if_neg hname]
    exact iff_of_true rfl fun h => absurd h hname

/-! ## One call -/

/-- What the frames of a call tell is what the call did. -/
def Told (t t' : DbTable ρ) (told : Prop) : Prop :=
  ∃ writes, Logs t t' writes ∧
    (overwrite t.records.get? writes = t'.records.get? ↔ told)

variable {t' : DbTable ρ}

omit [Host] in
/-- A call that tells nothing may change nothing. -/
theorem told_nothing (h : Logs t t' []) : Told t t' (t'.records.get? = t.records.get?) :=
  ⟨[], h, eq_comm⟩

omit [Host] in
theorem Told.congr {told told' : Prop} (h : Told t t' told) (hiff : told ↔ told') :
    Told t t' told' := by
  obtain ⟨writes, hlogs, htold⟩ := h
  exact ⟨writes, hlogs, htold.trans hiff⟩

theorem told_put (hhook : t.hasWalHook = true) (id : Text) (record : ρ) (ttlMs : Option Number) :
    Told t (t.put id record ttlMs).2 (Logged t (.put id record ttlMs)) := by
  refine ⟨_, logs_put hhook id record ttlMs, ?_⟩
  have hone := overwrite_named_iff t [id] (fun i => i) (fun _ => some record)
    fun _ => some (cloneRecordWithComputed t.computedColumns record)
  rw [forall_lastOf?_singleton] at hone
  have hrecords : (t.put id record ttlMs).2.records = t.records.set id record := rfl
  rw [hrecords, get?_set_eq_update]
  exact hone

omit [Host] in
/-- A deletion that is logged, of a record that was there or not. -/
theorem told_deletion {id : Text} (h : Logs t t' (named t.name [(id, none)]))
    (hrecords : t'.records = t.records.delete id) :
    Told t t' (t.name = [] → t.records.get? id = none) := by
  refine ⟨_, h, ?_⟩
  have hone := overwrite_named_iff t [id] (fun i => i) (fun _ => none) (fun _ => none)
  rw [forall_lastOf?_singleton, loggedWrite_none_iff] at hone
  rw [hrecords, get?_delete_eq_update]
  exact hone

section

variable (hhook : t.hasWalHook = true)
include hhook

theorem told_delete (id : Text) :
    Told t (t.delete id).2 (t.name = [] → t.records.get? id = none) := by
  have hlogs := logs_delete hhook id
  by_cases hsome : (t.records.get? id).isSome
  · rw [if_pos hsome] at hlogs
    exact told_deletion hlogs (records_delete t id)
  · have hnone := not_isSome_iff_eq_none.mp hsome
    rw [if_neg hsome] at hlogs
    refine (told_nothing hlogs).congr (iff_of_true ?_ fun _ => hnone)
    rw [records_delete, delete_eq_self_of_get?_eq_none hnone]

theorem told_bulkDelete (ids : List Text) :
    Told t (t.bulkDelete ids).2 (t.name = [] → ∀ id ∈ ids, t.records.get? id = none) := by
  by_cases hname : t.name = []
  · have hlogs : Logs t (t.bulkDelete ids).2 [] := by
      rw [DbTable.bulkDelete_snd]
      induction ids generalizing t with
      | nil => exact .refl t
      | cons id rest ih =>
        have hdelete := logs_delete hhook id
        rw [named, if_pos hname, ite_self] at hdelete
        exact hdelete.trans (ih (hdelete.hasWalHook.trans hhook) (hdelete.name.trans hname))
    refine (told_nothing hlogs).congr ⟨fun h _ id hid => ?_, fun h => ?_⟩
    · rw [← h, get?_bulkDelete, if_pos hid]
    · funext id
      rw [get?_bulkDelete]
      by_cases hid : id ∈ ids
      · rw [if_pos hid, h hname id hid]
      · rw [if_neg hid]
  · suffices h : ∃ writes, Logs t (t.bulkDelete ids).2 writes ∧
        overwrite t.records.get? writes = (t.bulkDelete ids).2.records.get? by
      obtain ⟨writes, hlogs, heq⟩ := h
      exact ⟨writes, hlogs, iff_of_true heq fun h => absurd h hname⟩
    rw [DbTable.bulkDelete_snd]
    induction ids generalizing t with
    | nil => exact ⟨[], .refl t, rfl⟩
    | cons id rest ih =>
      obtain ⟨first, hfirst, heq⟩ := told_delete hhook id
      obtain ⟨second, hsecond, hrest⟩ := ih (hfirst.hasWalHook.trans hhook)
        fun h => hname (hfirst.name.symm.trans h)
      refine ⟨first ++ second, hfirst.trans hsecond, ?_⟩
      rw [overwrite_append, heq.mpr fun h => absurd h hname]
      exact hrest

theorem told_expire (id : Text) :
    Told t (t.expire id) (t.ttlTimers.get? id = some .pending → t.name = [] →
      t.records.get? id = none) := by
  have hlogs := logs_expire hhook id
  by_cases hpending : t.ttlTimers.get? id = some .pending
  · rw [forall_prop_of_true hpending]
    cases hget : t.records.get? id with
    | none =>
      rw [hget, if_neg fun h => by cases h.2] at hlogs
      refine (told_nothing hlogs).congr (iff_of_true ?_ fun _ => rfl)
      rw [DbTable.expire, if_pos hpending, hget]
    | some expiredRec =>
      rw [hget, if_pos ⟨hpending, isSome_some⟩] at hlogs
      rw [← hget]
      refine told_deletion hlogs ?_
      rw [DbTable.expire, if_pos hpending, hget]
      exact DbTable.records_deleteInternal t id
  · rw [if_neg fun h => hpending h.1] at hlogs
    refine (told_nothing hlogs).congr (iff_of_true ?_ fun h => absurd h hpending)
    rw [DbTable.expire, if_neg hpending]

theorem told_transaction (ops : List (TxOp ρ)) (commits : Bool) :
    Told t (t.call (.transaction ops commits)) (Logged t (.transaction ops commits)) := by
  cases commits with
  | true =>
    have hops := logs_applyTxOps ops t
    have hlog := logs_logTxOps ops (hops.hasWalHook.trans hhook)
    rw [hops.name] at hlog
    refine ⟨_, hops.trans hlog, ?_⟩
    show overwrite _ ([] ++ _) = (ops.foldl DbTable.logTxOp _).records.get? ↔ _
    rw [(DbTable.foldl_logTxOp ops _).1, DbTable.records_foldl_applyTxOp, get?_foldl_txRecords]
    exact overwrite_named_iff t ops txId txStored txStored
  | false =>
    have hcall : t.call (.transaction ops false) = t.restoreSnapshot t.records :=
      congrArg Prod.snd (DbTable.transaction_error t ops ())
    rw [hcall]
    refine (told_nothing (logs_restoreSnapshot hhook t.records)).congr ?_
    rw [DbTable.records_restoreSnapshot]
    exact iff_of_true rfl trivial

end

theorem told_undo (t : DbTable ρ) : Told t (t.call .undo) (Logged t .undo) := by
  refine (told_nothing (logs_applyChange t t.branching.undo.2.2 t.branching.undo.2.1)).congr ?_
  rw [records_applyChange]
  unfold Logged BranchingEngine.undo
  cases t.branching.undoStack <;> simp [changeRecords]

theorem told_redo (t : DbTable ρ) : Told t (t.call .redo) (Logged t .redo) := by
  refine (told_nothing (logs_applyChange t t.branching.redo.2.2 t.branching.redo.2.1)).congr ?_
  rw [records_applyChange]
  unfold Logged BranchingEngine.redo
  cases t.branching.redoStack <;> simp [changeRecords]

theorem told_checkoutBranch (t : DbTable ρ) (branchName : Text) :
    Told t (t.checkoutBranch branchName).2
      (∀ branch ∈ t.branching.branches.get? (BranchingEngine.cleanName branchName),
        branch.records.get? = t.records.get?) := by
  rw [DbTable.checkoutBranch_snd]
  by_cases hexists : (t.branching.branches.get? (BranchingEngine.cleanName branchName)).isSome
  · obtain ⟨branch, hbranch⟩ := isSome_iff_exists.mp hexists
    have hout : t.branching.checkoutBranch branchName = (true, { t.branching with
        currentBranchName := BranchingEngine.cleanName branchName
        undoStack := []
        redoStack := []
        headExists := hexists }) := dif_pos hexists
    rw [hout, if_pos rfl]
    refine (told_nothing (logs_loadActiveRecords t _)).congr ?_
    rw [DbTable.records_loadActiveRecords, hbranch]
    have hactive : ((t.branching.branches.get? (BranchingEngine.cleanName branchName)).get
        hexists).records = branch.records :=
      congrArg BranchDescriptor.records (get_of_eq_some hexists hbranch)
    simp only [mem_def, Option.some.injEq, forall_eq', ← hactive]
    rfl
  · have hstay : t.branching.checkoutBranch branchName = (false, t.branching) :=
      dif_neg hexists
    rw [hstay, not_isSome_iff_eq_none.mp hexists]
    exact (told_nothing (.of_eq rfl rfl rfl)).congr (iff_of_true rfl fun _ h => (by cases h))

theorem told_mergeBranch (hhook : t.hasWalHook = true) (branchName : Text)
    (strategy : MergeResolutionStrategy) :
    Told t (t.mergeBranch branchName strategy).2
      (Logged t (.mergeBranch branchName strategy)) := by
  refine (told_nothing (logs_mergeBranch hhook branchName strategy)).congr ?_
  rw [DbTable.mergeBranch_snd]
  unfold Logged
  by_cases hsuccess : (t.branching.mergeBranch branchName strategy).1.success = true
  · rw [if_pos hsuccess]
    show (DbTable.loadActiveRecords _).records.get? = _ ↔ _
    rw [DbTable.records_loadActiveRecords]
    exact ⟨fun h _ => h, fun h => h hsuccess⟩
  · rw [if_neg hsuccess]
    exact iff_of_true rfl fun h => absurd h hsuccess

/-- **What the log tells of a call.**  The frames of a call on a table with a hook tell what
the call did exactly if `Logged` holds. -/
theorem told_call (hhook : t.hasWalHook = true) (c : TableCall ρ) :
    Told t (t.call c) (Logged t c) := by
  cases c with
  | put id record ttlMs => exact told_put hhook id record ttlMs
  | delete id => exact told_delete hhook id
  | clear =>
    refine (told_nothing (logs_clear hhook)).congr ?_
    show (InsertionMap.empty : InsertionMap Text ρ).get? = _ ↔ _
    rw [eq_comm, get?_eq_get?_empty_iff]
    rfl
  | bulkPut records =>
    refine ⟨_, logs_bulkPut hhook records, ?_⟩
    show _ = (t.bulkPut records).2.records.get? ↔ _
    rw [records_bulkPut]
    exact overwrite_named_iff t records BulkRecord.id (fun r => some r.record)
      fun r => some (cloneRecordWithComputed t.computedColumns r.record)
  | bulkDelete ids => exact told_bulkDelete hhook ids
  | expire id => exact told_expire hhook id
  | transaction ops commits => exact told_transaction hhook ops commits
  | undo => exact told_undo t
  | redo => exact told_redo t
  | checkoutBranch branchName => exact told_checkoutBranch t branchName
  | mergeBranch branchName strategy => exact told_mergeBranch hhook branchName strategy
  | restoreSnapshot snapshot =>
    refine (told_nothing (logs_restoreSnapshot hhook snapshot)).congr ?_
    rw [DbTable.records_restoreSnapshot]
    rfl
  | forkBranch | createIndex | createSortedIndex | createCompositeIndex | createPrefixIndex
  | subscribe =>
    refine (told_nothing ?_).congr (iff_of_true ?_ trivial)
    · exact .of_eq rfl rfl rfl
    · rfl

end

end Lumi.Kernel
