import Lumi.Db.Table

/-!
# What the indices list

`Indexed` says of one record that every index lists its id under the key the
record has there.  Adding a record to the indices establishes it for that record
and keeps it for all others; removing a record keeps it for the others.  Nothing
is said of the other listings an index may hold: a checkout or a merge drops the
records of the table and leaves their listings behind.

From this, every state of every run lists all its live records.
-/

namespace Lumi.Db

open Js InsertionMap InvertedIndex Option

namespace Indices

variable [Host]

/-- Every index lists the id under the key of its record. -/
structure Indexed (ix : Indices) (id : Text) (resolve : Text → Value) : Prop where
  equality : ∀ field index, ix.equality.get? field = some index → resolve field ≠ .undefined →
    id ∈ index.lookup (resolve field)
  sorted : ∀ field list v, ix.sorted.get? field = some list →
    normalizeSortableValue (resolve field) = some v → SortedLists list v id
  composite : ∀ name c, ix.composite.get? name = some c →
    id ∈ c.map.lookup (buildCompositeKey c.fields resolve)
  prefixes : ∀ field index s, ix.prefixes.get? field = some index → resolve field = .string s →
    ∀ p ∈ prefixKeys s, id ∈ index.lookup p

/-! ## One listing -/

omit [Host] in
theorem mem_addToEquality {m : InvertedIndex Value Text} {value v : Value} {id i : Text} :
    i ∈ (addToEquality m value id).lookup v ↔
      (value ≠ .undefined ∧ v = value ∧ i = id) ∨ i ∈ m.lookup v := by
  unfold addToEquality
  by_cases h : value = .undefined
  · simp [h]
  · rw [if_neg h, mem_lookup_post]
    simp [h]

omit [Host] in
theorem mem_removeFromEquality {m : InvertedIndex Value Text} {value v : Value} {id i : Text}
    (h : i ∈ m.lookup v) (hne : i ≠ id) : i ∈ (removeFromEquality m value id).lookup v := by
  unfold removeFromEquality
  split
  · exact h
  · exact mem_lookup_unpost.mpr ⟨h, fun heq => hne heq.2⟩

variable {m : InvertedIndex Text Text}

theorem mem_addToPrefix_self {s p id : Text} (h : p ∈ prefixKeys s) :
    id ∈ (addToPrefix m (.string s) id).lookup p :=
  mem_lookup_postAll.mpr (.inl ⟨h, rfl⟩)

theorem mem_addToPrefix {p i : Text} (h : i ∈ m.lookup p) (value : Value) (id : Text) :
    i ∈ (addToPrefix m value id).lookup p := by
  unfold addToPrefix
  cases value with
  | string s => exact mem_lookup_postAll.mpr (.inr h)
  | _ => exact h

theorem mem_removeFromPrefix {value : Value} {p id i : Text} (h : i ∈ m.lookup p) (hne : i ≠ id) :
    i ∈ (removeFromPrefix m value id).lookup p := by
  unfold removeFromPrefix
  cases value with
  | string s => exact mem_lookup_unpostAll.mpr ⟨h, fun heq => hne heq.2⟩
  | _ => exact h

variable {list : List SortedEntry}

theorem sortedLists_addToSorted_self {value : Value} {v : Primitive}
    (h : normalizeSortableValue value = some v) (id : Text) :
    SortedLists (addToSorted list value id) v id := by
  unfold addToSorted
  rw [h]
  exact sortedLists_insert_self list v id

theorem sortedLists_addToSorted {v : Primitive} {i : Text} (h : SortedLists list v i)
    (value : Value) (id : Text) : SortedLists (addToSorted list value id) v i := by
  unfold addToSorted
  cases normalizeSortableValue value with
  | none => exact h
  | some w => exact h.insert w id

theorem sortedLists_removeFromSorted {v : Primitive} {id i : Text} (h : SortedLists list v i)
    (hne : i ≠ id) (value : Value) : SortedLists (removeFromSorted list value id) v i := by
  unfold removeFromSorted
  cases normalizeSortableValue value with
  | none => exact h
  | some w => exact h.remove hne w

/-! ## One record -/

variable {ix : Indices} {id i : Text} {resolve r : Text → Value}

theorem indexed_addToIndices_self : (ix.addToIndices id resolve).Indexed id resolve := by
  refine ⟨?_, ?_, ?_, ?_⟩
  · intro field index h hdefined
    rw [addToIndices, get?_map, map_eq_some_iff] at h
    obtain ⟨m, -, rfl⟩ := h
    exact mem_addToEquality.mpr (.inl ⟨hdefined, rfl, rfl⟩)
  · intro field list v h hv
    rw [addToIndices, get?_map, map_eq_some_iff] at h
    obtain ⟨l, -, rfl⟩ := h
    exact sortedLists_addToSorted_self hv id
  · intro name c h
    rw [addToIndices, get?_map, map_eq_some_iff] at h
    obtain ⟨c, -, rfl⟩ := h
    exact mem_lookup_post.mpr (.inl ⟨rfl, rfl⟩)
  · intro field index s h hs p hp
    rw [addToIndices, get?_map, map_eq_some_iff] at h
    obtain ⟨m, -, rfl⟩ := h
    rw [hs]
    exact mem_addToPrefix_self hp

theorem Indexed.addToIndices (h : ix.Indexed i r) : (ix.addToIndices id resolve).Indexed i r := by
  refine ⟨?_, ?_, ?_, ?_⟩
  · intro field index hget hdefined
    rw [Indices.addToIndices, get?_map, map_eq_some_iff] at hget
    obtain ⟨m, hm, rfl⟩ := hget
    exact mem_addToEquality.mpr (.inr (h.equality field m hm hdefined))
  · intro field list v hget hv
    rw [Indices.addToIndices, get?_map, map_eq_some_iff] at hget
    obtain ⟨l, hl, rfl⟩ := hget
    exact sortedLists_addToSorted (h.sorted field l v hl hv) _ _
  · intro name c hget
    rw [Indices.addToIndices, get?_map, map_eq_some_iff] at hget
    obtain ⟨c, hc, rfl⟩ := hget
    exact mem_lookup_post.mpr (.inr (h.composite name c hc))
  · intro field index s hget hs p hp
    rw [Indices.addToIndices, get?_map, map_eq_some_iff] at hget
    obtain ⟨m, hm, rfl⟩ := hget
    exact mem_addToPrefix (h.prefixes field m s hm hs p hp) _ _

theorem Indexed.removeFromIndices (h : ix.Indexed i r) (hne : i ≠ id) :
    (ix.removeFromIndices id resolve).Indexed i r := by
  refine ⟨?_, ?_, ?_, ?_⟩
  · intro field index hget hdefined
    rw [Indices.removeFromIndices, get?_map, map_eq_some_iff] at hget
    obtain ⟨m, hm, rfl⟩ := hget
    exact mem_removeFromEquality (h.equality field m hm hdefined) hne
  · intro field list v hget hv
    rw [Indices.removeFromIndices, get?_map, map_eq_some_iff] at hget
    obtain ⟨l, hl, rfl⟩ := hget
    exact sortedLists_removeFromSorted (h.sorted field l v hl hv) hne _
  · intro name c hget
    rw [Indices.removeFromIndices, get?_map, map_eq_some_iff] at hget
    obtain ⟨c, hc, rfl⟩ := hget
    exact mem_lookup_unpost.mpr ⟨h.composite name c hc, fun heq => hne heq.2⟩
  · intro field index s hget hs p hp
    rw [Indices.removeFromIndices, get?_map, map_eq_some_iff] at hget
    obtain ⟨m, hm, rfl⟩ := hget
    exact mem_removeFromPrefix (h.prefixes field m s hm hs p hp) hne

end Indices

/-! ## A new index -/

namespace Indices

variable [Host] {ρ : Type*} {ix : Indices} {records : InsertionMap Text ρ}
  {resolve : ρ → Text → Value} {id : Text} {record : ρ}

section

variable (h : ix.Indexed id (resolve record))
include h

section

variable (hlive : records.get? id = some record)
include hlive

theorem Indexed.createIndex (field : Text) :
    (ix.createIndex records resolve field).Indexed id (resolve record) := by
  unfold Indices.createIndex
  cases hnew : ix.equality.get? field with
  | some index => exact h
  | none =>
    refine ⟨?_, h.sorted, h.composite, h.prefixes⟩
    intro field' index hget hdefined
    rw [get?_set] at hget
    split at hget
    · next heq =>
      subst heq
      obtain rfl := some_inj.mp hget
      exact Run.run_establishes
        (fun m (e : Text × ρ) => addToEquality m (resolve e.2 field') e.1)
        (fun m e => resolve e.2 field' ≠ .undefined → e.1 ∈ m.lookup (resolve e.2 field'))
        (fun m e hdefined => mem_addToEquality.mpr (.inl ⟨hdefined, rfl, rfl⟩))
        (fun m e e' hkeep hdefined => mem_addToEquality.mpr (.inr (hkeep hdefined)))
        .empty (mem_entries_iff.mpr hlive) hdefined
    · exact h.equality field' index hget hdefined

theorem Indexed.createSortedIndex (field : Text) :
    (ix.createSortedIndex records resolve field).Indexed id (resolve record) := by
  unfold Indices.createSortedIndex
  cases hnew : ix.sorted.get? field with
  | some index => exact h
  | none =>
    refine ⟨h.equality, ?_, h.composite, h.prefixes⟩
    intro field' list v hget hv
    rw [get?_set] at hget
    split at hget
    · next heq =>
      subst heq
      obtain rfl := some_inj.mp hget
      exact Run.run_establishes
        (fun list (e : Text × ρ) => addToSorted list (resolve e.2 field') e.1)
        (fun list e => ∀ v, normalizeSortableValue (resolve e.2 field') = some v →
          SortedLists list v e.1)
        (fun list e v hv => sortedLists_addToSorted_self hv e.1)
        (fun list e e' hkeep v hv => sortedLists_addToSorted (hkeep v hv) _ _)
        [] (mem_entries_iff.mpr hlive) v hv
    · exact h.sorted field' list v hget hv

theorem Indexed.createCompositeIndex (fields : List Text) :
    (ix.createCompositeIndex records resolve fields).Indexed id (resolve record) := by
  unfold Indices.createCompositeIndex
  dsimp only
  cases hnew : ix.composite.get? (joinWith (text "___") fields) with
  | some index => exact h
  | none =>
    refine ⟨h.equality, h.sorted, ?_, h.prefixes⟩
    intro name c hget
    rw [get?_set] at hget
    split at hget
    · obtain rfl := some_inj.mp hget
      exact Run.run_establishes
        (fun m (e : Text × ρ) => post m (buildCompositeKey fields (resolve e.2)) e.1)
        (fun m e => e.1 ∈ m.lookup (buildCompositeKey fields (resolve e.2)))
        (fun m e => mem_lookup_post.mpr (.inl ⟨rfl, rfl⟩))
        (fun m e e' hkeep => mem_lookup_post.mpr (.inr hkeep))
        .empty (mem_entries_iff.mpr hlive)
    · exact h.composite name c hget

theorem Indexed.createPrefixIndex (field : Text) :
    (ix.createPrefixIndex records resolve field).Indexed id (resolve record) := by
  unfold Indices.createPrefixIndex
  cases hnew : ix.prefixes.get? field with
  | some index => exact h
  | none =>
    refine ⟨h.equality, h.sorted, h.composite, ?_⟩
    intro field' index s hget hs p hp
    rw [get?_set] at hget
    split at hget
    · next heq =>
      subst heq
      obtain rfl := some_inj.mp hget
      exact Run.run_establishes
        (fun m (e : Text × ρ) => addToPrefix m (resolve e.2 field') e.1)
        (fun m e => ∀ s, resolve e.2 field' = .string s → ∀ p ∈ prefixKeys s, e.1 ∈ m.lookup p)
        (fun m e s hs p hp => hs ▸ mem_addToPrefix_self hp)
        (fun m e e' hkeep s hs p hp => mem_addToPrefix (hkeep s hs p hp) _ _)
        .empty (mem_entries_iff.mpr hlive) s hs p hp
    · exact h.prefixes field' index s hget hs p hp

end

end

end Indices

/-! ## Every live record, in every state -/

namespace DbTable

variable [Host] {ρ : Type*} [Record ρ]

/-- Every live record is listed by every index under its own key. -/
def ListsLive (t : DbTable ρ) : Prop :=
  ∀ id record, t.records.get? id = some record → t.indices.Indexed id (t.resolve record)

variable {t : DbTable ρ}

theorem listsLive_of_empty (h : t.records = .empty) : t.ListsLive := by
  intro id record hlive
  rw [h] at hlive
  exact absurd hlive (by simp)

section

variable (h : t.ListsLive)
include h

theorem ListsLive.putInternal (id : Text) (record : ρ) : (t.putInternal id record).ListsLive := by
  intro i r hlive
  rw [records_putInternal, get?_set] at hlive
  split at hlive
  · next heq =>
    subst heq
    obtain rfl := some_inj.mp hlive
    exact Indices.indexed_addToIndices_self
  · next hne =>
    have hi := h i r hlive
    unfold DbTable.putInternal
    cases t.records.get? id with
    | none => exact hi.addToIndices
    | some existing => exact (hi.removeFromIndices hne).addToIndices

theorem ListsLive.deleteInternal (id : Text) : (t.deleteInternal id).2.ListsLive := by
  intro i r hlive
  rw [records_deleteInternal, get?_delete] at hlive
  split at hlive
  · exact absurd hlive (by simp)
  · next hne =>
    have hi := h i r hlive
    unfold DbTable.deleteInternal
    cases t.records.get? id with
    | none => exact hi
    | some existing => exact hi.removeFromIndices hne

theorem ListsLive.putAll (m : InsertionMap Text ρ) : (t.putAll m).ListsLive :=
  Run.run_invariant (fun t e (h : t.ListsLive) => h.putInternal e.1 e.2) h m.entries

theorem ListsLive.put (id : Text) (record : ρ) (ttlMs : Option Number) :
    (t.put id record ttlMs).2.ListsLive :=
  h.putInternal id record

theorem ListsLive.delete (id : Text) : (t.delete id).2.ListsLive := by
  have hdelete := h.deleteInternal id
  unfold DbTable.delete
  cases t.records.get? id with
  | none => exact h
  | some existing => exact hdelete

theorem ListsLive.expire (id : Text) : (t.expire id).ListsLive := by
  have hdelete := h.deleteInternal id
  unfold DbTable.expire
  split
  · cases t.records.get? id with
    | none => exact h
    | some expiredRec => exact hdelete
  · exact h

theorem ListsLive.applyChange (change : Option (RecordChange ρ)) :
    (t.applyChange change).ListsLive := by
  match change with
  | none => exact h
  | some (.put id record) => exact h.putInternal id record
  | some (.delete id) => exact h.deleteInternal id

end

theorem listsLive_restoreSnapshot (t : DbTable ρ) (snapshot : InsertionMap Text ρ) :
    (t.restoreSnapshot snapshot).ListsLive :=
  ListsLive.putAll (listsLive_of_empty rfl) snapshot

theorem listsLive_loadActiveRecords (t : DbTable ρ) : t.loadActiveRecords.ListsLive :=
  ListsLive.putAll (listsLive_of_empty rfl) _

theorem ListsLive.transaction {ε α : Type*} (h : t.ListsLive) (ops : List (TxOp ρ))
    (result : Except ε α) : (t.transaction ops result).2.ListsLive := by
  have hops : (ops.foldl applyTxOp t).ListsLive := by
    refine Run.run_invariant (fun t op (h : t.ListsLive) => ?_) h ops
    cases op with
    | put id record => exact h.putInternal id record
    | delete id => exact h.deleteInternal id
  cases result with
  | error err => exact listsLive_restoreSnapshot _ _
  | ok value =>
    refine Run.run_invariant (fun t op (h : t.ListsLive) => ?_) hops ops
    cases op <;> exact h

/-- **Every call keeps every live record listed.** -/
theorem ListsLive.call (h : t.ListsLive) (c : TableCall ρ) : (t.call c).ListsLive := by
  cases c with
  | put id record ttlMs => exact h.put id record ttlMs
  | delete id => exact h.delete id
  | clear => exact listsLive_of_empty rfl
  | bulkPut records =>
    rw [DbTable.call, bulkPut_snd]
    exact Run.run_invariant (fun t r (h : t.ListsLive) => h.put r.id r.record r.ttlMs) h records
  | bulkDelete ids =>
    rw [DbTable.call, bulkDelete_snd]
    exact Run.run_invariant (fun t id (h : t.ListsLive) => h.delete id) h ids
  | expire id => exact h.expire id
  | transaction ops commits => exact h.transaction ops _
  | undo =>
    have hbranching : ({ t with branching := t.branching.undo.2.2 } : DbTable ρ).ListsLive := h
    exact hbranching.applyChange t.branching.undo.2.1
  | redo =>
    have hbranching : ({ t with branching := t.branching.redo.2.2 } : DbTable ρ).ListsLive := h
    exact hbranching.applyChange t.branching.redo.2.1
  | forkBranch branchName => exact h
  | checkoutBranch branchName =>
    rw [DbTable.call, checkoutBranch_snd]
    split
    · exact listsLive_loadActiveRecords _
    · exact h
  | mergeBranch branchName strategy =>
    rw [DbTable.call, mergeBranch_snd]
    split
    · exact listsLive_loadActiveRecords _
    · exact h
  | restoreSnapshot snapshot => exact listsLive_restoreSnapshot t snapshot
  | createIndex field => exact fun id record hlive => (h id record hlive).createIndex hlive field
  | createSortedIndex field =>
    exact fun id record hlive => (h id record hlive).createSortedIndex hlive field
  | createCompositeIndex fields =>
    exact fun id record hlive => (h id record hlive).createCompositeIndex hlive fields
  | createPrefixIndex field =>
    exact fun id record hlive => (h id record hlive).createPrefixIndex hlive field
  | subscribe filter => exact h

theorem listsLive_run (name : Text) (hasWalHook : Bool) (calls : List (TableCall ρ)) :
    (Run.run DbTable.call (init name hasWalHook) calls).ListsLive :=
  Run.run_invariant (fun (t : DbTable ρ) c (h : t.ListsLive) => h.call c)
    (listsLive_of_empty (t := init name hasWalHook) rfl) calls

/-- **No index misses a live record.**  Whatever is called, in every state each index lists every
live record under the key that the record has there. -/
theorem indices_list_live (name : Text) (hasWalHook : Bool) (calls : List (TableCall ρ)) :
    Run.Always DbTable.call ListsLive (init name hasWalHook) calls :=
  Run.always_of_invariant (fun _ call h => h.call call) (listsLive_of_empty rfl) calls

end DbTable

end Lumi.Db
