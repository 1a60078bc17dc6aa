import Lumi.Lsm.Structure

/-!
# What the layers hold

A write puts its entry over what the layers hold; a flush turns the memory table into
a table that holds the same; the merge of a compaction holds, for every key, what the
first of its tables with the key holds.  So whatever is true of the entries as they are
written is true of every entry of every layer (`LsmStore.AllEntries`).
-/

namespace Lumi.Lsm

open Js List InsertionMap

variable {υ : Type*} {rt : Runtime υ}

namespace LsmStore

theorem slot?_setMem (s : LsmStore υ) (key : Text) (slot : Slot υ) (k : Text) :
    (s.setMem key slot).slot? k = if k = key then some slot else s.slot? k := by
  unfold slot? setMem
  rw [get?_set]
  split_ifs
  · rfl
  · rfl

/-- The table of a flush holds what the memory table held. -/
theorem slot?_flushed (s : LsmStore υ) (sizeBytes : ℕ) (k : Text) :
    (s.flushed rt sizeBytes).slot? k = s.slot? k := by
  have htable : (SsTable.ofSorted
      (sortEntries rt (s.memTable.entries.map fun e => (⟨e.1, e.2⟩ : Entry υ))) 0
      s.nextTableId sizeBytes s.nextSequence).slot? k = s.memTable.get? k := by
    apply Option.ext
    intro slot
    rw [(SsTable.built_ofSorted s.nodup_memEntries _ _ _ _).slot?_eq_some_iff,
      ← mem_entries_iff]
    refine (perm_sortEntries _).mem_iff.trans ?_
    rw [mem_map]
    constructor
    · rintro ⟨e, he, heq⟩
      obtain ⟨rfl, rfl⟩ := Entry.mk.inj heq
      exact he
    · exact fun he => ⟨_, he, rfl⟩
  have hlayers (t : SsTable υ) (ht : t.slot? k = s.memTable.get? k) :
      (t :: s.ssTables).findSome? (·.slot? k) = s.slot? k := by
    rw [findSome?_cons, ht, slot?]
    cases s.memTable.get? k <;> rfl
  show Option.or none _ = _
  rw [Option.none_or]
  exact hlayers _ htable

theorem slot?_write (s : LsmStore υ) (key : Text) (slot : Slot υ) (k : Text) :
    (s.write rt key slot).slot? k = if k = key then some slot else s.slot? k := by
  rcases s.write_cases key slot with heq | ⟨sizeBytes, heq⟩ <;> rw [heq]
  · exact s.slot?_setMem key slot k
  · rw [slot?_flushed]
    exact s.slot?_setMem key slot k

/-- Entries that overwrite nothing. -/
theorem get?_underlay (entries : List (Entry υ)) (m : InsertionMap Text (Slot υ)) (k : Text) :
    (entries.foldl (fun merged e =>
        if (merged.get? e.key).isSome then merged else merged.set e.key e.slot) m).get? k
      = (m.get? k).or (entries.findSome? fun e => if e.key = k then some e.slot else none) := by
  induction entries generalizing m with
  | nil => rw [foldl_nil, findSome?_nil, Option.or_none]
  | cons e rest ih =>
    have hone : (if (m.get? e.key).isSome then m else m.set e.key e.slot).get? k
        = (m.get? k).or (if e.key = k then some e.slot else none) := by
      by_cases hk : e.key = k
      · subst hk
        rw [if_pos rfl]
        cases hget : m.get? e.key with
        | none => simp
        | some slot => simpa using hget
      · rw [if_neg hk, Option.or_none]
        split_ifs
        · rfl
        · exact get?_set_of_ne m e.slot (Ne.symm hk)
    rw [foldl_cons, ih, hone, Option.or_assoc, findSome?_cons]
    split_ifs <;> rfl

theorem findSome?_entries {t : SsTable υ} (ht : t.Built rt) (k : Text) :
    (t.entries.findSome? fun e => if e.key = k then some e.slot else none) = t.slot? k := by
  cases hfind : t.entries.findSome? fun e => if e.key = k then some e.slot else none with
  | none =>
    rw [findSome?_eq_none_iff] at hfind
    rw [eq_comm, Option.eq_none_iff_forall_not_mem]
    intro slot hslot
    have hno := hfind _ (ht.slot?_eq_some_iff.mp hslot)
    rw [if_pos rfl] at hno
    cases hno
  | some slot =>
    obtain ⟨e, he, heq⟩ := exists_of_findSome?_eq_some hfind
    rw [Option.ite_none_right_eq_some, Option.some.injEq] at heq
    obtain ⟨rfl, rfl⟩ := heq
    exact (ht.slot?_eq_some_iff.mpr he).symm

/-- The merge of tables holds what the first table with the key holds. -/
theorem get?_mergeNewest {tables : List (SsTable υ)} (hbuilt : ∀ t ∈ tables, t.Built rt)
    (k : Text) : (mergeNewest tables).get? k = tables.findSome? (·.slot? k) := by
  have hfold : ∀ m : InsertionMap Text (Slot υ),
      (tables.foldl (fun merged table => table.entries.foldl
        (fun merged e => if (merged.get? e.key).isSome then merged else merged.set e.key e.slot)
        merged) m).get? k = (m.get? k).or (tables.findSome? (·.slot? k)) := by
    induction tables with
    | nil =>
      intro m
      rw [foldl_nil, findSome?_nil, Option.or_none]
    | cons t rest ih =>
      intro m
      have hone := get?_underlay t.entries m k
      rw [findSome?_entries (hbuilt t mem_cons_self)] at hone
      rw [foldl_cons, ih fun t ht => hbuilt t (mem_cons_of_mem _ ht), hone,
        Option.or_assoc, findSome?_cons]
      cases t.slot? k <;> rfl
  exact hfold .empty

/-- All entries of the layers satisfy `P`. -/
structure AllEntries (P : Text → Slot υ → Prop) (s : LsmStore υ) : Prop where
  mem : ∀ k slot, s.memTable.get? k = some slot → P k slot
  tables : ∀ t ∈ s.ssTables, ∀ e ∈ t.entries, P e.key e.slot

variable {P : Text → Slot υ → Prop} {s s' : LsmStore υ}

theorem allEntries_new (maxMemTableSize : ℕ) : (new maxMemTableSize).AllEntries P := by
  constructor <;> simp [new]

theorem AllEntries.flushed (h : s.AllEntries P) (sizeBytes : ℕ) :
    (s.flushed rt sizeBytes).AllEntries P where
  mem := fun k slot hk => by cases hk
  tables := by
    intro t ht e he
    rcases mem_cons.mp ht with rfl | ht
    · obtain ⟨⟨k, slot⟩, hmem, rfl⟩ := mem_map.mp ((perm_sortEntries _).mem_iff.mp he)
      exact h.mem k slot (mem_entries_iff.mp hmem)
    · exact h.tables t ht e he

theorem AllEntries.write (h : s.AllEntries P) {key : Text} {slot : Slot υ} (hslot : P key slot) :
    (s.write rt key slot).AllEntries P := by
  have hset : (s.setMem key slot).AllEntries P := by
    refine ⟨fun k slot' hk => ?_, h.tables⟩
    have hget : (s.memTable.set key slot).get? k = some slot' := hk
    rw [get?_set] at hget
    split_ifs at hget with heq
    · rw [heq, ← Option.some.inj hget]
      exact hslot
    · exact h.mem k slot' hget
  rcases s.write_cases key slot with heq | ⟨sizeBytes, heq⟩ <;> rw [heq]
  · exact hset
  · exact hset.flushed sizeBytes

theorem AllEntries.compacts (hs : s.WellFormed rt) (h : s.AllEntries P) {n : ℕ}
    {newer same older : List (SsTable υ)} (hsplit : s.ssTables = newer ++ (same ++ older))
    (hs' : Compacts rt s n newer same older s') : s'.AllEntries P := by
  have hbuilt := hs.built
  have htables := h.tables
  rw [hsplit] at hbuilt htables
  have hrest : ∀ t ∈ newer ++ older, ∀ e ∈ t.entries, P e.key e.slot := by
    intro t ht
    apply htables
    simp only [mem_append] at ht ⊢
    tauto
  cases hs' with
  | purged => exact ⟨h.mem, hrest⟩
  | merged =>
    refine ⟨h.mem, forall_mem_insert hrest fun e he => ?_⟩
    -- what survives was in one of the merged tables
    obtain ⟨k, slot⟩ := e
    have hget := (mem_compactedEntries.mp ((perm_sortEntries _).mem_iff.mp he)).1
    rw [get?_mergeNewest fun t ht =>
      hbuilt t (mem_append_right _ (mem_append_left _ ht))] at hget
    obtain ⟨t, ht, hslot⟩ := exists_of_findSome?_eq_some hget
    have hmem := mem_append_right newer (mem_append_left older ht)
    exact htables t hmem _ ((hbuilt t hmem).slot?_eq_some_iff.mp hslot)

theorem AllEntries.of_slot? (hs : s.WellFormed rt) (h : s.AllEntries P) {k : Text}
    {slot : Slot υ} (hslot : s.slot? k = some slot) : P k slot := by
  rw [slot?, Option.or_eq_some_iff] at hslot
  rcases hslot with hmem | ⟨-, htable⟩
  · exact h.mem k slot hmem
  · obtain ⟨t, ht, hget⟩ := exists_of_findSome?_eq_some htable
    exact h.tables t ht _ ((hs.built t ht).slot?_eq_some_iff.mp hget)

end LsmStore

end Lumi.Lsm
