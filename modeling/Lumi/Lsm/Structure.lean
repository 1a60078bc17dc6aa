import Lumi.Lib.Run
import Lumi.Lsm.Reads

/-!
# The order of the tables

A table is newer than those after it and on no higher level (`LsmStore.WellFormed`): a
flush puts its table in front, on level 0, and a compaction takes every table of its
level.  The tables of a level are therefore a segment of the list, those of the lower
levels stand before it and those of the higher levels after it, and the table that a
compaction makes takes the place of the segment (`compact_cases`).
-/

namespace Lumi.Lsm

open Js List

variable {υ : Type*} {rt : Runtime υ}

/-! ## Sorting by sequence number -/

/-- The tables are strictly descending by sequence number. -/
def Descending (tables : List (SsTable υ)) : Prop :=
  tables.Pairwise fun a b => b.sequence < a.sequence

theorem sortTables_eq_of_perm {tables tables' : List (SsTable υ)} (hperm : tables.Perm tables')
    (h : Descending tables') : sortTables tables = tables' := by
  have htotal : Std.Total fun a b : SsTable υ => b.sequence ≤ a.sequence :=
    ⟨fun a b => Nat.le_total _ _⟩
  have htrans : IsTrans (SsTable υ) fun a b => b.sequence ≤ a.sequence :=
    ⟨fun a b c hab hbc => Nat.le_trans hbc hab⟩
  have hperm' : (sortTables tables).Perm tables' := (perm_insertionSort _ _).trans hperm
  refine List.Perm.eq_of_pairwise ?_ (pairwise_insertionSort _ _)
    (h.imp fun hlt => Nat.le_of_lt hlt) hperm'
  intro a b ha hb hba hab
  -- equal sequence numbers belong to one table
  have hnodup : (tables'.map (·.sequence)).Nodup :=
    pairwise_map.mpr (h.imp fun hlt => Nat.ne_of_gt hlt)
  exact inj_on_of_nodup_map hnodup (hperm'.mem_iff.mp ha) hb (Nat.le_antisymm hab hba)

/-- A list ascending by level falls into the part below a level, the part on it and the part
above it. -/
theorem eq_append_of_ascending {α : Type*} {f : α → ℕ} {l : List α}
    (h : l.Pairwise fun a b => f a ≤ f b) (n : ℕ) :
    l = l.filter (fun a => f a < n)
      ++ (l.filter (fun a => f a = n) ++ l.filter fun a => n < f a) := by
  induction l with
  | nil => rfl
  | cons a rest ih =>
    rw [pairwise_cons] at h
    have hrest := ih h.2
    rcases Nat.lt_trichotomy (f a) n with hlt | heq | hgt
    · simp only [filter_cons, decide_eq_true hlt, decide_eq_false (Nat.ne_of_lt hlt),
        decide_eq_false (Nat.lt_asymm hlt), if_true, Bool.false_eq_true, if_false,
        cons_append, ← hrest]
    · have hbelow : rest.filter (fun a => f a < n) = [] := by
        rw [filter_eq_nil_iff]
        intro b hb
        have := h.1 b hb
        simp only [decide_eq_true_eq]
        omega
      rw [hbelow, nil_append] at hrest
      simp only [filter_cons, heq, Nat.lt_irrefl, decide_false, decide_true, if_true,
        Bool.false_eq_true, if_false, hbelow, nil_append, cons_append, ← hrest]
    · have hbelow :
          rest.filter (fun a => f a < n) = [] ∧ rest.filter (fun a => f a = n) = [] := by
        constructor
        all_goals
          rw [filter_eq_nil_iff]
          intro b hb
          have := h.1 b hb
          simp only [decide_eq_true_eq]
          omega
      rw [hbelow.1, hbelow.2, nil_append, nil_append] at hrest
      simp only [filter_cons, hgt, decide_eq_false (Nat.lt_asymm hgt),
        decide_eq_false (Nat.ne_of_gt hgt), decide_true, if_true, Bool.false_eq_true, if_false,
        hbelow.1, hbelow.2, nil_append, ← hrest]

/-! ## What every call keeps -/

namespace LsmStore

structure WellFormed (rt : Runtime υ) (s : LsmStore υ) : Prop where
  built : ∀ t ∈ s.ssTables, t.Built rt
  descending : Descending s.ssTables
  ascending : s.ssTables.Pairwise fun a b => a.metadata.level ≤ b.metadata.level
  sequence_lt : ∀ t ∈ s.ssTables, t.sequence < s.nextSequence
  distinct : s.ssTables.Pairwise fun a b => a.metadata.tableId ≠ b.metadata.tableId
  tableId_lt : ∀ t ∈ s.ssTables, t.metadata.tableId < s.nextTableId

theorem wellFormed_new (maxMemTableSize : ℕ) :
    (new maxMemTableSize : LsmStore υ).WellFormed rt := by
  constructor <;> simp [new, Descending]

/-- What a compaction leaves of the tables it merges. -/
def survivors (rt : Runtime υ) (newer same older : List (SsTable υ)) : List (Entry υ) :=
  compactedEntries rt (newer ++ older) (mergeNewest same)

/-- A compaction of the tables between `newer` and `older`. -/
inductive Compacts (rt : Runtime υ) (s : LsmStore υ) (level : ℕ)
    (newer same older : List (SsTable υ)) : LsmStore υ → Prop
  | purged (hnone : survivors rt newer same older = []) :
      Compacts rt s level newer same older { s with ssTables := newer ++ older }
  | merged (sizeBytes sequence : ℕ) (hsequence : sequence ∈ same.map (·.sequence)) :
      Compacts rt s level newer same older
        { s with
          ssTables := newer ++ SsTable.ofSorted (sortEntries rt (survivors rt newer same older))
            (level + 1) s.nextTableId sizeBytes sequence :: older
          nextTableId := s.nextTableId + 1 }

theorem pairwise_insert {R : SsTable υ → SsTable υ → Prop} {newer older : List (SsTable υ)}
    {t : SsTable υ} (h : (newer ++ older).Pairwise R) (hnewer : ∀ a ∈ newer, R a t)
    (holder : ∀ b ∈ older, R t b) : (newer ++ t :: older).Pairwise R := by
  rw [pairwise_append] at h ⊢
  refine ⟨h.1, pairwise_cons.mpr ⟨holder, h.2.1⟩, fun a ha b hb => ?_⟩
  rcases mem_cons.mp hb with rfl | hb
  · exact hnewer a ha
  · exact h.2.2 a ha b hb

theorem forall_mem_insert {P : SsTable υ → Prop} {newer older : List (SsTable υ)} {t : SsTable υ}
    (h : ∀ a ∈ newer ++ older, P a) (ht : P t) : ∀ a ∈ newer ++ t :: older, P a := by
  intro a ha
  rcases mem_cons.mp (perm_middle.mem_iff.mp ha) with rfl | ha
  · exact ht
  · exact h a ha

theorem mem_pair_of_append {R : SsTable υ → SsTable υ → Prop} {newer same older : List (SsTable υ)}
    (h : (newer ++ (same ++ older)).Pairwise R) :
    (newer ++ older).Pairwise R ∧ (∀ a ∈ newer, ∀ b ∈ same, R a b) ∧
      ∀ a ∈ same, ∀ b ∈ older, R a b := by
  rw [pairwise_append, pairwise_append] at h
  obtain ⟨hnewer, ⟨-, holder, hso⟩, hn⟩ := h
  refine ⟨pairwise_append.mpr ⟨hnewer, holder, fun a ha b hb => ?_⟩, fun a ha b hb => ?_, hso⟩
  · exact hn a ha b (mem_append_right _ hb)
  · exact hn a ha b (mem_append_left _ hb)

variable {s s' : LsmStore υ}

/-- **Compaction.**  It changes nothing, or replaces the tables of its level, a segment of the
list, by one table with what survives of them, or by none. -/
theorem compact_cases (hs : s.WellFormed rt) {level : ℤ} {stats : CompactionStats}
    (h : s.compact rt level = .ok (stats, s')) :
    s' = s ∨ ∃ (n : ℕ) (newer same older : List (SsTable υ)),
      s.ssTables = newer ++ (same ++ older) ∧ (∀ t ∈ newer, t.metadata.level < n) ∧
        (∀ t ∈ same, t.metadata.level = n) ∧ (∀ t ∈ older, n < t.metadata.level) ∧
          Compacts rt s n newer same older s' := by
  unfold compact at h
  by_cases hlevel : level ≤ maxSafeInteger ∧ 0 ≤ level
  · rw [if_neg (not_not.mpr hlevel)] at h
    obtain ⟨n, rfl⟩ := Int.eq_ofNat_of_zero_le hlevel.2
    let newer := s.ssTables.filter fun t => t.metadata.level < n
    let same := s.ssTables.filter fun t => t.metadata.level = n
    let older := s.ssTables.filter fun t => n < t.metadata.level
    have hsplit : s.ssTables = newer ++ (same ++ older) := eq_append_of_ascending hs.ascending n
    have hcandidates :
        sortTables (s.ssTables.filter fun t => (t.metadata.level : ℤ) = n) = same := by
      have hfilter : (s.ssTables.filter fun t => (t.metadata.level : ℤ) = n) = same := by
        simp only [Int.natCast_inj]
        rfl
      rw [hfilter]
      exact sortTables_eq_of_perm (List.Perm.refl _) (hs.descending.sublist filter_sublist)
    have hremaining :
        (s.ssTables.filter fun t => t.metadata.tableId ∉ same.map (·.metadata.tableId))
          = newer ++ older := by
      obtain ⟨-, hns, hso⟩ := mem_pair_of_append (hsplit ▸ hs.distinct)
      have hnewer : newer.filter (fun t => t.metadata.tableId ∉ same.map (·.metadata.tableId))
          = newer := by
        rw [filter_eq_self]
        intro t ht
        rw [decide_eq_true_eq, mem_map]
        rintro ⟨t', ht', heq⟩
        exact hns t ht t' ht' heq.symm
      have hsame : same.filter (fun t => t.metadata.tableId ∉ same.map (·.metadata.tableId))
          = [] := by
        rw [filter_eq_nil_iff]
        intro t ht
        rw [decide_eq_true_eq, not_not]
        exact mem_map_of_mem ht
      have holder : older.filter (fun t => t.metadata.tableId ∉ same.map (·.metadata.tableId))
          = older := by
        rw [filter_eq_self]
        intro t ht
        rw [decide_eq_true_eq, mem_map]
        rintro ⟨t', ht', heq⟩
        exact hso t' ht' t ht heq
      rw [hsplit, filter_append, filter_append, hnewer, hsame, holder, nil_append]
    rw [hcandidates] at h
    dsimp only at h
    rw [hremaining] at h
    have hpairs := mem_pair_of_append (hsplit ▸ hs.descending)
    have hresult : ∀ s', Compacts rt s n newer same older s' → s' = s ∨
        ∃ (n : ℕ) (newer same older : List (SsTable υ)),
          s.ssTables = newer ++ (same ++ older) ∧ (∀ t ∈ newer, t.metadata.level < n) ∧
            (∀ t ∈ same, t.metadata.level = n) ∧ (∀ t ∈ older, n < t.metadata.level) ∧
              Compacts rt s n newer same older s' := fun s' hs' =>
      Or.inr ⟨n, newer, same, older, hsplit,
        fun t ht => of_decide_eq_true (mem_filter.mp ht).2,
        fun t ht => of_decide_eq_true (mem_filter.mp ht).2,
        fun t ht => of_decide_eq_true (mem_filter.mp ht).2, hs'⟩
    split_ifs at h with hfew hkept
    · exact .inl (Prod.mk.inj (Except.ok.inj h)).2.symm
    · split at h
      · cases h
      · next sizeBytes _ =>
        rw [← (Prod.mk.inj (Except.ok.inj h)).2]
        apply hresult
        obtain ⟨sequence, hmax⟩ : ∃ sequence, (same.map (·.sequence)).max? = some sequence := by
          rw [← Option.ne_none_iff_exists', Ne, max?_eq_none_iff, map_eq_nil_iff]
          intro hnil
          rw [hnil] at hfew
          exact hfew (Nat.zero_lt_two)
        have hsequence := max?_mem hmax
        obtain ⟨c, hc, hcs⟩ := mem_map.mp hsequence
        rw [hmax, Option.getD_some]
        -- the table stands where the tables stood whose newest number it has
        rw [sortTables_eq_of_perm (perm_append_comm.trans (by
          rw [singleton_append]
          exact perm_middle.symm))
          (pairwise_insert hpairs.1 (fun a ha => ?_) fun b hb => ?_)]
        · exact Compacts.merged sizeBytes sequence hsequence
        · show sequence < a.sequence
          rw [← hcs]
          exact hpairs.2.1 a ha c hc
        · show b.sequence < sequence
          rw [← hcs]
          exact hpairs.2.2 c hc b hb
    · rw [← (Prod.mk.inj (Except.ok.inj h)).2]
      apply hresult
      rw [sortTables_eq_of_perm (List.Perm.refl _) hpairs.1]
      refine Compacts.purged ?_
      rw [← length_eq_zero_iff, ← (perm_sortEntries _).length_eq]
      exact Nat.eq_zero_of_not_pos hkept
  · rw [if_pos hlevel] at h
    cases h

/-! ## The entries a compaction keeps -/

variable {key : Text}

theorem mem_compactedEntries {remaining : List (SsTable υ)} {m : InsertionMap Text (Slot υ)}
    {slot : Slot υ} :
    ⟨key, slot⟩ ∈ compactedEntries rt remaining m ↔
      m.get? key = some slot ∧ (slot.isTombstone = true → tablesContainKey rt remaining key) := by
  rw [compactedEntries, mem_filterMap]
  constructor
  · rintro ⟨⟨k, v⟩, hmem, heq⟩
    rw [Option.ite_none_left_eq_some, Option.some.injEq, Entry.mk.injEq] at heq
    obtain ⟨hkept, rfl, rfl⟩ := heq
    exact ⟨InsertionMap.mem_entries_iff.mp hmem, by tauto⟩
  · rintro ⟨hget, hkept⟩
    refine ⟨(key, slot), InsertionMap.mem_entries_iff.mpr hget, ?_⟩
    dsimp only
    rw [if_neg (by tauto)]

theorem nodup_compactedEntries (remaining : List (SsTable υ)) (m : InsertionMap Text (Slot υ)) :
    ((compactedEntries rt remaining m).map (·.key)).Nodup := by
  have hkeys : ((compactedEntries rt remaining m).map (·.key)).Sublist m.keys := by
    unfold compactedEntries InsertionMap.keys
    generalize m.entries = entries
    induction entries with
    | nil => exact List.Sublist.refl _
    | cons e rest ih =>
      rw [filterMap_cons, map_cons]
      dsimp only
      split_ifs
      · exact ih.cons _
      · exact ih.cons_cons _
  exact hkeys.nodup m.nodup

/-! ## Flushes and writes -/

/-- The store after a flush that made a table. -/
def flushed (rt : Runtime υ) (s : LsmStore υ) (sizeBytes : ℕ) : LsmStore υ :=
  { s with
    memTable := .empty
    ssTables := SsTable.ofSorted (sortEntries rt (s.memTable.entries.map fun (k, v) => ⟨k, v⟩)) 0
      s.nextTableId sizeBytes s.nextSequence :: s.ssTables
    nextSequence := s.nextSequence + 1
    nextTableId := s.nextTableId + 1 }

theorem flushMemTable_cases {m : Option SsTableMeta} (h : s.flushMemTable rt = .ok (m, s')) :
    s' = s ∨ ∃ sizeBytes, s' = s.flushed rt sizeBytes := by
  unfold flushMemTable at h
  split_ifs at h
  · exact .inl (Prod.mk.inj (Except.ok.inj h)).2.symm
  · dsimp only at h
    split at h
    · cases h
    · exact .inr ⟨_, (Prod.mk.inj (Except.ok.inj h)).2.symm⟩

/-- The store with an entry in the memory table, before it may be flushed. -/
def setMem (s : LsmStore υ) (key : Text) (slot : Slot υ) : LsmStore υ :=
  { s with memTable := s.memTable.set key slot }

theorem write_cases (s : LsmStore υ) (key : Text) (slot : Slot υ) :
    s.write rt key slot = s.setMem key slot ∨
      ∃ sizeBytes, s.write rt key slot = (s.setMem key slot).flushed rt sizeBytes := by
  unfold write
  dsimp only
  split_ifs
  · split
    · next hflush => exact flushMemTable_cases hflush
    · exact .inl rfl
  · exact .inl rfl

theorem nodup_memEntries (s : LsmStore υ) :
    ((s.memTable.entries.map fun (k, v) => (⟨k, v⟩ : Entry υ)).map (·.key)).Nodup := by
  rw [map_map]
  exact s.memTable.nodup

/-! ## Every call keeps the structure -/

variable {s : LsmStore υ}

section

variable (h : s.WellFormed rt)
include h

theorem WellFormed.setMem (key : Text) (slot : Slot υ) : (s.setMem key slot).WellFormed rt :=
  ⟨h.built, h.descending, h.ascending, h.sequence_lt, h.distinct, h.tableId_lt⟩

theorem WellFormed.flushed (sizeBytes : ℕ) :
    (s.flushed rt sizeBytes).WellFormed rt where
  built := by
    intro t ht
    rcases mem_cons.mp ht with rfl | ht
    · exact SsTable.built_ofSorted s.nodup_memEntries _ _ _ _
    · exact h.built t ht
  descending := pairwise_cons.mpr ⟨h.sequence_lt, h.descending⟩
  ascending := pairwise_cons.mpr ⟨fun _ _ => Nat.zero_le _, h.ascending⟩
  sequence_lt := by
    intro t ht
    rcases mem_cons.mp ht with rfl | ht
    · exact Nat.lt_succ_self _
    · exact Nat.lt_succ_of_lt (h.sequence_lt t ht)
  distinct := pairwise_cons.mpr
    ⟨fun t ht => (Nat.ne_of_lt (h.tableId_lt t ht)).symm, h.distinct⟩
  tableId_lt := by
    intro t ht
    rcases mem_cons.mp ht with rfl | ht
    · exact Nat.lt_succ_self _
    · exact Nat.lt_succ_of_lt (h.tableId_lt t ht)

theorem WellFormed.write (key : Text) (slot : Slot υ) : (s.write rt key slot).WellFormed rt := by
  rcases s.write_cases key slot with heq | ⟨sizeBytes, heq⟩ <;> rw [heq]
  · exact h.setMem key slot
  · exact (h.setMem key slot).flushed sizeBytes

theorem WellFormed.compacts {n : ℕ} {newer same older : List (SsTable υ)}
    (hsplit : s.ssTables = newer ++ (same ++ older)) (hnewer : ∀ t ∈ newer, t.metadata.level < n)
    (holder : ∀ t ∈ older, n < t.metadata.level) (hs' : Compacts rt s n newer same older s') :
    s'.WellFormed rt := by
  obtain ⟨hbuilt, hdesc, hasc, hseq, hdist, hid⟩ := h
  rw [hsplit] at hbuilt hdesc hasc hseq hdist hid
  have hmem : ∀ t ∈ newer ++ older, t ∈ newer ++ (same ++ older) := by
    intro t ht
    simp only [mem_append] at ht ⊢
    tauto
  obtain ⟨hdescRest, hdescN, hdescO⟩ := mem_pair_of_append hdesc
  have hascRest := (mem_pair_of_append hasc).1
  have hdistRest := (mem_pair_of_append hdist).1
  cases hs' with
  | purged =>
    exact ⟨fun t ht => hbuilt t (hmem t ht), hdescRest, hascRest,
      fun t ht => hseq t (hmem t ht), hdistRest, fun t ht => hid t (hmem t ht)⟩
  | merged sizeBytes sequence hsequence =>
    obtain ⟨c, hc, rfl⟩ := mem_map.mp hsequence
    refine
      { built := forall_mem_insert (fun t ht => hbuilt t (hmem t ht)) ?_
        descending := pairwise_insert hdescRest (fun a ha => hdescN a ha c hc) (hdescO c hc)
        ascending := pairwise_insert hascRest (fun a ha => ?_) (fun b hb => holder b hb)
        sequence_lt := forall_mem_insert (fun t ht => hseq t (hmem t ht)) (hseq c ?_)
        distinct := pairwise_insert hdistRest (fun a ha => ?_) (fun b hb => ?_)
        tableId_lt := forall_mem_insert (fun t ht => Nat.lt_succ_of_lt (hid t (hmem t ht)))
          (Nat.lt_succ_self _) }
    · exact SsTable.built_ofSorted (nodup_compactedEntries _ _) _ _ _ _
    · exact Nat.le_succ_of_le (hnewer a ha).le
    · exact mem_append_right _ (mem_append_left _ hc)
    · exact Nat.ne_of_lt (hid a (hmem a (mem_append_left _ ha)))
    · exact (Nat.ne_of_lt (hid b (hmem b (mem_append_right _ hb)))).symm

end

/-! ## Steps -/

theorem step_put (s : LsmStore υ) (hkey : key ≠ []) (value : Option υ) :
    s.step rt (.put key value) = s.write rt key ⟨value, false⟩ := by
  rw [step, put, if_neg fun h => hkey (length_eq_zero_iff.mp h)]

theorem step_delete_of_get {value : υ} (h : s.get rt key = .ok (some value)) :
    s.step rt (.delete key) = s.write rt key ⟨none, true⟩ := by
  rw [step, delete, h]

theorem step_delete_of_not (h : ∀ value, s.get rt key ≠ .ok (some value)) :
    s.step rt (.delete key) = s := by
  rw [step, delete]
  cases hget : s.get rt key with
  | error e => rfl
  | ok value =>
    cases value with
    | none => rfl
    | some value => exact absurd hget (h value)

theorem key_ne_of_get {value : Option υ} (h : s.get rt key = .ok value) : key ≠ [] := by
  rintro rfl
  rw [get_of_key_empty] at h
  cases h

/-- What a call can do. -/
theorem step_cases (s : LsmStore υ) (op : Op υ) :
    s.step rt op = s ∨
    (∃ key slot, key ≠ [] ∧ (slot.isTombstone = true ∨ op = .put key slot.value) ∧
      s.step rt op = s.write rt key slot) ∨
    (∃ sizeBytes, s.step rt op = s.flushed rt sizeBytes) ∨
    ∃ level stats, s.compact rt level = .ok (stats, s.step rt op) := by
  cases op with
  | put key value =>
    by_cases hkey : key = []
    · exact .inl (by rw [hkey]; rfl)
    · exact .inr (.inl ⟨key, _, hkey, .inr rfl, step_put s hkey value⟩)
  | delete key =>
    by_cases hget : ∃ value, s.get rt key = .ok (some value)
    · obtain ⟨value, hget⟩ := hget
      exact .inr (Or.inl
        ⟨key, _, key_ne_of_get hget, .inl rfl, step_delete_of_get hget⟩)
    · exact .inl (step_delete_of_not fun value h => hget ⟨value, h⟩)
  | flushMemTable =>
    rw [step]
    split
    · next hflush =>
      rcases flushMemTable_cases hflush with heq | hflushed
      · exact .inl heq
      · exact .inr (.inr (.inl hflushed))
    · exact .inl rfl
  | compact level =>
    rw [step]
    split
    · next stats s' hcompact => exact .inr (.inr (.inr ⟨level, stats, hcompact⟩))
    · exact .inl rfl

/-- **Every call keeps the order of the tables.** -/
theorem WellFormed.step (h : s.WellFormed rt) (op : Op υ) : (s.step rt op).WellFormed rt := by
  rcases s.step_cases op with
    heq | ⟨key, slot, -, -, heq⟩ | ⟨sizeBytes, heq⟩ | ⟨level, stats, hcompact⟩
  · rw [heq]
    exact h
  · rw [heq]
    exact h.write key slot
  · rw [heq]
    exact h.flushed sizeBytes
  · rcases compact_cases h hcompact with heq | ⟨n, newer, same, older, hsplit, hn, -, ho, hs'⟩
    · rw [heq]
      exact h
    · exact h.compacts hsplit hn ho hs'

/-- **The tables stay in order.**  Whatever is called, the tables are descending by sequence number
and ascending by level, no two have one id, and each is sorted, has no key twice, and knows its
first key, its last key and the bits of its filter. -/
theorem tables_stay_ordered (maxMemTableSize : ℕ) (ops : List (Op υ)) :
    Run.Always (step rt) (WellFormed rt) (new maxMemTableSize) ops :=
  Run.always_of_invariant (fun _ op h => h.step op) (wellFormed_new maxMemTableSize) ops

end LsmStore

end Lumi.Lsm
