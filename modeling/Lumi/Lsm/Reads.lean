import Lumi.Lsm.Store

/-!
# What tables and the store answer

What a single table answers, and what a point read and a scan of the whole store do.
-/

open List InsertionMap

namespace Lumi.Lsm

open Js

/-! ## What a table answers

A table as a flush or a compaction builds it is sorted by the collation, its keys are
distinct, its range is that of its first and last entry, and its filter has the bit of
every key (`SsTable.Built`).

A point read comes past the filter and the range to a binary search by the collation.
It answers what the table holds if the key of an entry lies in the range, which is one
of code units, and if no other key that the collation does not tell apart from the one
read is found in its place (`SsTable.lookup_exact`).
-/

variable {υ : Type*} {rt : Runtime υ}

/-! ### The filter -/

theorem and_bloomBit_ne_zero (mask : ℕ) (key : Text) :
    mask &&& bloomBit key ≠ 0 ↔ mask.testBit (hash64 key % 64) = true := by
  unfold bloomBit
  rw [Nat.one_shiftLeft]
  constructor
  · intro h
    by_contra hbit
    apply h
    apply Nat.eq_of_testBit_eq
    intro i
    rw [Nat.testBit_and, Nat.testBit_two_pow, Nat.zero_testBit]
    by_cases hi : hash64 key % 64 = i
    · rw [← hi, Bool.eq_false_of_not_eq_true hbit, Bool.false_and]
    · rw [decide_eq_false hi, Bool.and_false]
  · intro hbit hzero
    have hboth : (mask &&& 2 ^ (hash64 key % 64)).testBit (hash64 key % 64) = true := by
      rw [Nat.testBit_and, hbit, Nat.testBit_two_pow_self, Bool.and_self]
    rw [hzero, Nat.zero_testBit] at hboth
    cases hboth

variable {entries : List (Entry υ)}

theorem testBit_bloomFilterMask {i : ℕ} :
    (bloomFilterMask entries).testBit i = true ↔ ∃ e ∈ entries, hash64 e.key % 64 = i := by
  have hfold : ∀ mask : ℕ,
      (entries.foldl (fun mask e => mask ||| bloomBit e.key) mask).testBit i = true ↔
        mask.testBit i = true ∨ ∃ e ∈ entries, hash64 e.key % 64 = i := by
    induction entries with
    | nil => simp
    | cons e rest ih =>
      intro mask
      rw [foldl_cons, ih, Nat.testBit_or, Bool.or_eq_true, bloomBit, Nat.one_shiftLeft,
        Nat.testBit_two_pow, decide_eq_true_eq, or_assoc, exists_mem_cons_iff]
  rw [bloomFilterMask, hfold, Nat.zero_testBit]
  simp

/-- The filter lets every key of the table pass. -/
theorem passes_bloomFilterMask {e : Entry υ} (he : e ∈ entries) :
    bloomFilterMask entries &&& bloomBit e.key ≠ 0 := by
  rw [and_bloomBit_ne_zero, testBit_bloomFilterMask]
  exact ⟨e, he, rfl⟩

/-! ### The search -/

theorem ascends_of_sorted (key : Text)
    (h : entries.Pairwise fun a b => (rt.localeCompare a.key b.key).isLE = true) :
    BinarySearch.Ascends (fun e => rt.localeCompare e.key key) entries := by
  have := rt.collates
  refine List.Pairwise.imp ?_ h
  intro a b hab
  refine ⟨fun hb => Std.TransCmp.lt_of_isLE_of_lt hab hb, fun ha => ?_⟩
  rw [Std.OrientedCmp.gt_iff_lt] at ha ⊢
  exact Std.TransCmp.lt_of_lt_of_isLE ha hab

theorem sorted_sortEntries (entries : List (Entry υ)) :
    (sortEntries rt entries).Pairwise
      fun a b => (rt.localeCompare a.key b.key).isLE = true := by
  have := rt.collates
  have htotal : Std.Total fun a b : Entry υ => (rt.localeCompare a.key b.key).isLE = true :=
    ⟨fun a b => by
      rw [← Std.OrientedCmp.isGE_iff_isLE]
      cases rt.localeCompare b.key a.key <;> simp⟩
  have htrans : IsTrans (Entry υ) fun a b => (rt.localeCompare a.key b.key).isLE = true :=
    ⟨fun a b c => Std.TransCmp.isLE_trans⟩
  exact pairwise_insertionSort _ _

theorem perm_sortEntries (entries : List (Entry υ)) : (sortEntries rt entries).Perm entries :=
  perm_insertionSort _ _

namespace SsTable

/-- What the table holds for a key. -/
def slot? (t : SsTable υ) (key : Text) : Option (Slot υ) :=
  (InsertionMap.ofList (t.entries.map fun e => (e.key, e.slot))).get? key

/-- A table as it is built. -/
structure Built (rt : Runtime υ) (t : SsTable υ) : Prop where
  sorted : t.entries.Pairwise fun a b => (rt.localeCompare a.key b.key).isLE = true
  distinct : (t.entries.map (·.key)).Nodup
  minKey : t.metadata.minKey = (t.entries.head?.map (·.key)).getD []
  maxKey : t.metadata.maxKey = (t.entries.getLast?.map (·.key)).getD []
  mask : t.metadata.bloomFilterMask = bloomFilterMask t.entries

theorem built_ofSorted {entries : List (Entry υ)} (hdistinct : (entries.map (·.key)).Nodup)
    (level tableId sizeBytes sequence : ℕ) :
    (ofSorted (sortEntries rt entries) level tableId sizeBytes sequence).Built rt where
  sorted := sorted_sortEntries entries
  distinct := ((perm_sortEntries entries).map _).nodup_iff.mpr hdistinct
  minKey := rfl
  maxKey := rfl
  mask := rfl

namespace Built

variable {t : SsTable υ}

variable {key : Text}

theorem slot?_eq_some_iff (h : t.Built rt) {slot : Slot υ} :
    t.slot? key = some slot ↔ ⟨key, slot⟩ ∈ t.entries := by
  have hnodup : ((t.entries.map fun e => (e.key, e.slot)).map Prod.fst).Nodup := by
    rw [map_map]
    exact h.distinct
  rw [slot?, get?_ofList_eq_some_iff hnodup, mem_map]
  constructor
  · rintro ⟨e, he, heq⟩
    obtain ⟨rfl, rfl⟩ := Prod.mk.inj heq
    exact he
  · exact fun he => ⟨_, he, rfl⟩

theorem binarySearch_eq_none_iff (h : t.Built rt) :
    binarySearch rt t.entries key = none ↔
      ∀ e ∈ t.entries, rt.localeCompare e.key key ≠ .eq :=
  BinarySearch.search_eq_none_iff (ascends_of_sorted key h.sorted)

/-- The search finds what the table holds, if the collation tells the key apart from the other
keys of the table. -/
theorem binarySearch_exact (h : t.Built rt)
    (halone : ∀ e ∈ t.entries, rt.localeCompare e.key key = .eq → e.key = key) :
    (binarySearch rt t.entries key).map (·.slot) = t.slot? key := by
  have := rt.collates
  cases hsearch : binarySearch rt t.entries key with
  | none =>
    rw [Option.map_none, eq_comm, Option.eq_none_iff_forall_not_mem]
    intro slot hslot
    have hmem := h.slot?_eq_some_iff.mp hslot
    exact h.binarySearch_eq_none_iff.mp hsearch _ hmem Std.ReflCmp.compare_self
  | some e =>
    obtain ⟨he, heq⟩ := BinarySearch.search_sound hsearch
    rw [Option.map_some, eq_comm, h.slot?_eq_some_iff, ← halone e he heq]
    exact he

/-- **A point read of a table.**  It answers what the table holds if the key, where it is one
of the table, lies in its range, and if a key that is found in its place is passed over. -/
theorem lookup_exact (h : t.Built rt) (hrange : ∀ e ∈ t.entries, e.key = key → t.InRange key)
    (halone : t.metadata.bloomFilterMask &&& bloomBit key ≠ 0 → t.InRange key →
      ∀ e ∈ t.entries, rt.localeCompare e.key key = .eq → e.key = key) :
    (t.lookup rt key).map (·.slot) = t.slot? key := by
  have habsent : (∀ e ∈ t.entries, e.key ≠ key) → t.slot? key = none := by
    intro hno
    rw [Option.eq_none_iff_forall_not_mem]
    intro slot hslot
    exact hno _ (h.slot?_eq_some_iff.mp hslot) rfl
  unfold lookup
  split_ifs with hbloom hout
  · rw [Option.map_none, habsent]
    rintro e he rfl
    rw [h.mask] at hbloom
    exact passes_bloomFilterMask he hbloom
  · rw [Option.map_none, habsent]
    intro e he heq
    obtain ⟨hmin, hmax⟩ := hrange e he heq
    rcases hout with hlt | hlt
    · exact hmin hlt
    · exact hmax hlt
  · have hin : t.InRange key := ⟨fun hlt => hout (.inl hlt), fun hlt => hout (.inr hlt)⟩
    exact h.binarySearch_exact (halone hbloom hin)

end Built

end SsTable

/-! ## What a point read and a scan answer

The store is a stack of layers, the memory table on top and then the tables from the
newest on; what it holds for a key is what the first layer with an entry of the key
holds (`LsmStore.slot?`), and nothing if that is a tombstone (`LsmStore.live?`).

The map a scan merges is this reading, layer over layer, so the scan lists the live
keys in order (`scan_firstLive`) whatever the collation is; only its upper bound is no
bound where it is empty.  A point read is the same reading as far as the tables answer
what they hold (`get_eq_live`).
-/

theorem findSome?_congr {α β : Type*} {f g : α → Option β} {l : List α}
    (h : ∀ a ∈ l, f a = g a) : l.findSome? f = l.findSome? g := by
  induction l with
  | nil => rfl
  | cons a rest ih =>
    rw [findSome?_cons, findSome?_cons, h a mem_cons_self,
      ih fun b hb => h b (mem_cons_of_mem _ hb)]

/-- The value of what is not a tombstone. -/
def Slot.live? (slot : Slot υ) : Option (Option υ) :=
  if slot.isTombstone then none else some slot.value

namespace LsmStore

/-- What the newest layer that has the key holds for it. -/
def slot? (s : LsmStore υ) (key : Text) : Option (Slot υ) :=
  (s.memTable.get? key).or (s.ssTables.findSome? (·.slot? key))

/-- The value of a key, which may be undefined. -/
def live? (s : LsmStore υ) (key : Text) : Option (Option υ) := (s.slot? key).bind Slot.live?

/-! ### Point reads -/

theorem get_of_key_empty (s : LsmStore υ) :
    s.get rt [] = .error (.typeError (text "key must be non-empty")) := rfl

variable {s : LsmStore υ}

/-- **Point reads.**  Where the tables answer what they hold, a point read gives the value of
the key. -/
theorem get_eq_live {key : Text} (hkey : key ≠ [])
    (hexact : ∀ t ∈ s.ssTables, (t.lookup rt key).map (·.slot) = t.slot? key) :
    s.get rt key = .ok (s.live? key).join := by
  have htables : (s.ssTables.findSome? (·.lookup rt key)).map (·.slot)
      = s.ssTables.findSome? (·.slot? key) := by
    rw [map_findSome?]
    exact findSome?_congr hexact
  unfold get
  rw [if_neg (fun h => hkey (length_eq_zero_iff.mp h)), live?, slot?, ← htables]
  cases s.memTable.get? key with
  | some slot =>
    simp only [Option.some_or, Option.bind_some, Slot.live?]
    cases slot.isTombstone <;> rfl
  | none =>
    simp only [Option.none_or]
    cases s.ssTables.findSome? (·.lookup rt key) with
    | none => rfl
    | some entry =>
      simp only [Option.map_some, Option.bind_some, Slot.live?]
      cases entry.slot.isTombstone <;> rfl

/-! ### The merge of a scan -/

theorem get?_overlay {t : SsTable υ} (ht : t.Built rt) (m : InsertionMap Text (Slot υ))
    (key : Text) :
    (t.entries.foldl (fun merged e => merged.set e.key e.slot) m).get? key
      = (t.slot? key).or (m.get? key) := by
  have hnodup : ((t.entries.map fun e => (e.key, e.slot)).map Prod.fst).Nodup := by
    rw [map_map]
    exact ht.distinct
  have hslot : t.slot? key
      = (InsertionMap.ofList (t.entries.map fun e => (e.key, e.slot))).get? key := rfl
  rw [InsertionMap.ofList, get?_foldl_set hnodup, get?_empty,
    Option.or_none] at hslot
  calc
    (t.entries.foldl (fun merged e => merged.set e.key e.slot) m).get? key
      = ((t.entries.map fun e => (e.key, e.slot)).foldl
          (fun merged e => merged.set e.1 e.2) m).get? key := by rw [foldl_map]
    _ = (t.slot? key).or (m.get? key) := by rw [hslot, get?_foldl_set hnodup]

theorem get?_merged (hbuilt : ∀ t ∈ s.ssTables, t.Built rt) (key : Text) :
    s.merged.get? key = s.slot? key := by
  have htables : ∀ tables : List (SsTable υ), (∀ t ∈ tables, t.Built rt) →
      (tables.foldr (fun (table : SsTable υ) (merged : InsertionMap Text (Slot υ)) =>
          table.entries.foldl (fun merged e => merged.set e.key e.slot) merged) .empty).get? key
        = tables.findSome? (·.slot? key) := by
    intro tables
    induction tables with
    | nil => exact fun _ => rfl
    | cons t rest ih =>
      intro h
      rw [foldr_cons, get?_overlay (h t mem_cons_self),
        ih fun t ht => h t (mem_cons_of_mem _ ht), findSome?_cons]
      cases t.slot? key <;> rfl
  unfold merged slot?
  rw [get?_foldl_set s.memTable.nodup, foldl_reverse, htables _ hbuilt]
  rfl

/-! ### Scans -/

section

variable (startKey endKey : Option Text)

/-- The key lies within the bounds that are given. -/
def InBounds (key : Text) : Prop :=
  (∀ lo ∈ startKey, lo ≤ key) ∧ ∀ hi ∈ endKey, key ≤ hi

/-- The first keys within the bounds that have a value, in order, with their values. -/
def FirstLive {β : Type*} (content : Text → Option β) (startKey endKey : Option Text) (limit : ℕ)
    (results : List (Text × β)) : Prop :=
  ∃ all : List (Text × β), all.Pairwise (fun a b => a.1 < b.1) ∧
    (∀ k v, (k, v) ∈ all ↔ InBounds startKey endKey k ∧ content k = some v) ∧
    results = all.take limit

/-- The arguments a scan accepts. -/
def ScanAccepted (limit : ℤ) : Prop :=
  0 ≤ limit ∧ limit ≤ maxSafeInteger ∧
    (limit = 0 ∨ ∀ lo ∈ startKey, ∀ hi ∈ endKey, lo ≤ hi)

/-- An upper bound that a scan heeds. -/
def effectiveEnd (endKey : Option Text) : Option Text := endKey.filter (· ≠ [])

/-- The loop of a scan passes over the key. -/
def passedOver (k : Text) : Bool :=
  startKey.any (fun startKey => startKey ≠ [] ∧ k < startKey) ||
    endKey.any (fun endKey => endKey ≠ [] ∧ endKey < k)

end

/-- What the loop of a scan lists for a key. -/
def listed (merged : InsertionMap Text (Slot υ)) (startKey endKey : Option Text) (k : Text) :
    Option (Text × Option υ) :=
  if passedOver startKey endKey k then none else ((merged.get? k).bind Slot.live?).map (k, ·)

variable {startKey endKey : Option Text}

theorem passedOver_eq_false_iff {k : Text} :
    passedOver startKey endKey k = false ↔ InBounds startKey (effectiveEnd endKey) k := by
  have hlow : ∀ lo : Text, (lo = [] ∨ lo ≤ k) ↔ lo ≤ k := fun lo =>
    or_iff_right_of_imp fun hlo => hlo ▸ nil_le k
  cases startKey <;> cases endKey <;>
    simp [passedOver, InBounds, effectiveEnd, Option.any, List.not_lt, ← or_iff_not_imp_left, hlow]

theorem collect_eq (m : InsertionMap Text (Slot υ)) (startKey endKey : Option Text) {limit : ℕ}
    {results : List (Text × Option υ)} (hresults : results.length < limit) (keys : List Text) :
    collect m startKey endKey limit results keys
      = (results ++ keys.filterMap (listed m startKey endKey)).take limit := by
  induction keys generalizing results with
  | nil => rw [collect, filterMap_nil, append_nil, take_of_length_le hresults.le]
  | cons k rest ih =>
    rw [collect, filterMap_cons, listed, passedOver]
    cases hlo : startKey.any fun startKey => startKey ≠ [] ∧ k < startKey with
    | true => simpa using ih hresults
    | false =>
      cases hhi : endKey.any fun endKey => endKey ≠ [] ∧ endKey < k with
      | true => simpa using ih hresults
      | false =>
        simp only [Bool.false_eq_true, if_false, Bool.or_false]
        cases m.get? k with
        | none => simpa using ih hresults
        | some slot =>
          obtain ⟨value, _ | _⟩ := slot
          · simp only [Option.bind_some, Slot.live?, Bool.false_eq_true, if_false,
              Option.map_some]
            rw [append_cons results (k, value) (List.filterMap _ rest)]
            split_ifs with hfull
            · have hlength : (results ++ [(k, value)]).length = limit := by
                rw [length_append, length_singleton] at hfull ⊢
                omega
              rw [← hlength, take_left]
            · exact ih (Nat.lt_of_not_le hfull)
          · simpa [Slot.live?] using ih hresults

theorem mem_filterMap_listed {m : InsertionMap Text (Slot υ)} {keys : List Text}
    (hkeys : ∀ k, k ∈ keys ↔ k ∈ m.keys) {k : Text} {v : Option υ} :
    (k, v) ∈ keys.filterMap (listed m startKey endKey) ↔
      InBounds startKey (effectiveEnd endKey) k ∧ (m.get? k).bind Slot.live? = some v := by
  rw [mem_filterMap, ← passedOver_eq_false_iff]
  constructor
  · rintro ⟨k', -, heq⟩
    rw [listed, Option.ite_none_left_eq_some, Option.map_eq_some_iff] at heq
    obtain ⟨hpass, w, hw, heq⟩ := heq
    obtain ⟨rfl, rfl⟩ := Prod.mk.inj heq
    exact ⟨Bool.eq_false_of_not_eq_true hpass, hw⟩
  · rintro ⟨hpass, hv⟩
    refine ⟨k, (hkeys k).mpr (mem_keys_iff.mpr ?_), ?_⟩
    · obtain ⟨slot, hslot, -⟩ := Option.bind_eq_some_iff.mp hv
      exact ⟨slot, hslot⟩
    · rw [listed, hpass, hv]
      rfl

theorem pairwise_filterMap_listed {m : InsertionMap Text (Slot υ)} {keys : List Text}
    (h : keys.Pairwise (· < ·)) :
    (keys.filterMap (listed m startKey endKey)).Pairwise fun a b => a.1 < b.1 := by
  refine List.Pairwise.filterMap _ ?_ h
  intro k k' hlt a ha b hb
  have hfst : ∀ {k : Text} {a : Text × Option υ}, a ∈ listed m startKey endKey k → a.1 = k := by
    intro k a ha
    rw [Option.mem_def, listed, Option.ite_none_left_eq_some, Option.map_eq_some_iff] at ha
    obtain ⟨-, -, -, rfl⟩ := ha
    rfl
  rw [hfst ha, hfst hb]
  exact hlt

/-- The keys as a scan sorts them, by code units. -/
theorem pairwise_sortedKeys (m : InsertionMap Text (Slot υ)) :
    (m.keys.insertionSort (· ≤ ·)).Pairwise (· < ·) := by
  have htotal : Std.Total fun a b : Text => a ≤ b := ⟨List.le_total⟩
  have htrans : IsTrans Text fun a b => a ≤ b := ⟨fun _ _ _ => List.le_trans⟩
  have hle := pairwise_insertionSort (· ≤ ·) m.keys
  have hne : (m.keys.insertionSort (· ≤ ·)).Nodup :=
    (perm_insertionSort _ _).nodup_iff.mpr m.nodup
  refine (hle.and hne).imp ?_
  rintro a b ⟨hab, hneq⟩
  rw [← List.not_le]
  exact fun hba => hneq (List.le_antisymm hab hba)

/-- **Scans.**  A scan that is accepted lists the first live keys within its bounds, but an empty
upper bound is no bound. -/
theorem scan_firstLive (hbuilt : ∀ t ∈ s.ssTables, t.Built rt) {limit : ℤ}
    (h : ScanAccepted startKey endKey limit) :
    ∃ results, s.scan startKey endKey limit = .ok results ∧
      FirstLive s.live? startKey (effectiveEnd endKey) limit.toNat results := by
  obtain ⟨hpos, hsafe, hbounds⟩ := h
  let all := (s.merged.keys.insertionSort (· ≤ ·)).filterMap (listed s.merged startKey endKey)
  have hall : all.Pairwise (fun a b => a.1 < b.1) ∧ ∀ k v, (k, v) ∈ all ↔
      InBounds startKey (effectiveEnd endKey) k ∧ s.live? k = some v := by
    refine ⟨pairwise_filterMap_listed (pairwise_sortedKeys s.merged), fun k v => ?_⟩
    rw [mem_filterMap_listed fun k => (perm_insertionSort _ _).mem_iff, get?_merged hbuilt]
    rfl
  refine ⟨all.take limit.toNat, ?_, all, hall.1, hall.2, rfl⟩
  unfold scan
  rw [if_neg (not_not.mpr ⟨hsafe, hpos⟩)]
  split_ifs with hzero hreversed
  · rw [hzero]
    rfl
  · exfalso
    simp only [Option.any_eq_true, decide_eq_true_eq] at hreversed
    obtain ⟨lo, hlo, hi, hhi, hlt⟩ := hreversed
    exact (hbounds.resolve_left hzero) lo hlo hi hhi hlt
  · have hlimit : ([] : List (Text × Option υ)).length < limit.toNat := by
      rw [length_nil]
      omega
    exact congrArg Except.ok (collect_eq _ _ _ hlimit _)

theorem scan_rejects {limit : ℤ} (h : ¬ ScanAccepted startKey endKey limit) :
    ∃ message, s.scan startKey endKey limit = .error (.rangeError message) := by
  unfold scan
  by_cases hlimit : limit ≤ maxSafeInteger ∧ 0 ≤ limit
  · rw [if_neg (not_not.mpr hlimit)]
    split_ifs with hzero hreversed
    · exact absurd ⟨hlimit.2, hlimit.1, .inl hzero⟩ h
    · exact ⟨_, rfl⟩
    · refine absurd ⟨hlimit.2, hlimit.1, .inr ?_⟩ h
      intro lo hlo hi hhi hlt
      apply hreversed
      simp only [Option.any_eq_true, decide_eq_true_eq]
      exact ⟨lo, hlo, hi, hhi, hlt⟩
  · exact ⟨_, if_pos hlimit⟩

end LsmStore

end Lumi.Lsm
