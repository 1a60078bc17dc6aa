import Lumi.Lsm.Entries

/-!
# The store refines a map

The layers of the store hold, for every key, what the calls wrote last.  A write puts
an entry on top; a flush turns the top layer into a table with the same entries; a
compaction merges a segment of the tables, in their order, and drops a tombstone only
where no other table has the key, so that nothing older comes to light.

The point reads see this as far as the tables answer what they hold, which they do on
keys that the collation and the order of code units order alike: there the range of a
table is that of all its keys, and only the key itself is found in its place.
-/

namespace Lumi.Lsm

open Js Run List

variable {υ : Type*} {rt : Runtime υ} {K : Set Text}

/-- On the keys of `K` the collation is the order of code units. -/
def Runtime.AgreesOn (rt : Runtime υ) (K : Set Text) : Prop :=
  ∀ a ∈ K, ∀ b ∈ K, (rt.localeCompare a b = .lt ↔ a < b) ∧ (rt.localeCompare a b = .eq ↔ a = b)

/-- The call is about a key of `K`, and does not put an undefined value. -/
def Op.Over (K : Set Text) : Op υ → Prop
  | .put key value => key ∈ K ∧ value ≠ none
  | .delete key => key ∈ K
  | .flushMemTable => True
  | .compact _ => True

/-- What a call does to a map of keys to values. -/
def Op.apply (content : Text → Option υ) : Op υ → Text → Option υ
  | .put key value => if key = [] then content else Function.update content key value
  | .delete key => Function.update content key none
  | .flushMemTable => content
  | .compact _ => content

/-- The values put last and not deleted since. -/
def latest (ops : List (Op υ)) : Text → Option υ := run Op.apply (fun _ => none) ops

/-! ## Tables over the keys -/

namespace SsTable.Built

variable {t : SsTable υ}

theorem le_of_isLE (hagree : rt.AgreesOn K) {a b : Text} (ha : a ∈ K) (hb : b ∈ K)
    (h : (rt.localeCompare a b).isLE = true) : a ≤ b := by
  cases hcmp : rt.localeCompare a b with
  | lt => exact List.le_of_lt ((hagree a ha b hb).1.mp hcmp)
  | eq => exact (hagree a ha b hb).2.mp hcmp ▸ List.le_refl a
  | gt =>
    rw [hcmp] at h
    cases h

/-- The range of the table is that of all its keys. -/
theorem inRange (h : t.Built rt) (hagree : rt.AgreesOn K) (hkeys : ∀ e ∈ t.entries, e.key ∈ K)
    {e : Entry υ} (he : e ∈ t.entries) : t.InRange e.key := by
  have hsorted : t.entries.Pairwise fun a b => a.key ≤ b.key :=
    h.sorted.imp_of_mem fun ha hb hab => le_of_isLE hagree (hkeys _ ha) (hkeys _ hb) hab
  have hne := ne_nil_of_mem he
  constructor
  · rw [h.minKey, head?_eq_some_head hne]
    exact hsorted.rel_head_of_rel_head_head he (List.le_refl _)
  · rw [h.maxKey, getLast?_eq_some_getLast hne]
    exact hsorted.rel_getLast_of_rel_getLast_getLast he (List.le_refl _)

theorem alone (hagree : rt.AgreesOn K) (hkeys : ∀ e ∈ t.entries, e.key ∈ K) {key : Text}
    (hkey : key ∈ K) : ∀ e ∈ t.entries, rt.localeCompare e.key key = .eq → e.key = key :=
  fun e he heq => (hagree _ (hkeys e he) _ hkey).2.mp heq

theorem lookup_of_agrees (h : t.Built rt) (hagree : rt.AgreesOn K)
    (hkeys : ∀ e ∈ t.entries, e.key ∈ K) {key : Text} (hkey : key ∈ K) :
    (t.lookup rt key).map (·.slot) = t.slot? key := by
  refine h.lookup_exact ?_ fun _ _ => alone hagree hkeys hkey
  rintro e he rfl
  exact h.inRange hagree hkeys he

end SsTable.Built

/-- The test of a compaction finds the tables that have the key. -/
theorem tablesContainKey_iff (hagree : rt.AgreesOn K) {tables : List (SsTable υ)}
    (hbuilt : ∀ t ∈ tables, t.Built rt) (hkeys : ∀ t ∈ tables, ∀ e ∈ t.entries, e.key ∈ K)
    {key : Text} (hkey : key ∈ K) :
    tablesContainKey rt tables key = true ↔ tables.findSome? (·.slot? key) ≠ none := by
  rw [tablesContainKey, any_eq_true, Ne, findSome?_eq_none_iff, not_forall]
  simp only [Classical.not_imp, Bool.and_eq_true, decide_eq_true_eq]
  refine exists_congr fun t => and_congr_right fun ht => ?_
  have hslot := (hbuilt t ht).binarySearch_exact
    (SsTable.Built.alone hagree (hkeys t ht) hkey)
  rw [← hslot, Option.map_eq_none_iff, ← ne_eq, ← Option.isSome_iff_ne_none]
  refine and_iff_right_of_imp fun hsome => ?_
  obtain ⟨e, he⟩ := Option.isSome_iff_exists.mp hsome
  obtain ⟨hmem, heq⟩ := BinarySearch.search_sound he
  rw [← SsTable.Built.alone hagree (hkeys t ht) hkey e hmem heq]
  exact (hbuilt t ht).inRange hagree (hkeys t ht) hmem

/-! ## What the layers hold after a step -/

namespace LsmStore

/-- The keys of the store. -/
def KeysIn (K : Set Text) (s : LsmStore υ) : Prop := s.AllEntries fun key _ => key ∈ K ∧ key ≠ []

/-- **A compaction shows.**  It changes what no key is read as: what it drops is a tombstone with
nothing older beneath it. -/
theorem live?_compacts {s s' : LsmStore υ} (hs : s.WellFormed rt) (hkeys : s.KeysIn K)
    (hagree : rt.AgreesOn K) {n : ℕ} {newer same older : List (SsTable υ)}
    (hsplit : s.ssTables = newer ++ (same ++ older)) (hs' : Compacts rt s n newer same older s')
    (k : Text) : s'.live? k = s.live? k := by
  have hbuilt := hs.built
  have htables := hkeys.tables
  rw [hsplit] at hbuilt htables
  have hsame : ∀ t ∈ same, t.Built rt := fun t ht =>
    hbuilt t (mem_append_right _ (mem_append_left _ ht))
  have hrest : ∀ t ∈ newer ++ older, t ∈ newer ++ (same ++ older) := by
    intro t ht
    simp only [mem_append] at ht ⊢
    tauto
  -- what the compaction makes of the key
  have hmade : ∃ made : List (SsTable υ), s'.ssTables = newer ++ (made ++ older) ∧
      ∀ slot, made.findSome? (·.slot? k) = some slot ↔
        same.findSome? (·.slot? k) = some slot ∧ (slot.isTombstone = true →
          tablesContainKey rt (newer ++ older) k = true) := by
    cases hs' with
    | purged hnone =>
      refine ⟨[], rfl, fun slot => ?_⟩
      rw [← get?_mergeNewest hsame, ← mem_compactedEntries, ← survivors, hnone]
      exact iff_of_false (fun h => by cases h) not_mem_nil
    | merged sizeBytes sequence =>
      have hnodup : ((survivors rt newer same older).map (·.key)).Nodup :=
        nodup_compactedEntries _ _
      refine ⟨[_], rfl, fun slot => ?_⟩
      rw [← get?_mergeNewest hsame, ← mem_compactedEntries, ← survivors,
        findSome?_singleton,
        (SsTable.built_ofSorted hnodup _ _ _ _).slot?_eq_some_iff]
      exact (perm_sortEntries _).mem_iff
  have hmem : s'.memTable = s.memTable := by
    cases hs' <;> rfl
  obtain ⟨made, htables', hmade⟩ := hmade
  have hcontains : ∀ slot, same.findSome? (·.slot? k) = some slot →
      (tablesContainKey rt (newer ++ older) k = true ↔
        (newer ++ older).findSome? (·.slot? k) ≠ none) := by
    intro slot hslot
    obtain ⟨t, ht, hget⟩ := exists_of_findSome?_eq_some hslot
    have hk := htables t (mem_append_right _ (mem_append_left _ ht)) _
      ((hsame t ht).slot?_eq_some_iff.mp hget)
    exact tablesContainKey_iff hagree (fun t ht => hbuilt t (hrest t ht))
      (fun t ht e he => (htables t (hrest t ht) e he).1) hk.1
  unfold live? slot?
  rw [hmem, htables', hsplit]
  cases s.memTable.get? k with
  | some slot => rfl
  | none =>
    simp only [Option.none_or, findSome?_append] at hcontains ⊢
    cases hA : newer.findSome? (·.slot? k) with
    | some slot => rfl
    | none =>
      rw [Option.none_or, Option.none_or]
      have hnone : (∀ slot, ¬ made.findSome? (·.slot? k) = some slot) →
          made.findSome? (·.slot? k) = none := Option.eq_none_iff_forall_ne_some.mpr
      cases hB : same.findSome? (·.slot? k) with
      | none =>
        rw [hnone fun slot h => ?_]
        rw [(hmade slot).mp h |>.1] at hB
        cases hB
      | some slot =>
        by_cases hkept :
            slot.isTombstone = true → tablesContainKey rt (newer ++ older) k = true
        · rw [(hmade slot).mpr ⟨hB, hkept⟩]
        · rw [Classical.not_imp] at hkept
          obtain ⟨htomb, hno⟩ := hkept
          rw [hcontains slot hB, hA, Option.none_or, not_not] at hno
          rw [hno, hnone fun slot' h => ?_]
          · simp [Slot.live?, htomb]
          · have h' := (hmade slot').mp h
            rw [hB, Option.some.injEq] at h'
            obtain ⟨rfl, hkept⟩ := h'
            exact (hcontains slot hB).mp (hkept htomb) (by rw [hA, hno]; rfl)

/-! ## The simulation -/

/-- The store holds the map. -/
structure Holds (rt : Runtime υ) (K : Set Text) (content : Text → Option υ) (s : LsmStore υ) :
    Prop where
  wellFormed : s.WellFormed rt
  keysIn : s.KeysIn K
  live : ∀ k, s.live? k = (content k).map some

variable {content : Text → Option υ} {s : LsmStore υ}

theorem holds_new (maxMemTableSize : ℕ) : Holds rt K (fun _ => none) (new maxMemTableSize) :=
  ⟨wellFormed_new _, allEntries_new _, fun _ => rfl⟩

section

variable (h : Holds rt K content s)
include h

theorem Holds.content_nil : content [] = none := by
  have hnone : s.slot? [] = none := by
    rw [Option.eq_none_iff_forall_ne_some]
    exact fun slot hslot => (AllEntries.of_slot? h.wellFormed h.keysIn hslot).2 rfl
  have hlive := h.live []
  rw [live?, hnone, Option.bind_none, eq_comm, Option.map_eq_none_iff] at hlive
  exact hlive

theorem Holds.get (hagree : rt.AgreesOn K) {key : Text} (hK : key ∈ K) (hkey : key ≠ []) :
    s.get rt key = .ok (content key) := by
  rw [get_eq_live hkey fun t ht => (h.wellFormed.built t ht).lookup_of_agrees hagree
    (fun e he => (h.keysIn.tables t ht e he).1) hK, h.live]
  cases content key <;> rfl

theorem Holds.write {key : Text} (hkey : key ∈ K ∧ key ≠ []) {slot : Slot υ} {value : Option υ}
    (hslot : slot.live? = value.map some) :
    Holds rt K (Function.update content key value) (s.write rt key slot) where
  wellFormed := h.wellFormed.write key slot
  keysIn := AllEntries.write h.keysIn hkey
  live := by
    intro k
    rw [live?, slot?_write]
    by_cases hk : k = key
    · rw [if_pos hk, hk, Function.update_self]
      exact hslot
    · rw [if_neg hk, Function.update_of_ne hk]
      exact h.live k

theorem Holds.flushed (sizeBytes : ℕ) :
    Holds rt K content (s.flushed rt sizeBytes) where
  wellFormed := h.wellFormed.flushed sizeBytes
  keysIn := AllEntries.flushed h.keysIn sizeBytes
  live := fun k => by
    rw [live?, slot?_flushed]
    exact h.live k

theorem Holds.step (hagree : rt.AgreesOn K) {op : Op υ} (hop : op.Over K) :
    Holds rt K (op.apply content) (s.step rt op) := by
  cases op with
  | put key value =>
    obtain ⟨hK, hvalue⟩ := hop
    rw [Op.apply]
    split_ifs with hkey
    · rw [hkey]
      exact h
    · rw [step_put s hkey]
      refine h.write ⟨hK, hkey⟩ ?_
      cases value with
      | none => exact absurd rfl hvalue
      | some value => rfl
  | delete key =>
    rw [Op.apply]
    cases hcontent : content key with
    | none =>
      rw [Function.update_eq_self_iff.mpr hcontent.symm,
        step_delete_of_not fun value hget => ?_]
      · exact h
      · rw [h.get hagree hop (key_ne_of_get hget), hcontent] at hget
        cases hget
    | some value =>
      have hkey : key ≠ [] := by
        rintro rfl
        rw [h.content_nil] at hcontent
        cases hcontent
      rw [step_delete_of_get (h.get hagree hop hkey |>.trans (congrArg _ hcontent))]
      exact h.write ⟨hop, hkey⟩ rfl
  | flushMemTable =>
    rw [Op.apply, LsmStore.step]
    split
    · next hflush =>
      rcases flushMemTable_cases hflush with rfl | ⟨sizeBytes, rfl⟩
      · exact h
      · exact h.flushed sizeBytes
    · exact h
  | compact level =>
    rw [Op.apply, LsmStore.step]
    split
    · next hcompact =>
      rcases compact_cases h.wellFormed hcompact with
        rfl | ⟨n, newer, same, older, hsplit, hn, -, ho, hs'⟩
      · exact h
      · refine ⟨h.wellFormed.compacts hsplit hn ho hs',
          AllEntries.compacts h.wellFormed h.keysIn hsplit hs', fun k => ?_⟩
        rw [live?_compacts h.wellFormed h.keysIn hagree hsplit hs']
        exact h.live k
    · exact h

end

theorem holds_run (hagree : rt.AgreesOn K) (maxMemTableSize : ℕ) {ops : List (Op υ)}
    (hops : ∀ op ∈ ops, op.Over K) :
    Holds rt K (latest ops) (run (step rt) (new maxMemTableSize) ops) := by
  have hgen : ∀ (content : Text → Option υ) (s : LsmStore υ), Holds rt K content s →
      Holds rt K (run Op.apply content ops) (run (LsmStore.step rt) s ops) := by
    induction ops with
    | nil => exact fun content s h => h
    | cons op rest ih =>
      intro content s h
      exact ih (fun op hop => hops op (mem_cons_of_mem _ hop)) _ _
        (h.step hagree (hops op mem_cons_self))
  exact hgen _ _ (holds_new maxMemTableSize)

/-! ## Scans -/

theorem firstLive_of_end_empty {β : Type*} {content : Text → Option β} (h : content [] = none)
    {startKey : Option Text} {limit : ℕ} {results : List (Text × β)} :
    FirstLive content startKey (some []) limit results ↔ results = [] := by
  have hnone : ∀ k v, ¬ (InBounds startKey (some []) k ∧ content k = some v) := by
    rintro k v ⟨⟨-, hend⟩, hk⟩
    rw [le_nil.mp (hend [] rfl), h] at hk
    cases hk
  constructor
  · rintro ⟨all, -, hall, rfl⟩
    have hnil : all = [] := eq_nil_iff_forall_not_mem.mpr fun (k, v) he =>
      hnone k v ((hall k v).mp he)
    rw [hnil, take_nil]
  · rintro rfl
    exact ⟨[], List.Pairwise.nil, fun k v => iff_of_false not_mem_nil (hnone k v),
      take_nil.symm⟩

theorem Holds.scan_iff (h : Holds rt K content s) (startKey endKey : Option Text) (limit : ℤ) :
    (∃ results, s.scan startKey endKey limit = .ok results ∧
      FirstLive (fun k => (content k).map some) startKey endKey limit.toNat results) ↔
      ScanAccepted startKey endKey limit ∧
        (endKey ≠ some [] ∨ limit = 0 ∨ ∀ k, content k = none) := by
  by_cases haccepted : ScanAccepted startKey endKey limit
  · obtain ⟨results, hscan, hresults⟩ := scan_firstLive h.wellFormed.built haccepted
    rw [show s.live? = fun k => (content k).map some from funext h.live] at hresults
    rw [and_iff_right haccepted]
    by_cases hend : endKey = some []
    · subst hend
      have hnil : (fun k => (content k).map some) [] = none := by
        show (content []).map some = none
        rw [h.content_nil]
        rfl
      obtain ⟨all, -, hall, rfl⟩ := hresults
      have hempty : all.take limit.toNat = [] ↔ limit = 0 ∨ ∀ k, content k = none := by
        by_cases hzero : limit = 0
        · rw [hzero]
          exact iff_of_true rfl (.inl rfl)
        · -- the lower bound is at most the empty string
          have hbounds : ∀ k, InBounds startKey (effectiveEnd (some [])) k := by
            refine fun k => ⟨fun lo hlo => ?_, fun hi hhi => by cases hhi⟩
            rw [le_nil.mp (haccepted.2.2.resolve_left hzero lo hlo [] rfl)]
            exact nil_le k
          have hpositive : limit.toNat ≠ 0 := by
            have := haccepted.1
            omega
          rw [take_eq_nil_iff, or_iff_right hpositive, or_iff_right hzero,
            eq_nil_iff_forall_not_mem]
          constructor
          · intro hno k
            rw [Option.eq_none_iff_forall_ne_some]
            intro v hv
            exact hno (k, some v) ((hall k (some v)).mpr ⟨hbounds k, congrArg _ hv⟩)
          · rintro hno ⟨k, v⟩ hmem
            have hv : (content k).map some = some v := ((hall k v).mp hmem).2
            rw [hno k] at hv
            cases hv
      constructor
      · rintro ⟨results, hscan', hfirst⟩
        rw [hscan] at hscan'
        rw [firstLive_of_end_empty hnil] at hfirst
        exact .inr (hempty.mp (Except.ok.inj hscan' ▸ hfirst))
      · rintro (hne | hcond)
        · exact absurd rfl hne
        · exact ⟨_, hscan, (firstLive_of_end_empty hnil).mpr (hempty.mpr hcond)⟩
    · have heffective : effectiveEnd endKey = endKey := by
        cases endKey with
        | none => rfl
        | some hi => exact Option.filter_some_pos (decide_eq_true fun heq => hend (congrArg _ heq))
      rw [heffective] at hresults
      exact iff_of_true ⟨results, hscan, hresults⟩ (.inl hend)
  · refine iff_of_false ?_ fun hboth => haccepted hboth.1
    rintro ⟨results, hscan, -⟩
    obtain ⟨message, herror⟩ := scan_rejects (s := s) haccepted
    rw [hscan] at herror
    cases herror

end LsmStore

/-- **The store refines a map.**  After any calls on keys that both orders order alike, a point
read gives the value put last and not deleted since; and a scan lists the first live keys within
its bounds, exactly if it accepts them and its upper bound is not empty, unless nothing is to be
listed anyway. -/
theorem lsm_refines_map_iff (hagree : rt.AgreesOn K) (maxMemTableSize : ℕ) {ops : List (Op υ)}
    (hops : ∀ op ∈ ops, op.Over K) :
    (∀ key ∈ K, key ≠ [] →
      (run (LsmStore.step rt) (LsmStore.new maxMemTableSize) ops).get rt key
        = .ok (latest ops key)) ∧
    ∀ startKey endKey limit,
      (∃ results, (run (LsmStore.step rt) (LsmStore.new maxMemTableSize) ops).scan
          startKey endKey limit = .ok results ∧
        LsmStore.FirstLive (fun k => (latest ops k).map some) startKey endKey limit.toNat results) ↔
      LsmStore.ScanAccepted startKey endKey limit ∧
        (endKey ≠ some [] ∨ limit = 0 ∨ ∀ k, latest ops k = none) := by
  have hholds := LsmStore.holds_run hagree maxMemTableSize hops
  exact ⟨fun key hK hkey => hholds.get hagree hK hkey, hholds.scan_iff⟩

/-- A collation that orders as the code units do. -/
def byCodeUnits : Runtime ℕ where
  localeCompare := fun a b => compareOfLessAndEq a b
  collates := Std.TransOrd.compareOfLessAndEq_of_antisymm_of_trans_of_total_of_not_le
    List.le_antisymm List.le_trans List.le_total List.not_le
  jsonLength := fun entries => some entries.length

theorem byCodeUnits_agrees : byCodeUnits.AgreesOn Set.univ := fun _ _ _ _ =>
  ⟨compareOfLessAndEq_eq_lt, compareOfLessAndEq_eq_eq List.le_refl List.not_le⟩

/-- Two flushes and a compaction around a deletion. -/
theorem deletion_survives_compaction :
    (run (LsmStore.step byCodeUnits) (LsmStore.new 2)
      [.put (text "a") (some 1), .put (text "b") (some 2), .delete (text "a"),
        .put (text "c") (some 3), .compact 0]).get byCodeUnits (text "a") = .ok none :=
  (lsm_refines_map_iff byCodeUnits_agrees 2 (by simp [Op.Over])).1 (text "a")
    (Set.mem_univ _) (by decide)

/-- The keys up to the empty string: there are none, and the scan lists `a`. -/
theorem empty_end_is_no_bound :
    ¬ ∃ results, (run (LsmStore.step byCodeUnits) (LsmStore.new 100)
        [.put (text "a") (some 1)]).scan none (some []) 100 = .ok results ∧
      LsmStore.FirstLive (fun k => (latest [Op.put (text "a") (some 1)] k).map some)
        none (some []) 100 results := by
  rintro ⟨results, hscan, hfirst⟩
  rw [LsmStore.firstLive_of_end_empty (by decide)] at hfirst
  have hlists : (run (LsmStore.step byCodeUnits) (LsmStore.new 100)
      [.put (text "a") (some 1)]).scan none (some []) 100 = .ok [(text "a", some 1)] := by
    rfl
  rw [hlists, hfirst] at hscan
  cases hscan

end Lumi.Lsm
