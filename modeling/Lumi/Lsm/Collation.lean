import Lumi.Lsm.Refinement

/-!
# Point reads and scans where the two orders differ

The tables are sorted by the collation, and their first and last key are taken for the
smallest and the largest; but a point read compares with them by code units.  Where the
two orders differ, a key of the table may lie outside of that range, and the point read
then passes the table over while the scan lists the key.  A second difference is that
the collation may not tell two keys apart, and the search by the collation then answers
one for the other.

As long as every table that is built is free of both (`SsTable.Orderly`), and no value
is undefined, point reads and scans agree on every key.
-/

namespace Lumi.Lsm

open Js Run

variable {υ : Type*} {rt : Runtime υ}

/-- The range of the table, from the first key in the order of the collation to the last, is that
of all its keys by code units; and a key that the collation does not tell apart from one of its
keys lies outside of the range or is held back by the filter. -/
structure SsTable.Orderly (rt : Runtime υ) (t : SsTable υ) : Prop where
  inRange : ∀ e ∈ t.entries, t.InRange e.key
  alone : ∀ e ∈ t.entries, ∀ key, rt.localeCompare e.key key = .eq → key ≠ e.key → t.InRange key →
    t.metadata.bloomFilterMask &&& bloomBit key = 0

/-- The call puts no undefined value, and any table it makes is orderly. -/
def Undisturbed (rt : Runtime υ) (s : LsmStore υ) (op : Op υ) : Prop :=
  (∀ key, op ≠ .put key none) ∧ ∀ t ∈ (s.step rt op).ssTables, t ∈ s.ssTables ∨ t.Orderly rt

/-- A point read finds a key with a value exactly if a scan without bounds, and not cut short by
its limit, lists it with that value. -/
def ReadsAgree (rt : Runtime υ) (s : LsmStore υ) : Prop :=
  ∀ key ≠ [], ∀ limit results, s.scan none none limit = .ok results →
    results.length < limit.toNat → ∀ value,
      (s.get rt key = .ok value ∧ value ≠ none) ↔ (key, value) ∈ results

namespace LsmStore

/-- The entry is a tombstone or has a value. -/
def Defined (_ : Text) (slot : Slot υ) : Prop := slot.isTombstone = true ∨ slot.value ≠ none

/-- What undisturbed calls keep. -/
structure Orderly (rt : Runtime υ) (s : LsmStore υ) : Prop where
  wellFormed : s.WellFormed rt
  tables : ∀ t ∈ s.ssTables, t.Orderly rt
  defined : s.AllEntries Defined

theorem orderly_new (maxMemTableSize : ℕ) : (new maxMemTableSize).Orderly rt :=
  ⟨wellFormed_new _, fun _ ht => absurd ht List.not_mem_nil, allEntries_new _⟩

variable {s : LsmStore υ}

theorem Orderly.step (h : s.Orderly rt) {op : Op υ} (hop : Undisturbed rt s op) :
    (s.step rt op).Orderly rt where
  wellFormed := h.wellFormed.step op
  tables := fun t ht => (hop.2 t ht).elim (h.tables t) id
  defined := by
    rcases s.step_cases op with
      heq | ⟨key, slot, -, hslot, heq⟩ | ⟨sizeBytes, heq⟩ | ⟨level, stats, hcompact⟩
    · rw [heq]
      exact h.defined
    · rw [heq]
      refine h.defined.write (hslot.imp_right fun hput hnone => hop.1 key ?_)
      rw [hput, hnone]
    · rw [heq]
      exact h.defined.flushed sizeBytes
    · rcases compact_cases h.wellFormed hcompact with
        heq | ⟨n, newer, same, older, hsplit, -, -, -, hs'⟩
      · rw [heq]
        exact h.defined
      · exact h.defined.compacts h.wellFormed hsplit hs'

theorem Orderly.live?_ne_undefined (h : s.Orderly rt) (key : Text) : s.live? key ≠ some none := by
  intro hlive
  obtain ⟨slot, hslot, hvalue⟩ := Option.bind_eq_some_iff.mp hlive
  rw [Slot.live?, Option.ite_none_left_eq_some, Option.some.injEq] at hvalue
  rcases h.defined.of_slot? h.wellFormed hslot with htomb | hne
  · exact hvalue.1 htomb
  · exact hne hvalue.2

theorem Orderly.readsAgree (h : s.Orderly rt) : ReadsAgree rt s := by
  intro key hkey limit results hscan hlength value
  have haccepted : ScanAccepted none none limit := by
    by_contra hno
    obtain ⟨message, herror⟩ := scan_rejects (s := s) hno
    rw [hscan] at herror
    cases herror
  obtain ⟨results', hscan', all, -, hall, htake⟩ := scan_firstLive h.wellFormed.built haccepted
  obtain rfl : results = results' := Except.ok.inj (hscan.symm.trans hscan')
  -- the limit has cut nothing off
  have hresults : results = all := by
    rw [htake, List.take_of_length_le]
    rw [htake, List.length_take] at hlength
    omega
  have hexact : ∀ t ∈ s.ssTables, (t.lookup rt key).map (·.slot) = t.slot? key := by
    intro t ht
    refine (h.wellFormed.built t ht).lookup_exact ?_ fun hbloom hin e he heq => ?_
    · rintro e he rfl
      exact (h.tables t ht).inRange e he
    · by_contra hne
      exact hbloom ((h.tables t ht).alone e he key heq (Ne.symm hne) hin)
  have hbounds : InBounds none (effectiveEnd none) key :=
    ⟨(fun lo hlo => by cases hlo), fun hi hhi => by cases hhi⟩
  rw [get_eq_live hkey hexact, hresults, hall, and_iff_right hbounds, Except.ok.injEq]
  cases hlive : s.live? key with
  | none =>
    refine iff_of_false (fun h => h.2 h.1.symm) fun h => ?_
    cases h
  | some found =>
    cases found with
    | none => exact absurd hlive (h.live?_ne_undefined key)
    | some found =>
      rw [Option.some.injEq]
      refine and_iff_left_of_imp ?_
      rintro rfl hnone
      cases hnone

end LsmStore

/-- **Point reads agree with scans.**  In every state of a run whose calls are undisturbed, a
point read finds a key with a value exactly if the scan lists it with that value. -/
theorem reads_agree_of_undisturbed (maxMemTableSize : ℕ) {ops : List (Op υ)}
    (h : Guarded (LsmStore.step rt) (Undisturbed rt) (LsmStore.new maxMemTableSize) ops) :
    Always (LsmStore.step rt) (ReadsAgree rt) (LsmStore.new maxMemTableSize) ops := by
  have hstep : ∀ (s : LsmStore υ) (op : Op υ),
      s.Orderly rt → Undisturbed rt s op → (s.step rt op).Orderly rt :=
    fun s op hs hop => hs.step hop
  exact (always_of_guarded hstep (LsmStore.orderly_new maxMemTableSize) h).mono
    fun s hs => hs.readsAgree

/-- Where the orders agree on all keys, every table is orderly. -/
theorem orderly_of_agrees (hagree : rt.AgreesOn Set.univ) {t : SsTable υ} (h : t.Built rt) :
    t.Orderly rt where
  inRange := fun _ he => h.inRange hagree (fun _ _ => Set.mem_univ _) he
  alone := fun _ _ _ heq hne _ =>
    absurd ((hagree _ (Set.mem_univ _) _ (Set.mem_univ _)).2.mp heq).symm hne

theorem undisturbed_of_agrees (hagree : rt.AgreesOn Set.univ) {s : LsmStore υ}
    (hs : s.WellFormed rt) {op : Op υ} (hop : ∀ key, op ≠ .put key none) : Undisturbed rt s op :=
  ⟨hop, fun t ht => .inr (orderly_of_agrees hagree ((hs.step op).built t ht))⟩

/-- Two keys, in one table. -/
theorem reads_agree_after_flush :
    Always (LsmStore.step byCodeUnits) (ReadsAgree byCodeUnits) (LsmStore.new 100)
      [.put (text "B") (some 1), .put (text "a") (some 2), .flushMemTable] := by
  have hnew : (LsmStore.new 100).WellFormed byCodeUnits := LsmStore.wellFormed_new 100
  refine reads_agree_of_undisturbed 100 ⟨?_, ?_, ?_, trivial⟩
  · exact undisturbed_of_agrees byCodeUnits_agrees hnew fun key => by simp
  · exact undisturbed_of_agrees byCodeUnits_agrees (hnew.step _) fun key => by simp
  · exact undisturbed_of_agrees byCodeUnits_agrees ((hnew.step _).step _) fun key => by simp

/-- The letters of a key without regard to case. -/
def foldCase (key : Text) : Text :=
  key.map fun c => if 65 ≤ c ∧ c ≤ 90 then c + 32 else c

/-- A collation that has `a` before `B`, as the standard collation has it. -/
def ignoringCase : Runtime ℕ where
  localeCompare := compareLex (compareOn foldCase) compare
  collates := inferInstance
  jsonLength := fun entries => some entries.length

/-- In one table with `a` first and `B` last neither key is read, and the scan lists both. -/
theorem mixed_case_keys_are_lost :
    ¬ Always (LsmStore.step ignoringCase) (ReadsAgree ignoringCase) (LsmStore.new 100)
      [.put (text "a") (some 1), .put (text "B") (some 2), .flushMemTable] := by
  intro h
  have hlast := always_iff_forall_split.mp h _ [] (List.append_nil _).symm
  have hscan : (run (LsmStore.step ignoringCase) (LsmStore.new 100)
      [.put (text "a") (some 1), .put (text "B") (some 2), .flushMemTable]).scan none none 100
        = .ok [(text "B", some 2), (text "a", some 1)] := rfl
  have hget : (run (LsmStore.step ignoringCase) (LsmStore.new 100)
      [.put (text "a") (some 1), .put (text "B") (some 2), .flushMemTable]).get ignoringCase
        (text "a") = .ok none := rfl
  have hiff := hlast (text "a") (by decide) 100 _ hscan (by decide) (some 1)
  rw [hget] at hiff
  have hlisted := (hiff.mpr (by decide)).1
  cases hlisted

end Lumi.Lsm
