import Lumi.Locks.BroccoliDeadlockDetector

/-!
# Deadlocks are found

The search of the detector finds a cycle of the waits if there is one.  All the transactions of a
cycle wait, so each of them is a root of the search and has its start time recorded; a start time
is not below the `-1` from which the victim is picked.
-/

namespace Lumi.Locks

open Js CycleSearch List

namespace BroccoliDeadlockDetector

variable {s : BroccoliDeadlockDetector}

variable {waits : Set Wait}

theorem edge_holders (hs : s.Tracks waits) : Edge s.holders = WaitsFor waits := by
  funext tx tx'
  rw [Edge, holders, mem_map, eq_iff_iff]
  constructor
  · rintro ⟨e, he, rfl⟩
    have hwaiting := hs.waiting tx e he
    exact ⟨e.toWait, (hs.edges _).mpr ⟨e, hwaiting.symm ▸ he, rfl⟩, hwaiting, rfl⟩
  · rintro ⟨w, hw, rfl, rfl⟩
    obtain ⟨e, he, rfl⟩ := (hs.edges w).mp hw
    exact ⟨e, he, rfl⟩

theorem startOf_of_mem_keys {tx : Text} (h : tx ∈ s.txStartTimes.keys) :
    ∃ start : ℕ, s.txStartTimes.get? tx = some start ∧ s.startOf tx = start := by
  obtain ⟨start, hget⟩ := InsertionMap.mem_keys_iff.mp h
  exact ⟨start, hget, by rw [startOf, hget]; rfl⟩

/-- What the loop has picked started no earlier than anything that it has seen. -/
theorem pickVictim_spec (start : Text → ℤ) (rest : List Text) (victim : Text) :
    pickVictim start rest victim (start victim) ∈ victim :: rest ∧
      ∀ tx ∈ victim :: rest, start tx ≤ start (pickVictim start rest victim (start victim)) := by
  induction rest generalizing victim with
  | nil =>
    refine ⟨mem_cons_self, fun tx htx => ?_⟩
    rw [mem_singleton.mp htx]
    exact le_refl _
  | cons tx rest ih =>
    rw [pickVictim]
    split_ifs with hle
    · obtain ⟨hmem, hmax⟩ := ih tx
      refine ⟨mem_cons_of_mem _ hmem, fun other hother => ?_⟩
      rcases mem_cons.mp hother with rfl | hother
      · exact hle.trans (hmax tx mem_cons_self)
      · exact hmax other hother
    · obtain ⟨hmem, hmax⟩ := ih victim
      have hfirst := hmax victim mem_cons_self
      refine ⟨?_, fun other hother => ?_⟩
      · rcases mem_cons.mp hmem with heq | hmem
        · rw [heq]
          exact mem_cons_self
        · exact mem_cons_of_mem _ (mem_cons_of_mem _ hmem)
      · rcases mem_cons.mp hother with rfl | hother
        · exact hfirst
        · rcases mem_cons.mp hother with rfl | hother
          · omega
          · exact hmax other (mem_cons_of_mem _ hother)

/-- The victim of a cycle: no start time is below `-1`. -/
theorem victim_spec (s : BroccoliDeadlockDetector) {cycle : List Text} (hne : cycle ≠ []) :
    pickVictim s.startOf cycle (cycle.headD []) (-1) ∈ cycle ∧
      ∀ tx ∈ cycle, s.startOf tx ≤
        s.startOf (pickVictim s.startOf cycle (cycle.headD []) (-1)) := by
  obtain ⟨first, rest, rfl⟩ := exists_cons_of_ne_nil hne
  have hstart : -1 ≤ s.startOf first := by
    rw [startOf]
    omega
  rw [pickVictim, if_pos hstart]
  exact pickVictim_spec s.startOf rest first

/-- A transaction that waits has an entry. -/
theorem Tracks.mem_keys_of_edge (hs : s.Tracks waits) {tx : Text} {e : DeadlockEdge}
    (he : e ∈ edgesOf s.edges tx) : tx ∈ s.edges.keys ∧ tx ∈ s.txStartTimes.keys := by
  rw [edgesOf] at he
  cases hget : s.edges.get? tx with
  | none =>
    rw [hget] at he
    exact absurd he not_mem_nil
  | some list =>
    have hmem := InsertionMap.mem_keys_iff.mpr ⟨list, hget⟩
    exact ⟨hmem, hs.started tx hmem⟩

theorem Tracks.searchRoots (hs : s.Tracks waits) {rounds : ℕ}
    (hrounds : s.txStartTimes.size ≤ rounds) :
    ∃ answer, CycleSearch.searchRoots s.holders rounds s.edges.keys .initial = some answer ∧
      (∀ cycle, answer = some cycle → IsCycle (WaitsFor waits) cycle) ∧
      (answer = none → ∀ tx, ¬Relation.TransGen (WaitsFor waits) tx tx) := by
  have hclosed : ∀ tx ∈ s.txStartTimes.keys.toFinset, ∀ tx' ∈ s.holders tx,
      tx' ∈ s.txStartTimes.keys.toFinset := by
    intro tx _ tx' htx'
    obtain ⟨e, he, rfl⟩ := mem_map.mp htx'
    exact mem_toFinset.mpr (hs.heldStarted tx e he)
  have hcard : s.txStartTimes.keys.toFinset.card ≤ rounds := by
    have hkeys : s.txStartTimes.keys.length = s.txStartTimes.size := length_map _
    have hle := toFinset_card_le s.txStartTimes.keys
    omega
  obtain ⟨answer, hanswer, hcycle, hnone⟩ := searchRoots_spec hclosed hcard s.edges.keys
    (fun tx htx => mem_toFinset.mpr (hs.started tx htx)) inv_initial rfl
  rw [edge_holders hs] at hcycle hnone
  refine ⟨answer, hanswer, hcycle, fun h tx htx => ?_⟩
  -- a transaction on a cycle waits, and so it is one of the roots
  obtain ⟨tx', ⟨w, hw, rfl, -⟩, -⟩ := Relation.TransGen.head'_iff.mp htx
  obtain ⟨e, he, -⟩ := (hs.edges w).mp hw
  exact hnone h _ (hs.mem_keys_of_edge he).1 htx

/-- A cycle of waits, each of its transactions with its start time recorded, and the victim one
that started no earlier than the others. -/
def IsDeadlock (s : BroccoliDeadlockDetector) (waits : Set Wait) (cycle : List Text)
    (victimTxId : Text) : Prop :=
  IsCycle (WaitsFor waits) cycle ∧ victimTxId ∈ cycle ∧
    ∃ latest, s.txStartTimes.get? victimTxId = some latest ∧
      ∀ tx ∈ cycle, ∃ start, s.txStartTimes.get? tx = some start ∧ start ≤ latest

theorem Tracks.isDeadlock (hs : s.Tracks waits) {cycle : List Text}
    (h : IsCycle (WaitsFor waits) cycle) :
    s.IsDeadlock waits cycle (pickVictim s.startOf cycle (cycle.headD []) (-1)) := by
  obtain ⟨hmem, hmax⟩ := s.victim_spec h.ne_nil
  have hstarted : ∀ tx ∈ cycle, tx ∈ s.txStartTimes.keys := by
    intro tx htx
    obtain ⟨tx', w, hw, rfl, -⟩ := h.exists_next htx
    obtain ⟨e, he, -⟩ := (hs.edges w).mp hw
    exact (hs.mem_keys_of_edge he).2
  obtain ⟨latest, hlatest, heq⟩ := startOf_of_mem_keys (hstarted _ hmem)
  refine ⟨h, hmem, latest, hlatest, fun tx htx => ?_⟩
  obtain ⟨start, hstart, hstartOf⟩ := startOf_of_mem_keys (hstarted tx htx)
  have hle := hmax tx htx
  exact ⟨start, hstart, by omega⟩

/-- **After any calls, the detector finds a deadlock if and only if the waits have a cycle, and what
it finds is a cycle of theirs, with a victim that started last.** -/
theorem detection_exact (calls : List WaitCall) (rounds : ℕ)
    (hrounds : (calls.foldl WaitCall.apply new).txStartTimes.size ≤ rounds) :
    ∃ result, (calls.foldl WaitCall.apply new).detectDeadlock rounds = some result ∧
      (result.hasDeadlock = true ↔
        ∃ tx, Relation.TransGen (WaitsFor (calls.foldl WaitCall.change ∅)) tx tx) ∧
      (result.hasDeadlock = true → ∃ cycle victimTxId, result.cycle = some cycle ∧
        result.victimTxId = some victimTxId ∧ (calls.foldl WaitCall.apply new).IsDeadlock
          (calls.foldl WaitCall.change ∅) cycle victimTxId) := by
  have hs := tracks_new.foldl calls
  obtain ⟨answer, hanswer, hcycle, hnone⟩ := hs.searchRoots hrounds
  rw [detectDeadlock, hanswer]
  cases answer with
  | none =>
    refine ⟨_, rfl, ⟨fun h => (nomatch h), fun ⟨tx, htx⟩ => absurd htx (hnone rfl tx)⟩, ?_⟩
    exact fun h => nomatch h
  | some cycle =>
    have hfound := hcycle cycle rfl
    exact ⟨_, rfl, ⟨fun _ => hfound.exists_transGen, fun _ => rfl⟩,
      fun _ => ⟨cycle, _, rfl, rfl, hs.isDeadlock hfound⟩⟩

/-- Two transactions that wait for each other. -/
def mutualWait : List WaitCall :=
  [.addWaitFor (text "1") (text "2") (text "a") ⟨5, 5, 5⟩,
    .addWaitFor (text "2") (text "1") (text "b") ⟨6, 6, 6⟩]

theorem mutual_wait_detected :
    ∃ result, (mutualWait.foldl WaitCall.apply new).detectDeadlock 2 = some result ∧
      result.hasDeadlock = true := by
  obtain ⟨result, hresult, hiff, -⟩ := detection_exact mutualWait 2 (by decide)
  refine ⟨result, hresult, hiff.mpr ⟨text "1", ?_⟩⟩
  refine .tail (.single ⟨⟨text "1", text "2", text "a"⟩, ?_, rfl, rfl⟩)
    ⟨⟨text "2", text "1", text "b"⟩, ?_, rfl, rfl⟩
  · exact Or.inl (Or.inr ⟨by decide, rfl⟩)
  · exact Or.inr ⟨by decide, rfl⟩

end BroccoliDeadlockDetector

end Lumi.Locks
