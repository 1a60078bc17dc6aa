import Lumi.Lib.CycleSearch
import Lumi.Lib.InsertionMap
import Lumi.Lib.JsText

/-!
# The deadlock detector of BroccoliDB

Transactions wait for transactions that hold a resource.  `detectDeadlock` searches the graph of
the waits for a cycle, from one waiting transaction after the other, and picks the youngest one of
the cycle as its victim.

The calls are followed by the set of the waits that they leave.  Every end of an edge has its start
time recorded, so the search knows all the transactions that it can come to.
-/

namespace Lumi.Locks

open Js CycleSearch List InsertionMap

/-- What an edge says, without the time at which it was added. -/
structure Wait where
  waitingTxId : Text
  holdingTxId : Text
  resourceKey : Text
  deriving DecidableEq

structure DeadlockEdge extends Wait where
  timestamp : ℕ

structure DeadlockDetectionResult where
  hasDeadlock : Bool
  cycle : Option (List Text)
  victimTxId : Option Text
  deriving DecidableEq

/-- The readings of `Date.now()` by a call that adds an edge. -/
structure WaitReadings where
  waiting : ℕ
  holding : ℕ
  edge : ℕ

structure BroccoliDeadlockDetector where
  edges : InsertionMap Text (List DeadlockEdge)
  txStartTimes : InsertionMap Text ℕ

namespace BroccoliDeadlockDetector

def new : BroccoliDeadlockDetector := ⟨.empty, .empty⟩

/-- `this.edges.get(tx) ?? []`. -/
def edgesOf (edges : InsertionMap Text (List DeadlockEdge)) (tx : Text) : List DeadlockEdge :=
  (edges.get? tx).getD []

/-- Empty lists are not kept. -/
def keepEdges (edges : InsertionMap Text (List DeadlockEdge)) (tx : Text)
    (remaining : List DeadlockEdge) : InsertionMap Text (List DeadlockEdge) :=
  if remaining.length = 0 then edges.delete tx else edges.set tx remaining

/-- A start time is recorded once. -/
def recordStart (startTimes : InsertionMap Text ℕ) (tx : Text) (now : ℕ) : InsertionMap Text ℕ :=
  if (startTimes.get? tx).isSome then startTimes else startTimes.set tx now

section

variable (s : BroccoliDeadlockDetector)

def addWaitFor (waitingTxId holdingTxId resourceKey : Text)
    (now : WaitReadings) : BroccoliDeadlockDetector :=
  if waitingTxId = holdingTxId then s
  else
    let txEdges := edgesOf s.edges waitingTxId
    let isThere := txEdges.any fun e => e.holdingTxId = holdingTxId ∧ e.resourceKey = resourceKey
    { edges := s.edges.set waitingTxId
        (if isThere then txEdges
        else txEdges ++ [⟨⟨waitingTxId, holdingTxId, resourceKey⟩, now.edge⟩])
      txStartTimes :=
        recordStart (recordStart s.txStartTimes waitingTxId now.waiting) holdingTxId now.holding }

/-- Without a resource, or with the empty one, the waits for all resources go. -/
def isRemoved (holdingTxId : Text) (resourceKey : Option Text) (e : Wait) : Bool :=
  e.holdingTxId = holdingTxId ∧
    (resourceKey.getD [] = [] ∨ resourceKey = some e.resourceKey)

def removeWaitFor (waitingTxId holdingTxId : Text)
    (resourceKey : Option Text) : BroccoliDeadlockDetector :=
  match s.edges.get? waitingTxId with
  | none => s
  | some txEdges =>
    { s with
      edges := keepEdges s.edges waitingTxId
        (txEdges.filter fun e => !isRemoved holdingTxId resourceKey e.toWait) }

def removeTx (txId : Text) : BroccoliDeadlockDetector :=
  let edges := s.edges.delete txId
  { edges := edges.entries.foldl
      (fun edges entry => keepEdges edges entry.1 (entry.2.filter (·.holdingTxId ≠ txId))) edges
    txStartTimes := s.txStartTimes.delete txId }

/-- `edge.holdingTxId` for the edges of a transaction. -/
def holders (tx : Text) : List Text :=
  (edgesOf s.edges tx).map (·.holdingTxId)

/-- `this.txStartTimes.get(tx) ?? 0`. -/
def startOf (tx : Text) : ℤ :=
  ((s.txStartTimes.get? tx).getD 0 : ℕ)

/-- The loop that picks the victim: of equals, the last one. -/
def pickVictim (start : Text → ℤ) : List Text → Text → ℤ → Text
  | [], victim, _ => victim
  | tx :: rest, victim, maxStart =>
    if maxStart ≤ start tx then pickVictim start rest tx (start tx)
    else pickVictim start rest victim maxStart

/-- The search, in so many rounds. -/
def detectDeadlock (rounds : ℕ) : Option DeadlockDetectionResult :=
  match searchRoots s.holders rounds s.edges.keys .initial with
  | none => none
  | some none => some ⟨false, none, none⟩
  | some (some cycle) =>
    some ⟨true, some cycle, some (pickVictim s.startOf cycle (cycle.headD []) (-1))⟩

end

end BroccoliDeadlockDetector

/-! ## Calls -/

inductive WaitCall
  | addWaitFor (waitingTxId holdingTxId resourceKey : Text) (now : WaitReadings)
  | removeWaitFor (waitingTxId holdingTxId : Text) (resourceKey : Option Text)
  | removeTx (txId : Text)

namespace WaitCall

def apply (s : BroccoliDeadlockDetector) : WaitCall → BroccoliDeadlockDetector
  | addWaitFor waitingTxId holdingTxId resourceKey now =>
    s.addWaitFor waitingTxId holdingTxId resourceKey now
  | removeWaitFor waitingTxId holdingTxId resourceKey =>
    s.removeWaitFor waitingTxId holdingTxId resourceKey
  | removeTx txId => s.removeTx txId

/-- What a call is for: the waits after it. -/
def change (waits : Set Wait) : WaitCall → Set Wait
  | addWaitFor waitingTxId holdingTxId resourceKey _ =>
    {w | w ∈ waits ∨ waitingTxId ≠ holdingTxId ∧ w = ⟨waitingTxId, holdingTxId, resourceKey⟩}
  | removeWaitFor waitingTxId holdingTxId resourceKey =>
    {w | w ∈ waits ∧
      ¬(w.waitingTxId = waitingTxId ∧ w.holdingTxId = holdingTxId ∧
        (resourceKey.getD [] = [] ∨ resourceKey = some w.resourceKey))}
  | removeTx txId => {w | w ∈ waits ∧ w.waitingTxId ≠ txId ∧ w.holdingTxId ≠ txId}

end WaitCall

/-- The graph of the waits. -/
def WaitsFor (waits : Set Wait) (tx tx' : Text) : Prop :=
  ∃ w ∈ waits, w.waitingTxId = tx ∧ w.holdingTxId = tx'

namespace BroccoliDeadlockDetector

/-! ## The edges that a call leaves -/

section

variable (edges : InsertionMap Text (List DeadlockEdge))

theorem edgesOf_set (tx tx' : Text) (list : List DeadlockEdge) :
    edgesOf (edges.set tx list) tx' = if tx' = tx then list else edgesOf edges tx' := by
  rw [edgesOf, get?_set]
  split_ifs
  · rfl
  · rfl

theorem edgesOf_delete (tx tx' : Text) :
    edgesOf (edges.delete tx) tx' = if tx' = tx then [] else edgesOf edges tx' := by
  rw [edgesOf, get?_delete]
  split_ifs
  · rfl
  · rfl

theorem edgesOf_keepEdges (tx tx' : Text) (remaining : List DeadlockEdge) :
    edgesOf (keepEdges edges tx remaining) tx' =
      if tx' = tx then remaining else edgesOf edges tx' := by
  rw [keepEdges]
  split_ifs with hlength htx htx
  · rw [edgesOf_delete, if_pos htx, length_eq_zero_iff.mp hlength]
  · rw [edgesOf_delete, if_neg htx]
  · rw [edgesOf_set, if_pos htx]
  · rw [edgesOf_set, if_neg htx]

end

variable {edges : InsertionMap Text (List DeadlockEdge)}

theorem mem_keys_keepEdges {tx tx' : Text} {remaining : List DeadlockEdge}
    (h : tx' ∈ (keepEdges edges tx remaining).keys) : tx' = tx ∨ tx' ∈ edges.keys := by
  obtain ⟨list, hget⟩ := mem_keys_iff.mp h
  rw [keepEdges] at hget
  split_ifs at hget
  · rw [get?_delete] at hget
    split_ifs at hget
    exact .inr (mem_keys_iff.mpr ⟨list, hget⟩)
  · rw [get?_set] at hget
    split_ifs at hget with htx
    · exact .inl htx
    · exact .inr (mem_keys_iff.mpr ⟨list, hget⟩)

/-- The loop of `removeTx` filters the lists of the entries that it goes through. -/
theorem edgesOf_foldl_keepEdges (p : DeadlockEdge → Bool) (tx : Text)
    (entries : List (Text × List DeadlockEdge)) (hnodup : (entries.map Prod.fst).Nodup)
    (hentries : ∀ entry ∈ entries, edgesOf edges entry.1 = entry.2) :
    edgesOf (entries.foldl (fun edges entry => keepEdges edges entry.1 (entry.2.filter p)) edges) tx
      = if tx ∈ entries.map Prod.fst then (edgesOf edges tx).filter p else edgesOf edges tx := by
  induction entries generalizing edges with
  | nil => rfl
  | cons entry rest ih =>
    rw [map_cons, nodup_cons] at hnodup
    have hhead : edgesOf edges entry.1 = entry.2 := hentries entry mem_cons_self
    have hrest : ∀ other ∈ rest,
        edgesOf (keepEdges edges entry.1 (entry.2.filter p)) other.1 = other.2 := by
      intro other hother
      have hne : other.1 ≠ entry.1 := fun heq =>
        hnodup.1 (heq ▸ mem_map_of_mem hother)
      rw [edgesOf_keepEdges, if_neg hne]
      exact hentries other (mem_cons_of_mem _ hother)
    rw [foldl_cons, ih hnodup.2 hrest, edgesOf_keepEdges, map_cons]
    by_cases htx : tx = entry.1
    · subst htx
      rw [if_pos rfl, if_neg hnodup.1, if_pos mem_cons_self, hhead]
    · rw [if_neg htx]
      simp only [mem_cons, htx, false_or]

theorem mem_keys_foldl_keepEdges {p : DeadlockEdge → Bool} {tx : Text}
    {entries : List (Text × List DeadlockEdge)}
    (h : tx ∈ (entries.foldl
      (fun edges entry => keepEdges edges entry.1 (entry.2.filter p)) edges).keys) :
    tx ∈ entries.map Prod.fst ∨ tx ∈ edges.keys := by
  induction entries generalizing edges with
  | nil => exact .inr h
  | cons entry rest ih =>
    rw [map_cons, mem_cons, or_assoc]
    rcases ih h with hrest | hkeep
    · exact .inr (.inl hrest)
    · exact (mem_keys_keepEdges hkeep).imp_right Or.inr

section

variable (s : BroccoliDeadlockDetector)

theorem edgesOf_addWaitFor {waitingTxId holdingTxId : Text}
    (resourceKey : Text) (now : WaitReadings) (hne : waitingTxId ≠ holdingTxId) (tx : Text) :
    edgesOf (s.addWaitFor waitingTxId holdingTxId resourceKey now).edges tx =
      if tx = waitingTxId then
        if (edgesOf s.edges tx).any
            fun e => e.holdingTxId = holdingTxId ∧ e.resourceKey = resourceKey then
          edgesOf s.edges tx
        else edgesOf s.edges tx ++ [⟨⟨waitingTxId, holdingTxId, resourceKey⟩, now.edge⟩]
      else edgesOf s.edges tx := by
  rw [addWaitFor, if_neg hne]
  dsimp only
  rw [edgesOf_set]
  by_cases htx : tx = waitingTxId
  · rw [htx, if_pos rfl]
  · rw [if_neg htx, if_neg htx]

theorem edgesOf_removeWaitFor (waitingTxId holdingTxId : Text)
    (resourceKey : Option Text) (tx : Text) :
    edgesOf (s.removeWaitFor waitingTxId holdingTxId resourceKey).edges tx =
      if tx = waitingTxId then
        (edgesOf s.edges tx).filter fun e => !isRemoved holdingTxId resourceKey e.toWait
      else edgesOf s.edges tx := by
  rw [removeWaitFor]
  split
  · next hget =>
    split_ifs with htx
    · rw [htx, edgesOf, hget]
      rfl
    · rfl
  · next txEdges hget =>
    show edgesOf (keepEdges s.edges waitingTxId _) tx = _
    rw [edgesOf_keepEdges]
    split_ifs with htx
    · rw [htx, edgesOf, hget]
      rfl
    · rfl

theorem edgesOf_removeTx (txId tx : Text) :
    edgesOf (s.removeTx txId).edges tx =
      if tx = txId then [] else (edgesOf s.edges tx).filter (·.holdingTxId ≠ txId) := by
  have hentries : ∀ entry ∈ (s.edges.delete txId).entries,
      edgesOf (s.edges.delete txId) entry.1 = entry.2 := fun entry hentry => by
    rw [edgesOf, mem_entries_iff.mp hentry]
    rfl
  have hfold := edgesOf_foldl_keepEdges (·.holdingTxId ≠ txId) tx _ (s.edges.delete txId).nodup
    hentries
  refine hfold.trans ?_
  rw [edgesOf_delete]
  by_cases htx : tx = txId
  · simp [htx]
  · rw [if_neg htx, if_neg htx]
    split_ifs with hmem
    · rfl
    · -- a transaction without an entry has no edges
      have hnone : edgesOf s.edges tx = [] := by
        have hget := get?_eq_none_iff.mpr hmem
        rw [get?_delete, if_neg htx] at hget
        rw [edgesOf, hget]
        rfl
      rw [hnone]
      rfl

end

/-! ## The waits that calls leave -/

/-- The edges are the waits, each under the transaction that waits, and both ends of every edge have
their start time recorded. -/
structure Tracks (s : BroccoliDeadlockDetector) (waits : Set Wait) : Prop where
  edges : ∀ w, w ∈ waits ↔ ∃ e ∈ edgesOf s.edges w.waitingTxId, e.toWait = w
  waiting : ∀ tx, ∀ e ∈ edgesOf s.edges tx, e.waitingTxId = tx
  started : ∀ tx ∈ s.edges.keys, tx ∈ s.txStartTimes.keys
  heldStarted : ∀ tx, ∀ e ∈ edgesOf s.edges tx, e.holdingTxId ∈ s.txStartTimes.keys

theorem tracks_new : new.Tracks ∅ where
  edges := fun _ => ⟨fun h => h.elim, fun ⟨_, he, _⟩ => absurd he not_mem_nil⟩
  waiting := fun _ _ he => absurd he not_mem_nil
  started := fun _ h => absurd h not_mem_nil
  heldStarted := fun _ _ he => absurd he not_mem_nil

theorem mem_keys_recordStart {startTimes : InsertionMap Text ℕ} {tx tx' : Text} {now : ℕ} :
    tx' ∈ (recordStart startTimes tx now).keys ↔ tx' = tx ∨ tx' ∈ startTimes.keys := by
  rw [recordStart]
  split_ifs with hsome
  · have hmem : tx ∈ startTimes.keys :=
      mem_keys_iff.mpr (Option.isSome_iff_exists.mp hsome)
    exact ⟨Or.inr, fun h => h.elim (fun heq => heq ▸ hmem) id⟩
  · exact mem_keys_setEntries

variable {s : BroccoliDeadlockDetector} {waits : Set Wait}

section

variable (hs : s.Tracks waits)
include hs

/-- **Step lemma.**  An edge is added, if it is not there. -/
theorem Tracks.addWaitFor (waitingTxId holdingTxId resourceKey : Text) (now : WaitReadings) :
    (s.addWaitFor waitingTxId holdingTxId resourceKey now).Tracks
      ((WaitCall.addWaitFor waitingTxId holdingTxId resourceKey now).change waits) := by
  by_cases hne : waitingTxId = holdingTxId
  · have hsame :
        (WaitCall.addWaitFor waitingTxId holdingTxId resourceKey now).change waits = waits := by
      ext w
      exact ⟨fun h => h.elim id fun hw => absurd hne hw.1, Or.inl⟩
    rw [BroccoliDeadlockDetector.addWaitFor, if_pos hne, hsame]
    exact hs
  · have hedges := s.edgesOf_addWaitFor resourceKey now hne
    -- an edge of the new list is an old one, or the new one
    have hmem : ∀ tx, ∀ e ∈ edgesOf (s.addWaitFor waitingTxId holdingTxId resourceKey now).edges tx,
        e ∈ edgesOf s.edges tx ∨
          tx = waitingTxId ∧ e = ⟨⟨waitingTxId, holdingTxId, resourceKey⟩, now.edge⟩ := by
      intro tx e he
      rw [hedges] at he
      split_ifs at he with htx hthere
      · exact .inl he
      · exact (mem_append.mp he).imp_right fun h => ⟨htx, mem_singleton.mp h⟩
      · exact .inl he
    have hkeep : ∀ tx, ∀ e ∈ edgesOf s.edges tx,
        e ∈ edgesOf (s.addWaitFor waitingTxId holdingTxId resourceKey now).edges tx := by
      intro tx e he
      rw [hedges]
      split_ifs
      · exact he
      · exact mem_append_left _ he
      · exact he
    have hstart : ∀ tx,
        tx ∈ (s.addWaitFor waitingTxId holdingTxId resourceKey now).txStartTimes.keys ↔
          tx = holdingTxId ∨ tx = waitingTxId ∨ tx ∈ s.txStartTimes.keys := by
      intro tx
      rw [BroccoliDeadlockDetector.addWaitFor, if_neg hne]
      exact mem_keys_recordStart.trans (or_congr_right mem_keys_recordStart)
    refine ⟨fun w => ⟨?_, ?_⟩, ?_, ?_, ?_⟩
    · rintro (hw | ⟨-, rfl⟩)
      · obtain ⟨e, he, rfl⟩ := (hs.edges w).mp hw
        exact ⟨e, hkeep _ e he, rfl⟩
      · rw [hedges, if_pos rfl]
        split_ifs with hthere
        · obtain ⟨e, he, hsame⟩ := any_eq_true.mp hthere
          rw [decide_eq_true_eq] at hsame
          have hwaiting : e.waitingTxId = waitingTxId := hs.waiting _ e he
          refine ⟨e, he, ?_⟩
          rw [← hwaiting, ← hsame.1, ← hsame.2]
        · exact ⟨_, mem_append_right _ mem_cons_self, rfl⟩
    · rintro ⟨e, he, rfl⟩
      rcases hmem _ e he with he | ⟨-, rfl⟩
      · exact .inl ((hs.edges e.toWait).mpr ⟨e, he, rfl⟩)
      · exact .inr ⟨hne, rfl⟩
    · intro tx e he
      rcases hmem tx e he with he | ⟨rfl, rfl⟩
      · exact hs.waiting tx e he
      · rfl
    · intro tx htx
      rw [BroccoliDeadlockDetector.addWaitFor, if_neg hne] at htx
      rw [hstart]
      rcases mem_keys_setEntries.mp htx with rfl | htx
      · exact .inr (.inl rfl)
      · exact .inr (.inr (hs.started tx htx))
    · intro tx e he
      rw [hstart]
      rcases hmem tx e he with he | ⟨-, rfl⟩
      · exact .inr (.inr (hs.heldStarted tx e he))
      · exact .inl rfl

/-- **Step lemma.**  The edges to a transaction go, for one resource or for all. -/
theorem Tracks.removeWaitFor (waitingTxId holdingTxId : Text) (resourceKey : Option Text) :
    (s.removeWaitFor waitingTxId holdingTxId resourceKey).Tracks
      ((WaitCall.removeWaitFor waitingTxId holdingTxId resourceKey).change waits) := by
  have hedges := s.edgesOf_removeWaitFor waitingTxId holdingTxId resourceKey
  have hmem : ∀ tx e, e ∈ edgesOf (s.removeWaitFor waitingTxId holdingTxId resourceKey).edges tx ↔
      e ∈ edgesOf s.edges tx ∧
        ¬(tx = waitingTxId ∧ isRemoved holdingTxId resourceKey e.toWait = true) := by
    intro tx e
    rw [hedges]
    split_ifs with htx
    · simp [htx]
    · simp [htx]
  have hstart :
      (s.removeWaitFor waitingTxId holdingTxId resourceKey).txStartTimes = s.txStartTimes := by
    rw [BroccoliDeadlockDetector.removeWaitFor]
    split
    · rfl
    · rfl
  refine ⟨fun w => ?_, ?_, ?_, ?_⟩
  · constructor
    · rintro ⟨hw, hkept⟩
      obtain ⟨e, he, rfl⟩ := (hs.edges w).mp hw
      refine ⟨e, (hmem _ e).mpr ⟨he, fun ⟨htx, hgone⟩ => hkept ⟨htx, ?_⟩⟩, rfl⟩
      simpa [isRemoved] using hgone
    · rintro ⟨e, he, rfl⟩
      obtain ⟨he, hkept⟩ := (hmem _ e).mp he
      refine ⟨(hs.edges e.toWait).mpr ⟨e, he, rfl⟩, fun ⟨htx, hgone⟩ => hkept ⟨htx, ?_⟩⟩
      simpa [isRemoved] using hgone
  · exact fun tx e he => hs.waiting tx e ((hmem tx e).mp he).1
  · intro tx htx
    rw [hstart]
    rw [BroccoliDeadlockDetector.removeWaitFor] at htx
    split at htx
    · exact hs.started tx htx
    · next txEdges hget =>
      rcases mem_keys_keepEdges htx with rfl | htx
      · exact hs.started _ (mem_keys_iff.mpr ⟨txEdges, hget⟩)
      · exact hs.started tx htx
  · intro tx e he
    rw [hstart]
    exact hs.heldStarted tx e ((hmem tx e).mp he).1

/-- **Step lemma.**  A transaction goes, with the edges from it and to it. -/
theorem Tracks.removeTx (txId : Text) :
    (s.removeTx txId).Tracks ((WaitCall.removeTx txId).change waits) := by
  have hmem : ∀ tx e, e ∈ edgesOf (s.removeTx txId).edges tx ↔
      e ∈ edgesOf s.edges tx ∧ tx ≠ txId ∧ e.holdingTxId ≠ txId := by
    intro tx e
    rw [s.edgesOf_removeTx]
    split_ifs with htx
    · simp [htx]
    · simp [htx]
  have hstart : ∀ tx, tx ≠ txId → tx ∈ s.txStartTimes.keys →
      tx ∈ (s.removeTx txId).txStartTimes.keys := by
    intro tx hne htx
    obtain ⟨start, hget⟩ := mem_keys_iff.mp htx
    refine mem_keys_iff.mpr ⟨start, ?_⟩
    exact (get?_delete_of_ne _ hne).trans hget
  have hkeys : ∀ tx ∈ (s.removeTx txId).edges.keys, tx ≠ txId ∧ tx ∈ s.edges.keys := by
    intro tx htx
    have hdelete : tx ∈ (s.edges.delete txId).keys := (mem_keys_foldl_keepEdges htx).elim id id
    obtain ⟨list, hget⟩ := mem_keys_iff.mp hdelete
    rw [get?_delete] at hget
    split_ifs at hget with hne
    exact ⟨hne, mem_keys_iff.mpr ⟨list, hget⟩⟩
  refine ⟨fun w => ?_, ?_, ?_, ?_⟩
  · constructor
    · rintro ⟨hw, hwaiting, hholding⟩
      obtain ⟨e, he, rfl⟩ := (hs.edges w).mp hw
      exact ⟨e, (hmem _ e).mpr ⟨he, hwaiting, hholding⟩, rfl⟩
    · rintro ⟨e, he, rfl⟩
      obtain ⟨he, hwaiting, hholding⟩ := (hmem _ e).mp he
      exact ⟨(hs.edges e.toWait).mpr ⟨e, he, rfl⟩, hwaiting, hholding⟩
  · exact fun tx e he => hs.waiting tx e ((hmem tx e).mp he).1
  · exact fun tx htx => hstart tx (hkeys tx htx).1 (hs.started tx (hkeys tx htx).2)
  · intro tx e he
    obtain ⟨he, -, hholding⟩ := (hmem tx e).mp he
    exact hstart _ hholding (hs.heldStarted tx e he)

theorem Tracks.apply (call : WaitCall) : (call.apply s).Tracks (call.change waits) := by
  cases call with
  | addWaitFor waitingTxId holdingTxId resourceKey now =>
    exact hs.addWaitFor waitingTxId holdingTxId resourceKey now
  | removeWaitFor waitingTxId holdingTxId resourceKey =>
    exact hs.removeWaitFor waitingTxId holdingTxId resourceKey
  | removeTx txId => exact hs.removeTx txId

/-- **Run lemma.** -/
theorem Tracks.foldl (calls : List WaitCall) :
    (calls.foldl WaitCall.apply s).Tracks (calls.foldl WaitCall.change waits) := by
  induction calls generalizing s waits with
  | nil => exact hs
  | cons call rest ih => exact ih (hs.apply call)

end

end BroccoliDeadlockDetector

end Lumi.Locks
