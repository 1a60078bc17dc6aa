import Mathlib.Algebra.GroupWithZero.Nat
import Mathlib.Data.List.Perm.Basic
import Lumi.Lib.JsValue
import Lumi.Lib.Run

/-!
# The parent I/O bulkhead

A `ParentIoBudgetPool` hands out I/O slots: at most `capacity` at a time, and of
each work class at most its own capacity.  A request waits in a queue until
`dispatchWhileCapacity` picks it; an abort takes it out of the queue, and the
release function it was resolved with gives its slot back, once.

The state holds what the pool holds and what its callers hold of it: the abort
listeners on their signals, the release functions, and how each promise was
settled.  Every event runs to its end before the next one, as the pool awaits
nothing.
-/

namespace Lumi.Io

open Js List Function

/-- Global extension-host guardrail for parent I/O. -/
def parentIoBulkheadCapacity : Number := .finite 4

/-- Eligible requests may be overtaken this many times before FIFO takes precedence. -/
def parentIoMaxPriorityBypasses : ℕ := 8

inductive ParentIoWorkClass
  | metadata
  | smallRead
  | search
  | traversal
  deriving DecidableEq

namespace ParentIoWorkClass

def all : List ParentIoWorkClass := [metadata, smallRead, search, traversal]

def name : ParentIoWorkClass → Text
  | metadata => text "metadata"
  | smallRead => text "small-read"
  | search => text "search"
  | traversal => text "traversal"

/-- The known work class of that name. -/
def ofName (s : Text) : Option ParentIoWorkClass := all.find? fun c => c.name = s

/-- The capacities of the classes in the extension host. -/
def capacity : ParentIoWorkClass → Number
  | metadata => parentIoBulkheadCapacity
  | smallRead => parentIoBulkheadCapacity
  | search => .finite 2
  | traversal => .finite 2

end ParentIoWorkClass

structure ParentIoClassStats where
  capacity : ℕ
  active : ℕ
  pending : ℕ
  maxActive : ℕ
  maxPending : ℕ
  started : ℕ
  completed : ℕ
  cancelled : ℕ

namespace ParentIoClassStats

def empty (capacity : ℕ) : ParentIoClassStats := ⟨capacity, 0, 0, 0, 0, 0, 0, 0⟩

section

variable (stats : ParentIoClassStats)

/-- What the counters of a class become when a waiter joins, starts, is cancelled, is done. -/
def join : ParentIoClassStats :=
  { stats with
    pending := stats.pending + 1
    maxPending := max stats.maxPending (stats.pending + 1) }

def start : ParentIoClassStats :=
  { stats with
    pending := stats.pending - 1
    active := stats.active + 1
    maxActive := max stats.maxActive (stats.active + 1)
    started := stats.started + 1 }

def cancel : ParentIoClassStats :=
  { stats with pending := stats.pending - 1, cancelled := stats.cancelled + 1 }

def complete : ParentIoClassStats :=
  { stats with active := stats.active - 1, completed := stats.completed + 1 }

end

end ParentIoClassStats

/-- A queued request.  Its number also names its promise and its abort listener. -/
structure ParentIoWaiter where
  priority : ℚ
  bypasses : ℕ
  sequence : ℕ
  isFastIo : Bool
  workClass : ParentIoWorkClass
  signal : Option ℕ

structure ParentIoBulkheadStats where
  capacity : ℕ
  active : ℕ
  pending : ℕ
  activeFastIo : ℕ
  byClass : ParentIoWorkClass → ParentIoClassStats

/-- How the promise of a waiter was settled. -/
inductive Outcome
  | granted
  | rejected
  deriving DecidableEq

/-- The release function a waiter was resolved with. -/
structure Slot where
  sequence : ℕ
  workClass : ParentIoWorkClass
  isFastIo : Bool
  released : Bool

structure ParentIoBudgetPool where
  capacity : ℕ
  classCapacities : ParentIoWorkClass → ℕ
  active : ℕ
  activeFastIo : ℕ
  waiters : List ParentIoWaiter
  classStats : ParentIoWorkClass → ParentIoClassStats
  sequence : ℕ
  -- what the callers hold: settled promises, release functions, signals and their listeners
  settled : List (ℕ × Outcome)
  slots : List Slot
  aborted : List ℕ
  listeners : List (ℕ × ℕ)

/-- The natural number a capacity is, if it is an integer from 1 to `limit`. -/
def positiveInteger? : Number → Option ℕ
  | .finite q => if q.den = 1 ∧ 1 ≤ q.num then some q.num.toNat else none
  | _ => none

namespace ParentIoBudgetPool

/-- The constructor, if it does not throw. -/
def new (capacity : Number) (classCapacities : ParentIoWorkClass → Number) :
    Option ParentIoBudgetPool :=
  match positiveInteger? capacity with
  | none => none
  | some total =>
    if ParentIoWorkClass.all.all fun c =>
        (positiveInteger? (classCapacities c)).any fun n => n ≤ total then
      some {
        capacity := total
        classCapacities := fun c => (positiveInteger? (classCapacities c)).getD 0
        active := 0
        activeFastIo := 0
        waiters := []
        classStats := fun c => .empty ((positiveInteger? (classCapacities c)).getD 0)
        sequence := 0
        settled := []
        slots := []
        aborted := []
        listeners := [] }
    else none

variable (p : ParentIoBudgetPool)

def getStats : ParentIoBulkheadStats :=
  ⟨p.capacity, p.active, p.waiters.length, p.activeFastIo, p.classStats⟩

def canDispatch (waiter : ParentIoWaiter) : Bool :=
  p.active < p.capacity
    && (p.classStats waiter.workClass).active < p.classCapacities waiter.workClass

/-- The two candidates of the scan over the queue, with their indices. -/
structure Candidates where
  best : Option (ℕ × ParentIoWaiter)
  oldestOvertaken : Option (ℕ × ParentIoWaiter)

/-- One turn of the scan. -/
def consider (candidates : Candidates) (entry : ParentIoWaiter × ℕ) : Candidates :=
  let waiter := entry.1
  if p.canDispatch waiter then
    let oldestOvertaken :=
      if waiter.bypasses ≥ parentIoMaxPriorityBypasses
          ∧ (candidates.oldestOvertaken.all fun oldest =>
              waiter.sequence < oldest.2.sequence) = true then
        some (entry.2, waiter)
      else candidates.oldestOvertaken
    match candidates.best with
    | none => ⟨some (entry.2, waiter), oldestOvertaken⟩
    | some best =>
      if waiter.priority > best.2.priority
          ∨ waiter.priority = best.2.priority ∧ waiter.sequence < best.2.sequence then
        ⟨some (entry.2, waiter), oldestOvertaken⟩
      else ⟨some best, oldestOvertaken⟩
  else candidates

/-- The waiter to dispatch next and where it stands, if one can be dispatched. -/
def findBestEligibleWaiter : Option (ℕ × ParentIoWaiter) :=
  let candidates := p.waiters.zipIdx.foldl p.consider ⟨none, none⟩
  candidates.oldestOvertaken.or candidates.best

def updateStats (c : ParentIoWorkClass) (f : ParentIoClassStats → ParentIoClassStats) :
    ParentIoBudgetPool :=
  { p with classStats := Function.update p.classStats c (f (p.classStats c)) }

def removeAbortListener (waiter : ParentIoWaiter) : ParentIoBudgetPool :=
  { p with listeners := p.listeners.filter fun l => l.2 ≠ waiter.sequence }

/-- Every waiter that could be dispatched now is overtaken once more. -/
def overtake : ParentIoBudgetPool :=
  { p with waiters := p.waiters.map fun pending =>
      if p.canDispatch pending then { pending with bypasses := pending.bypasses + 1 }
      else pending }

/-- One turn of the dispatch loop: the waiter leaves the queue and gets a slot. -/
def grant (index : ℕ) (waiter : ParentIoWaiter) : ParentIoBudgetPool :=
  let p := { p with waiters := p.waiters.eraseIdx index }.overtake
  let p := (p.removeAbortListener waiter).updateStats waiter.workClass .start
  { p with
    active := p.active + 1
    activeFastIo := if waiter.isFastIo then p.activeFastIo + 1 else p.activeFastIo
    settled := p.settled ++ [(waiter.sequence, .granted)]
    slots := p.slots ++ [⟨waiter.sequence, waiter.workClass, waiter.isFastIo, false⟩] }

/-- The dispatch loop; each turn takes a waiter from the queue. -/
def dispatch : ℕ → ParentIoBudgetPool → ParentIoBudgetPool
  | 0, p => p
  | fuel + 1, p =>
    if p.active < p.capacity then
      match p.findBestEligibleWaiter with
      | none => p
      | some (index, waiter) => dispatch fuel (p.grant index waiter)
    else p

def dispatchWhileCapacity : ParentIoBudgetPool := dispatch p.waiters.length p

/-- A new waiter joins the queue and listens to its signal. -/
def enqueue (waiter : ParentIoWaiter) : ParentIoBudgetPool :=
  let p := { p with
    sequence := p.sequence + 1
    listeners := p.listeners ++ (waiter.signal.map fun s => (s, waiter.sequence)).toList
    waiters := p.waiters ++ [waiter] }
  p.updateStats waiter.workClass .join

/-- `acquire`.  A request on an aborted signal, of an unknown work class or without a finite
priority is rejected at once and never waits. -/
def acquire (priority : Number) (isFastIo : Bool) (workClass : Option Text)
    (signal : Option ℕ) : ParentIoBudgetPool :=
  if signal.any fun s => s ∈ p.aborted then p
  else
    match ParentIoWorkClass.ofName (workClass.getD (text "small-read")), priority with
    | some workClass, .finite priority =>
      (p.enqueue ⟨priority, 0, p.sequence, isFastIo, workClass, signal⟩).dispatchWhileCapacity
    | _, _ => p

/-- A waiter leaves the queue and its promise is rejected. -/
def drop (index : ℕ) (waiter : ParentIoWaiter) : ParentIoBudgetPool :=
  let p := { p with waiters := p.waiters.eraseIdx index }.removeAbortListener waiter
  let p := p.updateStats waiter.workClass .cancel
  { p with settled := p.settled ++ [(waiter.sequence, .rejected)] }

def cancelWaiter (sequence : ℕ) : ParentIoBudgetPool :=
  match p.waiters.zipIdx.find? fun entry => entry.1.sequence = sequence with
  | none => p
  | some (waiter, index) => (p.drop index waiter).dispatchWhileCapacity

/-- One abort listener is called, if it was not removed meanwhile; it is called once. -/
def callListener (p : ParentIoBudgetPool) (listener : ℕ × ℕ) : ParentIoBudgetPool :=
  if listener ∈ p.listeners then
    { p with listeners := p.listeners.erase listener }.cancelWaiter listener.2
  else p

/-- A signal is aborted: the listeners it has now are called in their order. -/
def abort (signal : ℕ) : ParentIoBudgetPool :=
  if signal ∈ p.aborted then p
  else
    (p.listeners.filter fun l => l.1 = signal).foldl callListener
      { p with aborted := p.aborted ++ [signal] }

/-- A slot is given back. -/
def giveBack (index : ℕ) (slot : Slot) : ParentIoBudgetPool :=
  let p := p.updateStats slot.workClass .complete
  { p with
    slots := p.slots.set index { slot with released := true }
    active := p.active - 1
    activeFastIo := if slot.isFastIo then p.activeFastIo - 1 else p.activeFastIo }

/-- The release function of a slot is called. -/
def release (index : ℕ) : ParentIoBudgetPool :=
  match p.slots[index]? with
  | none => p
  | some slot =>
    if slot.released then p else (p.giveBack index slot).dispatchWhileCapacity

end ParentIoBudgetPool

inductive BulkheadEvent
  | acquire (priority : Number) (isFastIo : Bool) (workClass : Option Text) (signal : Option ℕ)
  | abort (signal : ℕ)
  | release (slot : ℕ)

def ParentIoBudgetPool.step (p : ParentIoBudgetPool) : BulkheadEvent → ParentIoBudgetPool
  | .acquire priority isFastIo workClass signal => p.acquire priority isFastIo workClass signal
  | .abort signal => p.abort signal
  | .release slot => p.release slot

/-! ## What the scan finds -/

namespace ParentIoBudgetPool

variable {p : ParentIoBudgetPool}

/-- A candidate is a waiter of the queue that can be dispatched. -/
def Eligible (p : ParentIoBudgetPool) (entry : ℕ × ParentIoWaiter) : Prop :=
  p.waiters[entry.1]? = some entry.2 ∧ p.canDispatch entry.2 = true

/-- What the scan keeps after the entries it has seen. -/
structure Scanned (p : ParentIoBudgetPool) (seen : List (ParentIoWaiter × ℕ))
    (candidates : Candidates) : Prop where
  best : ∀ entry ∈ candidates.best, p.Eligible entry
  oldest : ∀ entry ∈ candidates.oldestOvertaken, p.Eligible entry
  complete : candidates.best = none → ∀ entry ∈ seen, p.canDispatch entry.1 = false

theorem Scanned.consider {seen : List (ParentIoWaiter × ℕ)} {candidates : Candidates}
    (h : p.Scanned seen candidates) {entry : ParentIoWaiter × ℕ}
    (hentry : p.waiters[entry.2]? = some entry.1) :
    p.Scanned (seen ++ [entry]) (p.consider candidates entry) := by
  unfold ParentIoBudgetPool.consider
  by_cases hdispatch : p.canDispatch entry.1 = true
  · rw [if_pos hdispatch]
    have heligible : p.Eligible (entry.2, entry.1) := ⟨hentry, hdispatch⟩
    have holdest : ∀ entry' ∈ (if entry.1.bypasses ≥ parentIoMaxPriorityBypasses
          ∧ (candidates.oldestOvertaken.all fun oldest =>
              entry.1.sequence < oldest.2.sequence) = true then
        some (entry.2, entry.1) else candidates.oldestOvertaken), p.Eligible entry' := by
      intro entry' hentry'
      split at hentry'
      · obtain rfl := Option.some.inj hentry'
        exact heligible
      · exact h.oldest entry' hentry'
    cases hbest : candidates.best with
    | none =>
      exact ⟨fun _ he => Option.some.inj he ▸ heligible, holdest, fun hnone => nomatch hnone⟩
    | some best =>
      dsimp only
      split
      · exact ⟨fun _ he => Option.some.inj he ▸ heligible, holdest, fun hnone => nomatch hnone⟩
      · exact ⟨fun _ he => h.best _ (hbest.trans he), holdest, fun hnone => nomatch hnone⟩
  · rw [if_neg hdispatch]
    refine ⟨h.best, h.oldest, fun hnone entry' hentry' => ?_⟩
    rcases mem_append.mp hentry' with hseen | hlast
    · exact h.complete hnone entry' hseen
    · rw [mem_singleton.mp hlast]
      exact Bool.eq_false_iff.mpr hdispatch

theorem Scanned.foldl {rest : List (ParentIoWaiter × ℕ)}
    (hrest : ∀ entry ∈ rest, p.waiters[entry.2]? = some entry.1) :
    ∀ {seen : List (ParentIoWaiter × ℕ)} {candidates : Candidates}, p.Scanned seen candidates →
      p.Scanned (seen ++ rest) (rest.foldl p.consider candidates) := by
  induction rest with
  | nil =>
    intro seen candidates h
    rwa [append_nil]
  | cons entry rest ih =>
    intro seen candidates h
    have hnext := ih (fun e he => hrest e (mem_cons_of_mem _ he))
      (h.consider (hrest entry mem_cons_self))
    rwa [append_assoc] at hnext

theorem scanned_waiters :
    p.Scanned p.waiters.zipIdx (p.waiters.zipIdx.foldl p.consider ⟨none, none⟩) := by
  have hempty : p.Scanned [] ⟨none, none⟩ :=
    ⟨fun _ h => absurd h (by simp), fun _ h => absurd h (by simp),
      fun _ _ h => absurd h not_mem_nil⟩
  have hentries : ∀ entry ∈ p.waiters.zipIdx, p.waiters[entry.2]? = some entry.1 :=
    fun _ hentry => mk_mem_zipIdx_iff_getElem?.mp hentry
  exact Scanned.foldl hentries hempty

/-- What is found stands in the queue and can be dispatched. -/
theorem eligible_of_findBestEligibleWaiter {entry : ℕ × ParentIoWaiter}
    (h : p.findBestEligibleWaiter = some entry) : p.Eligible entry := by
  rcases Option.or_eq_some_iff.mp h with holdest | ⟨-, hbest⟩
  · exact scanned_waiters.oldest entry holdest
  · exact scanned_waiters.best entry hbest

variable {waiter : ParentIoWaiter}

/-- Where nothing is found, no waiter can be dispatched. -/
theorem canDispatch_of_findBestEligibleWaiter_eq_none (h : p.findBestEligibleWaiter = none)
    (hwaiter : waiter ∈ p.waiters) : p.canDispatch waiter = false := by
  obtain ⟨-, hbest⟩ := Option.or_eq_none_iff.mp h
  obtain ⟨index, hindex⟩ := getElem?_of_mem hwaiter
  exact scanned_waiters.complete hbest (waiter, index)
    (mk_mem_zipIdx_iff_getElem?.mpr hindex)

/-! ## The dispatch loop -/

/-- What every grant keeps, the loop keeps. -/
theorem dispatch_preserves {P : ParentIoBudgetPool → Prop}
    (hgrant : ∀ p index waiter, P p → p.Eligible (index, waiter) → P (p.grant index waiter)) :
    ∀ fuel p, P p → P (dispatch fuel p) := by
  intro fuel
  induction fuel with
  | zero => exact fun p h => h
  | succ fuel ih =>
    intro p h
    rw [dispatch]
    split
    · cases hfind : p.findBestEligibleWaiter with
      | none => exact h
      | some entry => exact ih _ (hgrant p _ _ h (eligible_of_findBestEligibleWaiter hfind))
    · exact h

variable {index : ℕ}

theorem length_waiters_grant (h : p.waiters[index]? = some waiter) :
    (p.grant index waiter).waiters.length + 1 = p.waiters.length := by
  obtain ⟨hlt, -⟩ := List.getElem?_eq_some_iff.mp h
  show ((p.waiters.eraseIdx index).map _).length + 1 = _
  rw [length_map, length_eraseIdx_of_lt hlt]
  omega

/-- With a turn for each waiter, the loop leaves none that could be dispatched. -/
theorem dispatch_conserves : ∀ fuel p, p.waiters.length ≤ fuel →
    ∀ waiter ∈ (dispatch fuel p).waiters, (dispatch fuel p).canDispatch waiter = false := by
  intro fuel
  induction fuel with
  | zero =>
    intro p hlength waiter hwaiter
    rw [dispatch, eq_nil_of_length_eq_zero (Nat.le_zero.mp hlength)] at hwaiter
    exact absurd hwaiter not_mem_nil
  | succ fuel ih =>
    intro p hlength
    rw [dispatch]
    split
    · cases hfind : p.findBestEligibleWaiter with
      | none => exact fun waiter hwaiter =>
          canDispatch_of_findBestEligibleWaiter_eq_none hfind hwaiter
      | some entry =>
        have hgrant := length_waiters_grant (eligible_of_findBestEligibleWaiter hfind).1
        exact ih (p.grant entry.1 entry.2) (by omega)
    · next hfull =>
      intro waiter _
      rw [canDispatch, decide_eq_false hfull, Bool.false_and]

/-! ## The books of the pool -/

/-- The counters agree with the queue, the release functions and the settled promises. -/
structure Accounts (p : ParentIoBudgetPool) : Prop where
  active : p.active = p.slots.countP fun s => !s.released
  classActive : ∀ c, (p.classStats c).active
    = p.slots.countP fun s => !s.released && s.workClass = c
  pending : ∀ c, (p.classStats c).pending = p.waiters.countP fun w => w.workClass = c
  active_le : p.active ≤ p.capacity
  classActive_le : ∀ c, (p.classStats c).active ≤ p.classCapacities c
  once : (p.settled.map Prod.fst ++ p.waiters.map ParentIoWaiter.sequence).Nodup
  known : ∀ n ∈ p.settled.map Prod.fst ++ p.waiters.map ParentIoWaiter.sequence, n < p.sequence
  slots : p.slots.map Slot.sequence
    = (p.settled.filter fun entry => entry.2 = .granted).map Prod.fst

theorem sequence_overtake :
    p.overtake.waiters.map ParentIoWaiter.sequence = p.waiters.map ParentIoWaiter.sequence := by
  rw [overtake, map_map]
  refine map_congr_left fun waiter _ => ?_
  rw [comp_apply]
  split <;> rfl

theorem workClass_overtake (c : ParentIoWorkClass) :
    (p.overtake.waiters.countP fun w => w.workClass = c)
      = p.waiters.countP fun w => w.workClass = c := by
  rw [overtake, countP_map]
  refine countP_congr fun waiter _ => ?_
  rw [comp_apply]
  split <;> rfl

theorem perm_eraseIdx (h : p.waiters[index]? = some waiter) :
    (waiter :: p.waiters.eraseIdx index).Perm p.waiters := by
  obtain ⟨hlt, rfl⟩ := List.getElem?_eq_some_iff.mp h
  exact getElem_cons_eraseIdx_perm hlt

/-- Taking a waiter out of the queue and settling its promise keeps the promises apart. -/
theorem perm_settle (hwaiter : p.waiters[index]? = some waiter) (outcome : Outcome) :
    ((p.settled ++ [(waiter.sequence, outcome)]).map Prod.fst
        ++ (p.waiters.eraseIdx index).map ParentIoWaiter.sequence).Perm
      (p.settled.map Prod.fst ++ p.waiters.map ParentIoWaiter.sequence) := by
  rw [map_append, append_assoc]
  exact List.Perm.append_left _ ((perm_eraseIdx hwaiter).map ParentIoWaiter.sequence)

/-- The waiters of a class, without one of them. -/
theorem countP_eraseIdx (hwaiter : p.waiters[index]? = some waiter) (c : ParentIoWorkClass) :
    (p.waiters.eraseIdx index).countP (fun w => w.workClass = c)
        + (if waiter.workClass = c then 1 else 0)
      = p.waiters.countP fun w => w.workClass = c := by
  rw [← (perm_eraseIdx hwaiter).countP_eq, countP_cons]
  simp only [decide_eq_true_eq]

section

variable {index : ℕ} {waiter : ParentIoWaiter} {slot : Slot}

theorem classStats_grant : (p.grant index waiter).classStats
    = Function.update p.classStats waiter.workClass (p.classStats waiter.workClass).start := rfl

theorem classStats_drop : (p.drop index waiter).classStats
    = Function.update p.classStats waiter.workClass (p.classStats waiter.workClass).cancel := rfl

theorem classStats_enqueue : (p.enqueue waiter).classStats
    = Function.update p.classStats waiter.workClass (p.classStats waiter.workClass).join := rfl

theorem classStats_giveBack : (p.giveBack index slot).classStats
    = Function.update p.classStats slot.workClass (p.classStats slot.workClass).complete := rfl

/-- A field of the statistics that an update keeps is kept in every class. -/
theorem apply_update (field : ParentIoClassStats → ℕ) (f : ParentIoClassStats → ParentIoClassStats)
    (h : ∀ stats, field (f stats) = field stats) (stats : ParentIoWorkClass → ParentIoClassStats)
    (c c' : ParentIoWorkClass) :
    field (Function.update stats c (f (stats c)) c') = field (stats c') := by
  by_cases hc : c' = c
  · rw [hc, update_self, h]
  · rw [update_of_ne hc]

end

section

variable (h : p.Accounts)
include h

/-- The counter of a class stays right when a waiter leaves the queue. -/
theorem Accounts.pending_eraseIdx (hwaiter : p.waiters[index]? = some waiter)
    (c : ParentIoWorkClass) :
    (if c = waiter.workClass then (p.classStats waiter.workClass).pending - 1
        else (p.classStats c).pending)
      = (p.waiters.eraseIdx index).countP fun w => w.workClass = c := by
  have hcount := countP_eraseIdx hwaiter c
  have hpending := h.pending c
  by_cases hc : c = waiter.workClass
  · subst hc
    rw [if_pos rfl] at hcount ⊢
    omega
  · rw [if_neg (Ne.symm hc)] at hcount
    rw [if_neg hc]
    omega

theorem Accounts.grant (hwaiter : p.waiters[index]? = some waiter)
    (hdispatch : p.canDispatch waiter = true) : (p.grant index waiter).Accounts := by
  rw [canDispatch, Bool.and_eq_true, decide_eq_true_eq, decide_eq_true_eq] at hdispatch
  have hperm := perm_settle hwaiter .granted
  have hsequence : (p.grant index waiter).waiters.map ParentIoWaiter.sequence
      = (p.waiters.eraseIdx index).map ParentIoWaiter.sequence := sequence_overtake
  refine ⟨?_, fun c => ?_, fun c => ?_, hdispatch.1, fun c => ?_, ?_, ?_, ?_⟩
  · show p.active + 1 = (p.slots ++ [_]).countP _
    rw [countP_append, h.active]
    rfl
  · show _ = (p.slots ++ [_]).countP _
    rw [classStats_grant, countP_append, ← h.classActive c]
    by_cases hc : c = waiter.workClass
    · simp [hc, ParentIoClassStats.start]
    · simp [hc, Ne.symm hc]
  · have hclass : (p.grant index waiter).waiters.countP (fun w => w.workClass = c)
        = (p.waiters.eraseIdx index).countP fun w => w.workClass = c := workClass_overtake c
    rw [hclass, ← h.pending_eraseIdx hwaiter c, classStats_grant, update_apply]
    split <;> rfl
  · rw [classStats_grant, update_apply]
    split
    · next hc =>
      rw [hc]
      exact hdispatch.2
    · exact h.classActive_le c
  · rw [hsequence]
    exact hperm.nodup_iff.mpr h.once
  · rw [hsequence]
    exact fun n hn => h.known n (hperm.mem_iff.mp hn)
  · show (p.slots ++ [_]).map _ = ((p.settled ++ [_]).filter _).map _
    rw [map_append, h.slots, filter_append, map_append]
    rfl

theorem Accounts.dispatchWhileCapacity : p.dispatchWhileCapacity.Accounts :=
  dispatch_preserves (fun _ _ _ h heligible => h.grant heligible.1 heligible.2) _ _ h

theorem Accounts.drop (hwaiter : p.waiters[index]? = some waiter) :
    (p.drop index waiter).Accounts := by
  have hperm := perm_settle hwaiter .rejected
  have hactive (c : ParentIoWorkClass) :
      ((p.drop index waiter).classStats c).active = (p.classStats c).active := by
    rw [classStats_drop]
    exact apply_update ParentIoClassStats.active .cancel (fun _ => rfl) p.classStats _ c
  refine ⟨h.active, fun c => (hactive c).trans (h.classActive c), fun c => ?_, h.active_le,
    fun c => (hactive c).trans_le (h.classActive_le c), hperm.nodup_iff.mpr h.once,
    fun n hn => h.known n (hperm.mem_iff.mp hn), ?_⟩
  · refine Eq.trans ?_ (h.pending_eraseIdx hwaiter c)
    rw [classStats_drop, update_apply]
    split <;> rfl
  · show _ = ((p.settled ++ [_]).filter _).map _
    rw [filter_append, map_append]
    exact h.slots.trans (append_nil _).symm

theorem Accounts.enqueue (hsequence : waiter.sequence = p.sequence) :
    (p.enqueue waiter).Accounts := by
  have hactive (c : ParentIoWorkClass) :
      ((p.enqueue waiter).classStats c).active = (p.classStats c).active := by
    rw [classStats_enqueue]
    exact apply_update ParentIoClassStats.active .join (fun _ => rfl) p.classStats _ c
  have hnew : p.sequence ∉ p.settled.map Prod.fst ++ p.waiters.map ParentIoWaiter.sequence :=
    fun hmem => Nat.lt_irrefl _ (h.known _ hmem)
  have hkeys : p.settled.map Prod.fst ++ (p.enqueue waiter).waiters.map ParentIoWaiter.sequence
      = (p.settled.map Prod.fst ++ p.waiters.map ParentIoWaiter.sequence) ++ [p.sequence] := by
    show _ ++ (p.waiters ++ [waiter]).map _ = _
    rw [map_append, map_singleton, hsequence, append_assoc]
  refine ⟨h.active, fun c => (hactive c).trans (h.classActive c), fun c => ?_, h.active_le,
    fun c => (hactive c).trans_le (h.classActive_le c), ?_, fun n hn => ?_, h.slots⟩
  · show _ = (p.waiters ++ [waiter]).countP _
    rw [classStats_enqueue, countP_append, ← h.pending c]
    by_cases hc : c = waiter.workClass
    · simp [hc, ParentIoClassStats.join]
    · simp [hc, Ne.symm hc]
  · refine hkeys ▸ nodup_append.mpr ⟨h.once, pairwise_singleton _ _, ?_⟩
    intro n hn n' hn' heq
    rw [mem_singleton.mp hn'] at heq
    exact hnew (heq ▸ hn)
  · rcases mem_append.mp (hkeys ▸ hn) with hold | hlast
    · exact Nat.lt_succ_of_lt (h.known n hold)
    · rw [mem_singleton.mp hlast]
      exact Nat.lt_succ_self _

theorem Accounts.giveBack {slot : Slot} (hslot : p.slots[index]? = some slot)
    (hheld : slot.released = false) : (p.giveBack index slot).Accounts := by
  obtain ⟨hlt, hget⟩ := List.getElem?_eq_some_iff.mp hslot
  have hpending (c : ParentIoWorkClass) :
      ((p.giveBack index slot).classStats c).pending = (p.classStats c).pending := by
    rw [classStats_giveBack]
    exact apply_update ParentIoClassStats.pending .complete (fun _ => rfl) p.classStats _ c
  refine ⟨?_, fun c => ?_, fun c => (hpending c).trans (h.pending c),
    (Nat.sub_le ..).trans h.active_le, fun c => ?_, h.once, h.known, ?_⟩
  · show p.active - 1 = (p.slots.set index _).countP _
    rw [countP_set hlt, hget, hheld, h.active]
    rfl
  · show _ = (p.slots.set index _).countP _
    rw [classStats_giveBack, countP_set hlt, hget, hheld, ← h.classActive c]
    by_cases hc : c = slot.workClass
    · simp [hc, ParentIoClassStats.complete]
    · simp [hc, Ne.symm hc]
  · rw [classStats_giveBack, update_apply]
    split
    · next hc =>
      rw [hc]
      exact (Nat.sub_le ..).trans (h.classActive_le _)
    · exact h.classActive_le c
  · refine Eq.trans ?_ h.slots
    show (p.slots.set index _).map Slot.sequence = _
    have hlength : index < (p.slots.map Slot.sequence).length := by simpa using hlt
    have hsequence : slot.sequence = (p.slots.map Slot.sequence)[index] := by
      rw [getElem_map, hget]
    rw [map_set]
    show (p.slots.map Slot.sequence).set index slot.sequence = _
    rw [hsequence, set_getElem_self]

theorem Accounts.cancelWaiter (sequence : ℕ) : (p.cancelWaiter sequence).Accounts := by
  rw [ParentIoBudgetPool.cancelWaiter]
  cases hfind : p.waiters.zipIdx.find? fun entry => entry.1.sequence = sequence with
  | none => exact h
  | some entry =>
    have hwaiter := mk_mem_zipIdx_iff_getElem?.mp (mem_of_find?_eq_some hfind)
    exact (h.drop hwaiter).dispatchWhileCapacity

/-- Listeners are not part of the books. -/
theorem Accounts.listeners (listeners : List (ℕ × ℕ)) :
    { p with listeners := listeners }.Accounts :=
  ⟨h.active, h.classActive, h.pending, h.active_le, h.classActive_le, h.once, h.known, h.slots⟩

theorem Accounts.callListener (listener : ℕ × ℕ) : (p.callListener listener).Accounts := by
  rw [ParentIoBudgetPool.callListener]
  split
  · exact (h.listeners _).cancelWaiter _
  · exact h

end

/-! ## Work conservation -/

/-- No queued waiter can be dispatched. -/
def Conserving (p : ParentIoBudgetPool) : Prop :=
  ∀ waiter ∈ p.waiters, p.canDispatch waiter = false

theorem conserving_dispatchWhileCapacity (p : ParentIoBudgetPool) :
    p.dispatchWhileCapacity.Conserving :=
  dispatch_conserves p.waiters.length p (Nat.le_refl _)

theorem Conserving.callListener (h : p.Conserving) (listener : ℕ × ℕ) :
    (p.callListener listener).Conserving := by
  rw [ParentIoBudgetPool.callListener]
  split
  · rw [cancelWaiter]
    split
    · exact h
    · exact conserving_dispatchWhileCapacity _
  · exact h

/-! ## Every run -/

/-- What is kept between two events. -/
structure Steady (p : ParentIoBudgetPool) : Prop where
  accounts : p.Accounts
  conserving : p.Conserving

theorem Accounts.steady (h : p.Accounts) : p.dispatchWhileCapacity.Steady :=
  ⟨h.dispatchWhileCapacity, conserving_dispatchWhileCapacity p⟩

theorem Steady.callListeners {listeners : List (ℕ × ℕ)} :
    ∀ {p : ParentIoBudgetPool}, p.Steady →
      (listeners.foldl ParentIoBudgetPool.callListener p).Steady := by
  induction listeners with
  | nil => exact fun h => h
  | cons listener rest ih =>
    intro p h
    exact ih ⟨h.accounts.callListener listener, h.conserving.callListener listener⟩

theorem Steady.step (h : p.Steady) (event : BulkheadEvent) : (p.step event).Steady := by
  cases event with
  | acquire priority isFastIo workClass signal =>
    show (p.acquire priority isFastIo workClass signal).Steady
    unfold acquire
    split
    · exact h
    · split
      · exact (h.accounts.enqueue rfl).steady
      · exact h
  | abort signal =>
    show (p.abort signal).Steady
    rw [abort]
    split
    · exact h
    · have hsignal : { p with aborted := p.aborted ++ [signal] }.Steady :=
        ⟨⟨h.accounts.active, h.accounts.classActive, h.accounts.pending, h.accounts.active_le,
          h.accounts.classActive_le, h.accounts.once, h.accounts.known, h.accounts.slots⟩,
          h.conserving⟩
      exact hsignal.callListeners
  | release index =>
    show (p.release index).Steady
    rw [release]
    cases hslot : p.slots[index]? with
    | none => exact h
    | some slot =>
      dsimp only
      split
      · exact h
      · next hheld =>
        exact (h.accounts.giveBack hslot (Bool.eq_false_iff.mpr hheld)).steady

theorem steady_new {capacity : Number} {classCapacities : ParentIoWorkClass → Number}
    (h : new capacity classCapacities = some p) : p.Steady := by
  unfold new at h
  split at h
  · cases h
  · split at h
    · obtain rfl := Option.some.inj h
      exact ⟨⟨rfl, fun _ => rfl, fun _ => rfl, Nat.zero_le _, fun _ => Nat.zero_le _,
        nodup_nil, fun _ hn => absurd hn not_mem_nil, rfl⟩,
        fun _ hw => absurd hw not_mem_nil⟩
    · cases h

/-- The counters, the queue, the slots and the promises of a pool. -/
structure Sound (p : ParentIoBudgetPool) : Prop where
  active_eq_classes : p.getStats.active
    = (ParentIoWorkClass.all.map fun c => (p.getStats.byClass c).active).sum
  active_eq_slots : p.getStats.active = p.slots.countP fun s => !s.released
  active_le : p.getStats.active ≤ p.capacity
  class_active_le : ∀ c, (p.getStats.byClass c).active ≤ p.classCapacities c
  pending_eq : ∀ c, (p.getStats.byClass c).pending = p.waiters.countP fun w => w.workClass = c
  settled_once : (p.settled.map Prod.fst).Nodup
  queued_unsettled : ∀ waiter ∈ p.waiters, waiter.sequence ∉ p.settled.map Prod.fst
  slots_granted : p.slots.map Slot.sequence
    = (p.settled.filter fun entry => entry.2 = .granted).map Prod.fst
  work_conserving : ∀ waiter ∈ p.waiters, p.canDispatch waiter = false

/-- The slots that are held, class by class. -/
theorem countP_slots (slots : List Slot) : (slots.countP fun s => !s.released)
    = (ParentIoWorkClass.all.map fun c =>
        slots.countP fun s => !s.released && s.workClass = c).sum := by
  induction slots with
  | nil => rfl
  | cons slot rest ih =>
    obtain ⟨sequence, workClass, isFastIo, released⟩ := slot
    simp only [ParentIoWorkClass.all, map_cons, map_nil, sum_cons, sum_nil,
      countP_cons] at ih ⊢
    cases released <;> cases workClass <;> simp [ih] <;> omega

theorem Steady.sound (h : p.Steady) : p.Sound := by
  obtain ⟨⟨hactive, hclassActive, hpending, hle, hclassLe, honce, -, hslots⟩, hconserving⟩ := h
  obtain ⟨hsettled, -, hapart⟩ := nodup_append.mp honce
  refine ⟨?_, hactive, hle, hclassLe, hpending, hsettled, fun waiter hwaiter hmem => ?_, hslots,
    hconserving⟩
  · show p.active = _
    rw [hactive, countP_slots]
    exact congrArg List.sum (map_congr_left fun c _ => (hclassActive c).symm)
  · exact hapart _ hmem _ (mem_map_of_mem hwaiter) rfl

/-- In every state a pool reaches, its counters are right, no capacity is exceeded, no promise
is settled twice and no queued waiter could be dispatched. -/
theorem bulkhead_sound {capacity : Number} {classCapacities : ParentIoWorkClass → Number}
    (h : new capacity classCapacities = some p) (events : List BulkheadEvent) :
    (Run.run ParentIoBudgetPool.step p events).Sound :=
  (Run.run_invariant (fun _ event h => h.step event) (steady_new h) events).sound

/-- Three searches, of which one waits, an abort of that one and a slot released twice. -/
theorem searches_sound : ∃ p, new parentIoBulkheadCapacity ParentIoWorkClass.capacity = some p ∧
    (Run.run ParentIoBudgetPool.step p
      [.acquire (.finite 1) true (some (text "search")) none,
        .acquire (.finite 1) true (some (text "search")) none,
        .acquire (.finite 2) false (some (text "search")) (some 7), .abort 7, .release 0,
        .release 0]).Sound := by
  obtain ⟨p, hp⟩ : ∃ p, new parentIoBulkheadCapacity ParentIoWorkClass.capacity = some p :=
    ⟨_, rfl⟩
  exact ⟨p, hp, bulkhead_sound hp _⟩

end ParentIoBudgetPool

end Lumi.Io
