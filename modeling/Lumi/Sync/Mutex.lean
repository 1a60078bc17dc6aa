import Mathlib.Data.List.Basic

/-!
# The re-entrant mutex

`ReentrantAsyncMutex` keeps a holder id, a hold count and a queue of waiters.  A
caller is known by an id `ι`; a call of `acquire` that has to wait is known by a
ticket `τ`, the promise it returned.

The two functions that can settle that promise are kept apart (`ResolveFn`): the
`resolve` the promise constructor hands out, and the closure around it that the
queue entry stores.  The timeout handler looks for the former in a queue that
holds the latter, and two functions are equal only if they are the same object, so
it finds nothing (`timeout_eq`): a waiter whose time is up stays where it is.
-/

namespace Lumi.Sync

/-- A function that settles the promise of a call: its own `resolve`, or the closure that
first clears the timer. -/
inductive ResolveFn (τ : Type*)
  | promise (ticket : τ)
  | wrapper (ticket : τ)
  deriving DecidableEq, Repr

/-- The promise a function settles. -/
def ResolveFn.ticket {τ : Type*} : ResolveFn τ → τ
  | promise ticket | wrapper ticket => ticket

/-- `MutexWaiter`. -/
structure Waiter (τ ι : Type*) where
  resolve : ResolveFn τ
  holderId : ι
  deriving DecidableEq, Repr

structure ReentrantAsyncMutex (τ ι : Type*) where
  queue : List (Waiter τ ι)
  locked : Bool
  currentHolderId : Option ι
  holdCount : ℕ
  deriving DecidableEq, Repr

/-- What `acquire` returns: a promise that is settled, or one that waits in the queue. -/
inductive Acquired
  | granted
  | queued
  deriving DecidableEq, Repr

namespace ReentrantAsyncMutex

variable {τ ι : Type*}

def init : ReentrantAsyncMutex τ ι := ⟨[], false, none, 0⟩

section

variable (m : ReentrantAsyncMutex τ ι)

/-- `acquire` of the caller `callerId`; the promise it may have to wait for is `ticket`. -/
def acquire [DecidableEq ι] (ticket : τ) (callerId : ι) : Acquired × ReentrantAsyncMutex τ ι :=
  -- Re-entrancy: the caller owns the lock
  if m.locked ∧ m.currentHolderId = some callerId then
    (.granted, { m with holdCount := m.holdCount + 1 })
  else if ¬ m.locked then
    (.granted, { m with locked := true, currentHolderId := some callerId, holdCount := 1 })
  else
    (.queued, { m with queue := m.queue ++ [⟨.wrapper ticket, callerId⟩] })

/-- `release`, with the waiter whose promise it resolves. -/
def release [DecidableEq ι] (callerId : ι) : Option (Waiter τ ι) × ReentrantAsyncMutex τ ι :=
  if m.currentHolderId ≠ some callerId then (none, m)
  else
    let holdCount := m.holdCount - 1
    if holdCount > 0 then (none, { m with holdCount })
    else
      match m.queue with
      | next :: queue => (some next, ⟨queue, m.locked, some next.holderId, 1⟩)
      | [] => (none, ⟨[], false, none, 0⟩)

/-- The handler of the timer that `acquire` sets for `ticket`, with the promise it rejects. -/
def timeout [DecidableEq τ] (ticket : τ) : Option τ × ReentrantAsyncMutex τ ι :=
  match m.queue.findIdx? fun w => w.resolve = .promise ticket with
  | some idx => (some ticket, { m with queue := m.queue.eraseIdx idx })
  | none => (none, m)

/-- Every entry of the queue holds a closure, never the `resolve` of a promise. -/
def QueueWraps : Prop :=
  ∀ w ∈ m.queue, w.resolve = .wrapper w.resolve.ticket

end

/-- The handler of a timer finds no entry. -/
theorem timeout_eq [DecidableEq τ] {m : ReentrantAsyncMutex τ ι} (h : m.QueueWraps) (ticket : τ) :
    m.timeout ticket = (none, m) := by
  have hnone : (m.queue.findIdx? fun w => w.resolve = .promise ticket) = none := by
    rw [List.findIdx?_eq_none_iff]
    intro w hw
    rw [h w hw]
    rfl
  rw [timeout, hnone]

variable [DecidableEq ι] {m : ReentrantAsyncMutex τ ι} {callerId : ι}

theorem acquire_of_holder (hlocked : m.locked = true) (hholder : m.currentHolderId = some callerId)
    (ticket : τ) :
    m.acquire ticket callerId = (.granted, { m with holdCount := m.holdCount + 1 }) := by
  rw [acquire, if_pos ⟨hlocked, hholder⟩]

theorem acquire_of_unlocked (hlocked : m.locked = false) (ticket : τ) :
    m.acquire ticket callerId = (.granted,
      { m with locked := true, currentHolderId := some callerId, holdCount := 1 }) := by
  simp [acquire, hlocked]

theorem acquire_of_other (hlocked : m.locked = true) (hother : m.currentHolderId ≠ some callerId)
    (ticket : τ) :
    m.acquire ticket callerId
      = (.queued, { m with queue := m.queue ++ [⟨.wrapper ticket, callerId⟩] }) := by
  simp [acquire, hlocked, hother]

theorem release_of_other (hother : m.currentHolderId ≠ some callerId) :
    m.release callerId = (none, m) := by
  rw [release, if_pos hother]

section

variable (hholder : m.currentHolderId = some callerId)
include hholder

theorem release_of_nested (hcount : 1 < m.holdCount) :
    m.release callerId = (none, { m with holdCount := m.holdCount - 1 }) := by
  have hpos : m.holdCount - 1 > 0 := Nat.sub_pos_of_lt hcount
  simp only [release, hholder, ne_eq, not_true_eq_false, if_false, if_pos hpos]

theorem release_to_next (hcount : m.holdCount = 1) {next : Waiter τ ι} {queue : List (Waiter τ ι)}
    (hqueue : m.queue = next :: queue) :
    m.release callerId = (some next, ⟨queue, m.locked, some next.holderId, 1⟩) := by
  simp [release, hholder, hcount, hqueue]

theorem release_to_nobody (hcount : m.holdCount = 1) (hqueue : m.queue = []) :
    m.release callerId = (none, init) := by
  simp [release, hholder, hcount, hqueue, init]

end

end ReentrantAsyncMutex

end Lumi.Sync
