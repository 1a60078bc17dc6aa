import Lumi.Sync.Mutex

/-!
# Tasks that run callbacks under mutexes

A task carries the store of the asynchronous context, which is one for all mutexes:
`runLocked` takes its caller id from the store, or draws a random one, and runs the
callback with that id as the store; `acquire`, which it calls before, does the same
once more on its own.  With a store both ids are the store.  Without one they are
two different random ids: the mutex is held under the second while the callback runs
under the first.

A frame of a task is a `runLocked` it is inside of, the innermost first.  A random
id is the task that drew it with a serial number: no two are the same.
-/

namespace Lumi.Sync

open Function

/-- `crypto.randomUUID()`: ids drawn by different tasks differ, and those of one task are
numbered. -/
structure Uuid (τ : Type*) where
  owner : τ
  serial : ℕ
  deriving DecidableEq, Repr

/-- A `runLocked` whose callback runs: the id its lock is released under, and the store
outside of the callback. -/
structure Frame (μ τ : Type*) where
  mutex : μ
  releaseId : Uuid τ
  outerStore : Option (Uuid τ)
  deriving DecidableEq, Repr

/-- A `runLocked` that waits for its lock, with the id its callback will run under. -/
structure Pending (μ τ : Type*) where
  mutex : μ
  callbackId : Uuid τ
  deriving DecidableEq, Repr

structure Task (μ τ : Type*) where
  store : Option (Uuid τ)
  frames : List (Frame μ τ)
  pending : Option (Pending μ τ)
  drawn : ℕ
  deriving DecidableEq, Repr

structure Process (μ τ : Type*) where
  mutexes : μ → ReentrantAsyncMutex τ (Uuid τ)
  tasks : τ → Task μ τ

/-- What a task does next: call `runLocked`, or finish the callback it is in; or the timer
of the lock it waits for runs out. -/
inductive TaskEvent (μ τ : Type*)
  | enter (task : τ) (mutex : μ)
  | leave (task : τ)
  | timeout (task : τ)
  deriving DecidableEq, Repr

variable {μ τ : Type*}

/-- The lock is there: the callback starts. -/
def Task.enterCallback (task : Task μ τ) (mutex : μ) (releaseId callbackId : Uuid τ) : Task μ τ :=
  { task with
    store := some callbackId
    frames := ⟨mutex, releaseId, task.store⟩ :: task.frames
    pending := none }

namespace Process

def init : Process μ τ := ⟨fun _ => .init, fun _ => ⟨none, [], none, 0⟩⟩

/-- The callbacks on a mutex that a task is inside of. -/
def callbacks [DecidableEq μ] (s : Process μ τ) (m : μ) (t : τ) : List (Frame μ τ) :=
  (s.tasks t).frames.filter (·.mutex = m)

/-- The id the callback of a `runLocked` will run under: the store, or the first of two ids
drawn. -/
def callbackId (s : Process μ τ) (t : τ) : Uuid τ :=
  (s.tasks t).store.getD ⟨t, (s.tasks t).drawn⟩

/-- The id its `acquire` asks with: the store, or the second. -/
def callerId (s : Process μ τ) (t : τ) : Uuid τ :=
  (s.tasks t).store.getD ⟨t, (s.tasks t).drawn + 1⟩

variable [DecidableEq μ]

theorem mem_callbacks {s : Process μ τ} {m : μ} {t : τ} {f : Frame μ τ} :
    f ∈ s.callbacks m t ↔ f ∈ (s.tasks t).frames ∧ f.mutex = m := by
  simp [callbacks]

variable [DecidableEq τ]

section

variable (s : Process μ τ)

/-- The process with one mutex and one task changed. -/
def put (m : μ) (mutex : ReentrantAsyncMutex τ (Uuid τ)) (t : τ) (task : Task μ τ) : Process μ τ :=
  ⟨Function.update s.mutexes m mutex, Function.update s.tasks t task⟩

/-- `runLocked`, up to the callback or to the wait for the lock. -/
def enter (t : τ) (m : μ) : Process μ τ :=
  let task := { s.tasks t with drawn := (s.tasks t).drawn + 2 }
  match (s.mutexes m).acquire t (s.callerId t) with
  | (.granted, mutex) => s.put m mutex t (task.enterCallback m (s.callerId t) (s.callbackId t))
  | (.queued, mutex) => s.put m mutex t { task with pending := some ⟨m, s.callbackId t⟩ }

/-- The promise of a waiter is resolved: the task that awaits it starts its callback. -/
def resume (m : μ) (next : Waiter τ (Uuid τ)) : Process μ τ :=
  let t := next.resolve.ticket
  match (s.tasks t).pending with
  | some pending =>
    s.put m (s.mutexes m) t ((s.tasks t).enterCallback m next.holderId pending.callbackId)
  | none => s

/-- The end of a callback: the `finally` of its `runLocked` releases. -/
def leave (t : τ) : Process μ τ :=
  match (s.tasks t).frames with
  | [] => s
  | frame :: frames =>
    let task := { s.tasks t with store := frame.outerStore, frames }
    match (s.mutexes frame.mutex).release frame.releaseId with
    | (some next, mutex) => (s.put frame.mutex mutex t task).resume frame.mutex next
    | (none, mutex) => s.put frame.mutex mutex t task

/-- The timer of the lock that `t` waits for; the promise it rejects is that of `t`. -/
def timeout (s : Process μ τ) (t : τ) : Process μ τ :=
  match (s.tasks t).pending with
  | none => s
  | some pending =>
    match (s.mutexes pending.mutex).timeout t with
    | (some _, mutex) => s.put pending.mutex mutex t { s.tasks t with pending := none }
    | (none, mutex) => s.put pending.mutex mutex t (s.tasks t)

def step : TaskEvent μ τ → Process μ τ
  | .enter t m => if (s.tasks t).pending = none then s.enter t m else s
  | .leave t => if (s.tasks t).pending = none then s.leave t else s
  | .timeout t => s.timeout t

end

/-! ## What a change of one mutex and one task shows -/

section

variable {s : Process μ τ} {m m' : μ} {mx : ReentrantAsyncMutex τ (Uuid τ)} {t t' : τ}
  {task : Task μ τ}

@[simp] theorem put_mutexes_self : (s.put m mx t task).mutexes m = mx :=
  update_self _ _ _

theorem put_mutexes_of_ne (hne : m' ≠ m) : (s.put m mx t task).mutexes m' = s.mutexes m' :=
  update_of_ne hne _ _

@[simp] theorem put_tasks_self : (s.put m mx t task).tasks t = task :=
  update_self _ _ _

theorem put_tasks_of_ne (hne : t' ≠ t) : (s.put m mx t task).tasks t' = s.tasks t' :=
  update_of_ne hne _ _

@[simp] theorem put_callbacks_self :
    (s.put m mx t task).callbacks m' t = task.frames.filter (·.mutex = m') := by
  rw [callbacks, put_tasks_self]

theorem put_callbacks_of_ne (hne : t' ≠ t) :
    (s.put m mx t task).callbacks m' t' = s.callbacks m' t' := by
  rw [callbacks, put_tasks_of_ne hne, callbacks]

theorem put_self (s : Process μ τ) (m : μ) (t : τ) : s.put m (s.mutexes m) t (s.tasks t) = s := by
  simp [put]

end

end Process

end Lumi.Sync
