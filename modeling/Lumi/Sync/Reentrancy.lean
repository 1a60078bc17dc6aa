import Mathlib.Data.List.Nodup
import Lumi.Lib.Run
import Lumi.Sync.Tasks

/-!
# Nested `runLocked`

Every `runLocked` inside a callback is called with a store, so its lock is taken and
its callback runs under that one id.  Only the outermost `runLocked` of a task is
called without (`TaskInv`): it holds its mutex under an id that nothing inside its
callback knows, and a `runLocked` on the same mutex there is taken for that of a
stranger and queued behind its own caller.  So re-entrancy works on every mutex but
the one that a task takes first (`runs_reentrant_iff`).
-/

namespace Lumi.Sync

open Run List Option

variable {μ τ : Type*}

section

variable [DecidableEq μ] [DecidableEq τ]

/-- **Re-entrancy in one step.**  A `runLocked` on a mutex inside a callback on the same mutex
starts its callback at once; as long as the task is inside a callback on the mutex nobody else
is; and when its outermost callback on the mutex is done the next waiter has the mutex, or
nobody. -/
structure StepReentrant (s : Process μ τ) (e : TaskEvent μ τ) : Prop where
  nested : ∀ t m, e = .enter t m → (s.tasks t).pending = none → s.callbacks m t ≠ [] →
    (((s.step e).callbacks m t).length = (s.callbacks m t).length + 1)
  kept : ∀ t m, s.callbacks m t ≠ [] → (s.step e).callbacks m t ≠ [] →
    ∀ t', t' ≠ t → (s.step e).callbacks m t' = []
  handed : ∀ t m, s.callbacks m t ≠ [] → (s.step e).callbacks m t = [] →
    ((s.mutexes m).queue = [] → ((s.step e).mutexes m).locked = false) ∧
      ∀ next queue, (s.mutexes m).queue = next :: queue →
        (s.step e).callbacks m next.resolve.ticket ≠ [] ∧ ((s.step e).mutexes m).queue = queue

/-- A `runLocked` inside callbacks on the same mutex: all of these were called with a store,
that is, inside the callback of some `runLocked`. -/
def CalledWithStore (s : Process μ τ) (e : TaskEvent μ τ) : Prop :=
  ∀ t m, e = .enter t m → (s.tasks t).pending = none →
    ∀ frame ∈ s.callbacks m t, frame.outerStore ≠ none

end

/-! ## The invariant of a task -/

/-- Only the last frame was called without a store. -/
def OutermostLast : List (Frame μ τ) → Prop
  | [] => True
  | frame :: rest => (frame.outerStore = none ↔ rest = []) ∧ OutermostLast rest

/-- The ids of a `runLocked`: both the store, or two random ids of the task that differ. -/
structure IdsDrawn (t : τ) (store : Option (Uuid τ)) (releaseId callbackId : Uuid τ) : Prop where
  of_some : ∀ a, store = some a → releaseId = a ∧ callbackId = a
  of_none : store = none → releaseId.owner = t ∧ callbackId.owner = t ∧ releaseId ≠ callbackId

/-- The frames of a task and its store: inner frames were called with the store, and are
released under it; the outermost is released under another id. -/
structure TaskInv (t : τ) (store : Option (Uuid τ)) (frames : List (Frame μ τ)) : Prop where
  store_none : store = none ↔ frames = []
  store_owner : ∀ a, store = some a → a.owner = t
  releaseId_owner : ∀ f ∈ frames, f.releaseId.owner = t
  inner : ∀ f ∈ frames, ∀ a, f.outerStore = some a → store = some a ∧ f.releaseId = a
  outermost : ∀ f ∈ frames, f.outerStore = none → store ≠ some f.releaseId
  last : OutermostLast frames

theorem taskInv_nil (t : τ) : TaskInv t none ([] : List (Frame μ τ)) := by
  constructor <;> simp [OutermostLast]

variable {frames : List (Frame μ τ)} {store : Option (Uuid τ)}

theorem TaskInv.ids {t : τ} (h : TaskInv t store frames) {releaseId callbackId : Uuid τ}
    (hids : IdsDrawn t store releaseId callbackId) :
    releaseId.owner = t ∧ callbackId.owner = t := by
  cases hstore : store with
  | none => exact ⟨(hids.of_none hstore).1, (hids.of_none hstore).2.1⟩
  | some a =>
    obtain ⟨hrelease, hcallback⟩ := hids.of_some a hstore
    have howner := h.store_owner a hstore
    exact ⟨by rw [hrelease, howner], by rw [hcallback, howner]⟩

theorem TaskInv.push {t : τ} (h : TaskInv t store frames) (m : μ) {releaseId callbackId : Uuid τ}
    (hids : IdsDrawn t store releaseId callbackId) :
    TaskInv t (some callbackId) (⟨m, releaseId, store⟩ :: frames) where
  store_none := by simp
  store_owner a ha := by
    rw [← Option.some.inj ha]
    exact (h.ids hids).2
  releaseId_owner f hf := by
    rcases mem_cons.mp hf with rfl | hf
    · exact (h.ids hids).1
    · exact h.releaseId_owner f hf
  inner f hf a ha := by
    rcases mem_cons.mp hf with rfl | hf
    · obtain ⟨hrelease, hcallback⟩ := hids.of_some a ha
      exact ⟨by rw [hcallback], hrelease⟩
    · obtain ⟨hstore, hrelease⟩ := h.inner f hf a ha
      exact ⟨by rw [(hids.of_some a hstore).2], hrelease⟩
  outermost f hf hnone := by
    rcases mem_cons.mp hf with rfl | hf
    · exact fun heq => (hids.of_none hnone).2.2 (Option.some.inj heq).symm
    · -- the frames are not empty, so the callback keeps the store
      obtain ⟨a, ha⟩ : ∃ a, store = some a := by
        rw [← ne_none_iff_exists']
        intro hstore
        rw [h.store_none.mp hstore] at hf
        cases hf
      rw [(hids.of_some a ha).2, ← ha]
      exact h.outermost f hf hnone
  last := ⟨h.store_none, h.last⟩

theorem TaskInv.pop {t : τ} {frame : Frame μ τ} (h : TaskInv t store (frame :: frames)) :
    TaskInv t frame.outerStore frames := by
  have hmem : frame ∈ frame :: frames := mem_cons_self
  -- what is left of a stack was called inside a callback under the same store
  have hkeep : frames ≠ [] → frame.outerStore = store := by
    intro hne
    cases houter : frame.outerStore with
    | none => exact absurd (h.last.1.mp houter) hne
    | some a => exact (h.inner frame hmem a houter).1.symm
  have hkeep' : ∀ f ∈ frames, frame.outerStore = store :=
    fun f hf => hkeep (ne_nil_of_mem hf)
  exact
    { store_none := h.last.1
      store_owner := fun a ha => h.store_owner a (h.inner frame hmem a ha).1
      releaseId_owner := fun f hf => h.releaseId_owner f (mem_cons_of_mem _ hf)
      inner := by
        intro f hf a ha
        rw [hkeep' f hf]
        exact h.inner f (mem_cons_of_mem _ hf) a ha
      outermost := by
        intro f hf hnone
        rw [hkeep' f hf]
        exact h.outermost f (mem_cons_of_mem _ hf) hnone
      last := h.last.2 }

/-! ## The invariant of a mutex -/

namespace Process

theorem idsDrawn (s : Process μ τ) (t : τ) :
    IdsDrawn t (s.tasks t).store (s.callerId t) (s.callbackId t) := by
  constructor
  · intro a ha
    simp [callerId, callbackId, ha]
  · intro hnone
    simp [callerId, callbackId, hnone]

variable [DecidableEq μ]

/-- A waiter in the queue of `m`: its task waits for `m`, is not inside a callback on `m`, and
drew the ids. -/
structure Waits (s : Process μ τ) (m : μ) (w : Waiter τ (Uuid τ)) : Prop where
  wraps : w.resolve = .wrapper w.resolve.ticket
  outside : s.callbacks m w.resolve.ticket = []
  pending : ∃ callbackId, (s.tasks w.resolve.ticket).pending = some ⟨m, callbackId⟩ ∧
    IdsDrawn w.resolve.ticket (s.tasks w.resolve.ticket).store w.holderId callbackId

/-- `t` is the one task inside callbacks on `m`: `m` is held under the id of all of them, and
counts them. -/
structure HeldBy (s : Process μ τ) (m : μ) (t : τ) : Prop where
  inside : s.callbacks m t ≠ []
  holder : ∀ f ∈ s.callbacks m t, (s.mutexes m).currentHolderId = some f.releaseId
  count : (s.mutexes m).holdCount = (s.callbacks m t).length
  alone : ∀ t', t' ≠ t → s.callbacks m t' = []

structure MutexInv (s : Process μ τ) (m : μ) : Prop where
  free : (s.mutexes m).locked = false → (s.mutexes m).queue = [] ∧
    (s.mutexes m).currentHolderId = none ∧ ∀ t, s.callbacks m t = []
  held : (s.mutexes m).locked = true → ∃ t, s.HeldBy m t
  waits : ∀ w ∈ (s.mutexes m).queue, s.Waits m w
  once : ((s.mutexes m).queue.map (·.resolve.ticket)).Nodup

structure Inv (s : Process μ τ) : Prop where
  tasks : ∀ t, TaskInv t (s.tasks t).store (s.tasks t).frames
  mutexes : ∀ m, s.MutexInv m

theorem inv_init : Inv (init : Process μ τ) where
  tasks t := taskInv_nil t
  mutexes m := by
    constructor <;> simp [init, ReentrantAsyncMutex.init, callbacks]

variable {s : Process μ τ}

theorem MutexInv.queueWraps {m : μ} (h : s.MutexInv m) : (s.mutexes m).QueueWraps :=
  fun w hw => (h.waits w hw).wraps

/-- What a step leaves alone: the mutex, the callbacks on it, and the tasks that wait for it. -/
theorem MutexInv.congr {s s' : Process μ τ} {m : μ} (h : s.MutexInv m)
    (hmutex : s'.mutexes m = s.mutexes m) (hcallbacks : ∀ t, s'.callbacks m t = s.callbacks m t)
    (hwaiting : ∀ t callbackId, (s.tasks t).pending = some ⟨m, callbackId⟩ →
      (s'.tasks t).pending = some ⟨m, callbackId⟩ ∧ (s'.tasks t).store = (s.tasks t).store) :
    s'.MutexInv m where
  free := by
    simp only [hmutex, hcallbacks]
    exact h.free
  held hlocked := by
    rw [hmutex] at hlocked
    obtain ⟨t, ht⟩ := h.held hlocked
    refine ⟨t, ?_, ?_, ?_, ?_⟩
    · rw [hcallbacks]
      exact ht.inside
    · rw [hcallbacks, hmutex]
      exact ht.holder
    · rw [hcallbacks, hmutex]
      exact ht.count
    · intro t' hne
      rw [hcallbacks]
      exact ht.alone t' hne
  waits w hw := by
    rw [hmutex] at hw
    have hwaits := h.waits w hw
    obtain ⟨callbackId, hpending, hids⟩ := hwaits.pending
    obtain ⟨hpending', hstore⟩ := hwaiting _ callbackId hpending
    exact ⟨hwaits.wraps, by rw [hcallbacks]; exact hwaits.outside,
      callbackId, hpending', by rw [hstore]; exact hids⟩
  once := by
    rw [hmutex]
    exact h.once

/-! ## What a task sees of a mutex -/

section

variable {s : Process μ τ} {t : τ} {m : μ}

/-- Inside callbacks that were called with the store, the mutex is the task's own. -/
theorem releaseId_eq_callerId (h : TaskInv t (s.tasks t).store (s.tasks t).frames) {f : Frame μ τ}
    (hf : f ∈ s.callbacks m t) (houter : f.outerStore ≠ none) : f.releaseId = s.callerId t := by
  obtain ⟨a, ha⟩ := ne_none_iff_exists'.mp houter
  obtain ⟨hstore, hrelease⟩ := h.inner f (mem_callbacks.mp hf).1 a ha
  rw [hrelease, ((s.idsDrawn t).of_some a hstore).1]

/-- Inside a callback that was called without a store, the task takes itself for a stranger. -/
theorem releaseId_ne_callerId (h : TaskInv t (s.tasks t).store (s.tasks t).frames) {f : Frame μ τ}
    (hf : f ∈ s.callbacks m t) (houter : f.outerStore = none) : f.releaseId ≠ s.callerId t := by
  have hmem := (mem_callbacks.mp hf).1
  intro heq
  cases hstore : (s.tasks t).store with
  | none =>
    rw [h.store_none.mp hstore] at hmem
    cases hmem
  | some a =>
    apply h.outermost f hmem houter
    rw [heq, hstore, ((s.idsDrawn t).of_some a hstore).1]

/-- The waiters of a queue are other tasks than one that does not wait. -/
theorem ticket_ne_of_not_pending {w : Waiter τ (Uuid τ)} (hw : s.Waits m w)
    (hpending : (s.tasks t).pending = none) : w.resolve.ticket ≠ t := by
  intro heq
  obtain ⟨c, hc, -⟩ := hw.pending
  rw [heq, hpending] at hc
  cases hc

theorem Inv.heldBy (h : s.Inv) (hinside : s.callbacks m t ≠ []) :
    (s.mutexes m).locked = true ∧ s.HeldBy m t := by
  cases hlocked : (s.mutexes m).locked with
  | false => exact absurd (((h.mutexes m).free hlocked).2.2 t) hinside
  | true =>
    obtain ⟨t', hheld⟩ := (h.mutexes m).held hlocked
    by_cases ht : t = t'
    · exact ⟨rfl, ht ▸ hheld⟩
    · exact absurd (hheld.alone t ht) hinside

theorem holder_ne_of_other (h : s.Inv) {t' : τ} (hne : t' ≠ t) (hheld : s.HeldBy m t') :
    (s.mutexes m).currentHolderId ≠ some (s.callerId t) := by
  obtain ⟨f, hf⟩ := exists_mem_of_ne_nil _ hheld.inside
  have howner := (h.tasks t').releaseId_owner f (mem_callbacks.mp hf).1
  have howner' := ((h.tasks t).ids (s.idsDrawn t)).1
  rw [hheld.holder f hf]
  intro heq
  rw [Option.some.inj heq, howner'] at howner
  exact hne howner.symm

variable {frame : Frame μ τ} {frames : List (Frame μ τ)}

theorem callbacks_of_frames (hframes : (s.tasks t).frames = frame :: frames) :
    s.callbacks frame.mutex t = frame :: frames.filter (·.mutex = frame.mutex) := by
  rw [callbacks, hframes, filter_cons_of_pos (by simp)]

/-- The task after the callback: the stack is popped, the store is that of the caller. -/
def popped (s : Process μ τ) (t : τ) (frame : Frame μ τ) (frames : List (Frame μ τ)) : Task μ τ :=
  { s.tasks t with store := frame.outerStore, frames }

theorem Inv.taskInv_popped (h : s.Inv) (hframes : (s.tasks t).frames = frame :: frames) :
    TaskInv t (s.popped t frame frames).store (s.popped t frame frames).frames := by
  have htask := h.tasks t
  rw [hframes] at htask
  exact htask.pop

end

/-! ## A step and the invariant -/

variable [DecidableEq τ]

section

variable {s : Process μ τ} {m m' : μ} {mx : ReentrantAsyncMutex τ (Uuid τ)} {t t' : τ}
  {task : Task μ τ}

/-- Another mutex sees nothing of a step of `t` on `m`, if the callbacks of `t` on that other
mutex stay and `t` does not wait for it. -/
theorem MutexInv.put (h : s.MutexInv m') (hne : m' ≠ m)
    (hframes : task.frames.filter (·.mutex = m') = s.callbacks m' t)
    (hpending : ∀ c, (s.tasks t).pending ≠ some ⟨m', c⟩) : (s.put m mx t task).MutexInv m' := by
  apply h.congr (put_mutexes_of_ne hne)
  · intro t'
    by_cases ht : t' = t
    · rw [ht, put_callbacks_self, hframes]
    · exact put_callbacks_of_ne ht
  · intro t' c hc
    have ht : t' ≠ t := fun heq => hpending c (heq ▸ hc)
    rw [put_tasks_of_ne ht]
    exact ⟨hc, rfl⟩

theorem Waits.put {w : Waiter τ (Uuid τ)} (h : s.Waits m' w) (hne : w.resolve.ticket ≠ t) :
    (s.put m mx t task).Waits m' w := by
  obtain ⟨c, hc, hids⟩ := h.pending
  refine ⟨h.wraps, ?_, c, ?_, ?_⟩
  · rw [put_callbacks_of_ne hne]
    exact h.outside
  · rw [put_tasks_of_ne hne]
    exact hc
  · rw [put_tasks_of_ne hne]
    exact hids

theorem taskInv_put (h : ∀ t, TaskInv t (s.tasks t).store (s.tasks t).frames)
    (htask : TaskInv t task.store task.frames) (t' : τ) :
    TaskInv t' ((s.put m mx t task).tasks t').store ((s.put m mx t task).tasks t').frames := by
  by_cases ht : t' = t
  · rw [ht, put_tasks_self]
    exact htask
  · rw [put_tasks_of_ne ht]
    exact h t'

end

/-- The task `t` starts a callback on `m`, which it holds from then on under `releaseId`. -/
theorem inv_of_granted {t : τ} {m : μ} {mx : ReentrantAsyncMutex τ (Uuid τ)}
    {releaseId callbackId : Uuid τ} (drawn : ℕ)
    (htasks : ∀ t, TaskInv t (s.tasks t).store (s.tasks t).frames)
    (hother : ∀ m', m' ≠ m → s.MutexInv m')
    (hids : IdsDrawn t (s.tasks t).store releaseId callbackId)
    (hpending : ∀ m' c, m' ≠ m → (s.tasks t).pending ≠ some ⟨m', c⟩) (hlocked : mx.locked = true)
    (hholder : mx.currentHolderId = some releaseId)
    (hcount : mx.holdCount = (s.callbacks m t).length + 1)
    (hsame : ∀ f ∈ s.callbacks m t, f.releaseId = releaseId)
    (halone : ∀ t', t' ≠ t → s.callbacks m t' = [])
    (hwaits : ∀ w ∈ mx.queue, s.Waits m w ∧ w.resolve.ticket ≠ t)
    (honce : (mx.queue.map (·.resolve.ticket)).Nodup) :
    Inv (s.put m mx t ({ s.tasks t with drawn }.enterCallback m releaseId callbackId)) where
  tasks := taskInv_put htasks ((htasks t).push m hids)
  mutexes m' := by
    by_cases hm : m' = m
    · have hcallbacks : ({ s.tasks t with drawn }.enterCallback m releaseId
          callbackId).frames.filter (·.mutex = m)
          = ⟨m, releaseId, (s.tasks t).store⟩ :: s.callbacks m t := by
        simp [Task.enterCallback, callbacks]
      subst hm
      constructor
      · intro hfree
        rw [put_mutexes_self, hlocked] at hfree
        cases hfree
      · intro _
        refine ⟨t, ?_, ?_, ?_, ?_⟩
        · rw [put_callbacks_self, hcallbacks]
          exact cons_ne_nil _ _
        · intro f hf
          rw [put_callbacks_self, hcallbacks] at hf
          rw [put_mutexes_self, hholder]
          rcases mem_cons.mp hf with rfl | hf
          · rfl
          · rw [hsame f hf]
        · rw [put_callbacks_self, hcallbacks, put_mutexes_self, hcount, length_cons]
        · intro t' ht
          rw [put_callbacks_of_ne ht]
          exact halone t' ht
      · intro w hw
        rw [put_mutexes_self] at hw
        exact (hwaits w hw).1.put (hwaits w hw).2
      · rw [put_mutexes_self]
        exact honce
    · refine (hother m' hm).put hm ?_ fun c => hpending m' c hm
      simp [Task.enterCallback, callbacks, Ne.symm hm]

/-! ### Entering -/

section

variable {s : Process μ τ} {t : τ} {m : μ}

variable {mx : ReentrantAsyncMutex τ (Uuid τ)}

theorem enter_of_granted (h : (s.mutexes m).acquire t (s.callerId t) = (.granted, mx)) :
    s.enter t m = s.put m mx t ({ s.tasks t with drawn := (s.tasks t).drawn + 2 }.enterCallback m
      (s.callerId t) (s.callbackId t)) := by
  simp only [enter, h]

theorem enter_of_queued (h : (s.mutexes m).acquire t (s.callerId t) = (.queued, mx)) :
    s.enter t m = s.put m mx t { s.tasks t with
      drawn := (s.tasks t).drawn + 2, pending := some ⟨m, s.callbackId t⟩ } := by
  simp only [enter, h]

theorem callbacks_enter_of_granted (h : (s.mutexes m).acquire t (s.callerId t) = (.granted, mx)) :
    (s.enter t m).callbacks m t
      = ⟨m, s.callerId t, (s.tasks t).store⟩ :: s.callbacks m t := by
  rw [enter_of_granted h, put_callbacks_self]
  simp [Task.enterCallback, callbacks]

theorem callbacks_enter_of_queued (h : (s.mutexes m).acquire t (s.callerId t) = (.queued, mx)) :
    (s.enter t m).callbacks m t = s.callbacks m t := by
  rw [enter_of_queued h, put_callbacks_self, callbacks]

theorem Inv.enter_free (h : s.Inv) (hpending : (s.tasks t).pending = none)
    (hfree : (s.mutexes m).locked = false) : (s.enter t m).Inv := by
  obtain ⟨-, -, hempty⟩ := (h.mutexes m).free hfree
  rw [enter_of_granted (ReentrantAsyncMutex.acquire_of_unlocked hfree t)]
  refine inv_of_granted _ h.tasks (fun m' _ => h.mutexes m') (s.idsDrawn t) ?_ rfl rfl ?_ ?_ ?_ ?_
    (h.mutexes m).once
  · intro m' c _
    rw [hpending]
    exact some_ne_none _ |>.symm
  · rw [hempty t]
    rfl
  · rw [hempty t]
    exact fun f hf => by cases hf
  · exact fun t' _ => hempty t'
  · intro w hw
    have hwaits := (h.mutexes m).waits w hw
    exact ⟨hwaits, ticket_ne_of_not_pending hwaits hpending⟩

theorem Inv.enter_own (h : s.Inv) (hpending : (s.tasks t).pending = none)
    (hlocked : (s.mutexes m).locked = true) (hheld : s.HeldBy m t)
    (hsame : ∀ f ∈ s.callbacks m t, f.releaseId = s.callerId t) :
    (s.mutexes m).acquire t (s.callerId t)
        = (.granted, { s.mutexes m with holdCount := (s.mutexes m).holdCount + 1 }) ∧
      (s.enter t m).Inv := by
  obtain ⟨f, hf⟩ := exists_mem_of_ne_nil _ hheld.inside
  have hholder : (s.mutexes m).currentHolderId = some (s.callerId t) := by
    rw [hheld.holder f hf, hsame f hf]
  have hacquire := ReentrantAsyncMutex.acquire_of_holder hlocked hholder t
  refine ⟨hacquire, ?_⟩
  rw [enter_of_granted hacquire]
  refine inv_of_granted _ h.tasks (fun m' _ => h.mutexes m') (s.idsDrawn t) ?_ hlocked hholder ?_
    hsame hheld.alone ?_ (h.mutexes m).once
  · intro m' c _
    rw [hpending]
    exact some_ne_none _ |>.symm
  · rw [← hheld.count]
  · intro w hw
    have hwaits := (h.mutexes m).waits w hw
    exact ⟨hwaits, ticket_ne_of_not_pending hwaits hpending⟩

theorem Inv.enter_other (h : s.Inv) (hpending : (s.tasks t).pending = none)
    (hlocked : (s.mutexes m).locked = true) {t' : τ} (hne : t' ≠ t) (hheld : s.HeldBy m t') :
    (s.enter t m).Inv := by
  have houtside : s.callbacks m t = [] := hheld.alone t hne.symm
  rw [enter_of_queued (ReentrantAsyncMutex.acquire_of_other hlocked
    (holder_ne_of_other h hne hheld) t)]
  refine ⟨taskInv_put h.tasks (h.tasks t), fun m' => ?_⟩
  by_cases hm : m' = m
  · subst hm
    constructor
    · intro hfree
      rw [put_mutexes_self] at hfree
      rw [hlocked] at hfree
      cases hfree
    · intro _
      refine ⟨t', ?_, ?_, ?_, ?_⟩
      · rw [put_callbacks_of_ne hne]
        exact hheld.inside
      · rw [put_callbacks_of_ne hne, put_mutexes_self]
        exact hheld.holder
      · rw [put_callbacks_of_ne hne, put_mutexes_self]
        exact hheld.count
      · intro t'' ht
        by_cases htt : t'' = t
        · rw [htt, put_callbacks_self]
          exact houtside
        · rw [put_callbacks_of_ne htt]
          exact hheld.alone t'' ht
    · intro w hw
      rw [put_mutexes_self] at hw
      rcases mem_append.mp hw with hw | hw
      · have hwaits := (h.mutexes m').waits w hw
        exact hwaits.put (ticket_ne_of_not_pending hwaits hpending)
      · rw [mem_singleton.mp hw]
        refine ⟨rfl, ?_, s.callbackId t, ?_, ?_⟩
        · show (s.put m' _ t _).callbacks m' t = []
          rw [put_callbacks_self]
          exact houtside
        · show ((s.put m' _ t _).tasks t).pending = _
          rw [put_tasks_self]
        · show IdsDrawn t ((s.put m' _ t _).tasks t).store _ _
          rw [put_tasks_self]
          exact s.idsDrawn t
    · rw [put_mutexes_self]
      simp only [map_append, map_cons, map_nil]
      refine (h.mutexes m').once.append (nodup_singleton t) ?_
      rw [disjoint_singleton]
      intro hmem
      obtain ⟨w, hw, hticket⟩ := mem_map.mp hmem
      exact ticket_ne_of_not_pending ((h.mutexes m').waits w hw) hpending hticket
  · refine (h.mutexes m').put hm rfl fun c => ?_
    rw [hpending]
    exact some_ne_none _ |>.symm

/-- Entering keeps the invariant if no callback on the mutex was called without a store. -/
theorem Inv.enter (h : s.Inv) (hpending : (s.tasks t).pending = none)
    (hstore : ∀ f ∈ s.callbacks m t, f.outerStore ≠ none) : (s.enter t m).Inv := by
  cases hlocked : (s.mutexes m).locked with
  | false => exact h.enter_free hpending hlocked
  | true =>
    obtain ⟨t', hheld⟩ := (h.mutexes m).held hlocked
    by_cases ht : t' = t
    · subst ht
      exact (h.enter_own hpending hlocked hheld fun f hf =>
        releaseId_eq_callerId (h.tasks t') hf (hstore f hf)).2
    · exact h.enter_other hpending hlocked ht hheld

end

/-! ### Leaving -/

section

variable {s : Process μ τ} {t : τ} {frame : Frame μ τ} {frames : List (Frame μ τ)}

theorem Inv.put_popped_other (h : s.Inv) (hpending : (s.tasks t).pending = none)
    (hframes : (s.tasks t).frames = frame :: frames) (mx : ReentrantAsyncMutex τ (Uuid τ)) {m : μ}
    (hm : m ≠ frame.mutex) : (s.put frame.mutex mx t (s.popped t frame frames)).MutexInv m := by
  refine (h.mutexes m).put hm ?_ fun c => ?_
  · rw [callbacks, hframes, filter_cons_of_neg (by simpa using hm.symm)]
    rfl
  · rw [hpending]
    exact (some_ne_none _).symm

/-- What the end of a callback does: the mutex stays with the task, is free, or goes to the
next waiter, whose callback starts. -/
inductive Left (s : Process μ τ) (t : τ) (frame : Frame μ τ) (frames : List (Frame μ τ)) : Prop
  | nested (hinner : frames.filter (·.mutex = frame.mutex) ≠ [])
      (heq : s.leave t = s.put frame.mutex
        { s.mutexes frame.mutex with holdCount := (s.mutexes frame.mutex).holdCount - 1 } t
        (s.popped t frame frames))
  | nobody (hinner : frames.filter (·.mutex = frame.mutex) = [])
      (hqueue : (s.mutexes frame.mutex).queue = [])
      (heq : s.leave t = s.put frame.mutex .init t (s.popped t frame frames))
  | next (next : Waiter τ (Uuid τ)) (queue : List (Waiter τ (Uuid τ))) (callbackId : Uuid τ)
      (hinner : frames.filter (·.mutex = frame.mutex) = [])
      (hqueue : (s.mutexes frame.mutex).queue = next :: queue)
      (hne : next.resolve.ticket ≠ t)
      (hpending : (s.tasks next.resolve.ticket).pending = some ⟨frame.mutex, callbackId⟩)
      (heq : s.leave t = (s.put frame.mutex ⟨queue, true, some next.holderId, 1⟩ t
        (s.popped t frame frames)).put frame.mutex ⟨queue, true, some next.holderId, 1⟩
          next.resolve.ticket ((s.tasks next.resolve.ticket).enterCallback frame.mutex
            next.holderId callbackId))

theorem Inv.left (h : s.Inv) (hpending : (s.tasks t).pending = none)
    (hframes : (s.tasks t).frames = frame :: frames) : s.Left t frame frames := by
  have hcallbacks := callbacks_of_frames hframes
  have hmem : frame ∈ s.callbacks frame.mutex t := by rw [hcallbacks]; exact mem_cons_self
  obtain ⟨hlocked, hheld⟩ := h.heldBy (ne_nil_of_mem hmem)
  have hholder := hheld.holder frame hmem
  have hcount := hheld.count
  rw [hcallbacks, length_cons] at hcount
  by_cases hinner : frames.filter (·.mutex = frame.mutex) = []
  · rw [hinner, length_nil] at hcount
    cases hqueue : (s.mutexes frame.mutex).queue with
    | nil =>
      refine .nobody hinner hqueue ?_
      simp only [leave, hframes, ReentrantAsyncMutex.release_to_nobody hholder hcount hqueue,
        Process.popped]
    | cons next queue =>
      have hwaits : s.Waits frame.mutex next :=
        (h.mutexes frame.mutex).waits next (by rw [hqueue]; exact mem_cons_self)
      obtain ⟨c, hc, -⟩ := hwaits.pending
      have hne := ticket_ne_of_not_pending hwaits hpending
      refine .next next queue c hinner hqueue hne hc ?_
      have htask : (s.put frame.mutex ⟨queue, true, some next.holderId, 1⟩ t
          (s.popped t frame frames)).tasks next.resolve.ticket = s.tasks next.resolve.ticket :=
        put_tasks_of_ne hne
      rw [Process.popped] at htask ⊢
      simp only [leave, hframes, ReentrantAsyncMutex.release_to_next hholder hcount hqueue,
        hlocked, resume, htask, hc, put_mutexes_self]
  · refine .nested hinner ?_
    have hmore : 1 < (s.mutexes frame.mutex).holdCount := by
      have := length_pos_iff.mpr hinner
      omega
    simp only [leave, hframes, ReentrantAsyncMutex.release_of_nested hholder hmore, Process.popped]

/-- The task is still inside a callback on the mutex: it holds the mutex as before. -/
theorem Inv.leave_nested (h : s.Inv) (hpending : (s.tasks t).pending = none)
    (hframes : (s.tasks t).frames = frame :: frames)
    (hinner : frames.filter (·.mutex = frame.mutex) ≠ []) :
    (s.put frame.mutex
      { s.mutexes frame.mutex with holdCount := (s.mutexes frame.mutex).holdCount - 1 } t
      (s.popped t frame frames)).Inv := by
  have hcallbacks := callbacks_of_frames hframes
  have hinside : s.callbacks frame.mutex t ≠ [] := by rw [hcallbacks]; exact cons_ne_nil _ _
  obtain ⟨hlocked, hheld⟩ := h.heldBy hinside
  refine ⟨taskInv_put h.tasks (h.taskInv_popped hframes), fun m => ?_⟩
  by_cases hm : m = frame.mutex
  · subst hm
    constructor
    · intro hfree
      rw [put_mutexes_self] at hfree
      rw [hlocked] at hfree
      cases hfree
    · intro _
      refine ⟨t, ?_, ?_, ?_, ?_⟩
      · rw [put_callbacks_self]
        exact hinner
      · intro f hf
        rw [put_callbacks_self] at hf
        rw [put_mutexes_self]
        exact hheld.holder f (by rw [hcallbacks]; exact mem_cons_of_mem _ hf)
      · rw [put_mutexes_self, put_callbacks_self]
        have hcount := hheld.count
        rw [hcallbacks, length_cons] at hcount
        show (s.mutexes frame.mutex).holdCount - 1 = _
        rw [hcount, Nat.add_sub_cancel]
        rfl
      · intro t' ht
        rw [put_callbacks_of_ne ht]
        exact hheld.alone t' ht
    · intro w hw
      rw [put_mutexes_self] at hw
      have hwaits := (h.mutexes frame.mutex).waits w hw
      exact hwaits.put (ticket_ne_of_not_pending hwaits hpending)
    · rw [put_mutexes_self]
      exact (h.mutexes frame.mutex).once
  · exact h.put_popped_other hpending hframes _ hm

/-- Nobody is inside a callback on the mutex any more. -/
theorem Inv.alone_popped (h : s.Inv) (hframes : (s.tasks t).frames = frame :: frames)
    (hinner : frames.filter (·.mutex = frame.mutex) = []) (mx : ReentrantAsyncMutex τ (Uuid τ))
    (t' : τ) :
    (s.put frame.mutex mx t (s.popped t frame frames)).callbacks frame.mutex t' = [] := by
  have hinside : s.callbacks frame.mutex t ≠ [] := by
    rw [callbacks_of_frames hframes]
    exact cons_ne_nil _ _
  by_cases ht : t' = t
  · rw [ht, put_callbacks_self]
    exact hinner
  · rw [put_callbacks_of_ne ht]
    exact (h.heldBy hinside).2.alone t' ht

theorem Inv.leave (h : s.Inv) (hpending : (s.tasks t).pending = none) : (s.leave t).Inv := by
  cases hframes : (s.tasks t).frames with
  | nil =>
    simp only [Process.leave, hframes]
    exact h
  | cons frame frames =>
    cases h.left hpending hframes with
    | nested hinner heq =>
      rw [heq]
      exact h.leave_nested hpending hframes hinner
    | nobody hinner hqueue heq =>
      rw [heq]
      refine ⟨taskInv_put h.tasks (h.taskInv_popped hframes), fun m => ?_⟩
      by_cases hm : m = frame.mutex
      · subst hm
        constructor
        · intro _
          rw [put_mutexes_self]
          exact ⟨rfl, rfl, h.alone_popped hframes hinner _⟩
        · intro hlocked
          rw [put_mutexes_self] at hlocked
          cases hlocked
        · intro w hw
          rw [put_mutexes_self] at hw
          cases hw
        · rw [put_mutexes_self]
          exact nodup_nil
      · exact h.put_popped_other hpending hframes _ hm
    | next next queue c hinner hqueue hne hnext heq =>
      have hwaits : ∀ w ∈ next :: queue, s.Waits frame.mutex w :=
        fun w hw => (h.mutexes frame.mutex).waits w (hqueue ▸ hw)
      have honce := (h.mutexes frame.mutex).once
      rw [hqueue, map_cons, nodup_cons] at honce
      obtain ⟨c', hc', hids⟩ := (hwaits next mem_cons_self).pending
      have hcc : c' = c := by
        rw [hnext] at hc'
        exact (congrArg Pending.callbackId (Option.some.inj hc')).symm
      subst hcc
      rw [heq]
      have htask : (s.put frame.mutex ⟨queue, true, some next.holderId, 1⟩ t
          (s.popped t frame frames)).tasks next.resolve.ticket
          = s.tasks next.resolve.ticket := put_tasks_of_ne hne
      have halone := h.alone_popped hframes hinner ⟨queue, true, some next.holderId, 1⟩
      rw [← htask]
      refine inv_of_granted _ (taskInv_put h.tasks (h.taskInv_popped hframes))
        (fun m hm => h.put_popped_other hpending hframes _ hm) ?_ ?_ rfl rfl ?_ ?_ ?_ ?_ ?_
      · rw [htask]
        exact hids
      · intro m c hm heq'
        rw [htask, hnext] at heq'
        exact hm (congrArg Pending.mutex (Option.some.inj heq')).symm
      · rw [halone]
        rfl
      · rw [halone]
        exact fun f hf => by cases hf
      · exact fun t' _ => halone t'
      · intro w hw
        have hw' := hwaits w (mem_cons_of_mem _ hw)
        refine ⟨hw'.put (ticket_ne_of_not_pending hw' hpending), fun heq' => ?_⟩
        exact honce.1 (mem_map.mpr ⟨w, hw, heq'⟩)
      · exact honce.2

end

/-! ### The timer -/

/-- The timer of a lock that runs out changes nothing. -/
theorem Inv.timeout_eq (h : s.Inv) (t : τ) : s.timeout t = s := by
  cases hpending : (s.tasks t).pending with
  | none => simp only [timeout, hpending]
  | some pending =>
    have hqueue := (h.mutexes pending.mutex).queueWraps
    simp only [timeout, hpending, ReentrantAsyncMutex.timeout_eq hqueue]
    exact put_self s pending.mutex t

/-! ## Runs -/

section

variable {s : Process μ τ} {t t' : τ} {m m' : μ}

theorem Inv.step (h : s.Inv) {e : TaskEvent μ τ} (hstore : CalledWithStore s e) :
    (s.step e).Inv := by
  cases e with
  | enter t m =>
    by_cases hpending : (s.tasks t).pending = none
    · simp only [Process.step, if_pos hpending]
      exact h.enter hpending (hstore t m rfl hpending)
    · simpa only [Process.step, if_neg hpending] using h
  | leave t =>
    by_cases hpending : (s.tasks t).pending = none
    · simp only [Process.step, if_pos hpending]
      exact h.leave hpending
    · simpa only [Process.step, if_neg hpending] using h
  | timeout t =>
    show (s.timeout t).Inv
    rw [h.timeout_eq]
    exact h

/-- A task that gets frames on top of its own is still inside the callbacks it was in. -/
theorem put_callbacks_ne_nil {mx : ReentrantAsyncMutex τ (Uuid τ)} {task : Task μ τ}
    (hframes : ∀ f ∈ (s.tasks t).frames, f ∈ task.frames) (hinside : s.callbacks m' t' ≠ []) :
    (s.put m mx t task).callbacks m' t' ≠ [] := by
  by_cases ht : t' = t
  · subst ht
    obtain ⟨f, hf⟩ := exists_mem_of_ne_nil _ hinside
    obtain ⟨hmem, hmutex⟩ := mem_callbacks.mp hf
    apply ne_nil_of_mem (a := f)
    rw [put_callbacks_self, mem_filter]
    exact ⟨hframes f hmem, by simpa using hmutex⟩
  · rw [put_callbacks_of_ne ht]
    exact hinside

theorem callbacks_enter_ne_nil (hinside : s.callbacks m' t' ≠ []) :
    (s.enter t m).callbacks m' t' ≠ [] := by
  unfold enter
  dsimp only
  split
  · exact put_callbacks_ne_nil (fun f hf => mem_cons_of_mem _ hf) hinside
  · exact put_callbacks_ne_nil (fun f hf => hf) hinside

/-- The callback that ends was the outermost one on its mutex, if the task is outside after
it. -/
theorem outermost_of_popped {frame : Frame μ τ} {frames : List (Frame μ τ)}
    (hframes : (s.tasks t).frames = frame :: frames) {mx : ReentrantAsyncMutex τ (Uuid τ)}
    (hinside : s.callbacks m' t' ≠ [])
    (hnow : (s.put frame.mutex mx t (s.popped t frame frames)).callbacks m' t' = []) :
    m' = frame.mutex ∧ frames.filter (·.mutex = frame.mutex) = [] := by
  by_cases ht : t' = t
  · subst ht
    rw [put_callbacks_self] at hnow
    by_cases hm : m' = frame.mutex
    · subst hm
      exact ⟨rfl, hnow⟩
    · rw [callbacks, hframes, filter_cons_of_neg (by simpa using Ne.symm hm)] at hinside
      exact absurd hnow hinside
  · rw [put_callbacks_of_ne ht] at hnow
    exact absurd hnow hinside

/-- The mutex goes to the next waiter when the outermost callback on it is done. -/
theorem Inv.handed_leave (h : s.Inv) (hpending : (s.tasks t).pending = none)
    (hinside : s.callbacks m' t' ≠ []) (hnow : (s.leave t).callbacks m' t' = []) :
    ((s.mutexes m').queue = [] → ((s.leave t).mutexes m').locked = false) ∧
      ∀ next queue, (s.mutexes m').queue = next :: queue →
        (s.leave t).callbacks m' next.resolve.ticket ≠ [] ∧
          ((s.leave t).mutexes m').queue = queue := by
  cases hframes : (s.tasks t).frames with
  | nil =>
    simp only [Process.leave, hframes] at hnow
    exact absurd hnow hinside
  | cons frame frames =>
    cases h.left hpending hframes with
    | nested hinner heq =>
      rw [heq] at hnow
      exact absurd (outermost_of_popped hframes hinside hnow).2 hinner
    | nobody hinner hqueue heq =>
      rw [heq] at hnow ⊢
      obtain ⟨rfl, -⟩ := outermost_of_popped hframes hinside hnow
      rw [put_mutexes_self]
      refine ⟨fun _ => rfl, fun next queue hnext => ?_⟩
      rw [hqueue] at hnext
      cases hnext
    | next next queue c hinner hqueue hne hnext heq =>
      rw [heq] at hnow ⊢
      have hbefore : (s.put frame.mutex ⟨queue, true, some next.holderId, 1⟩ t
          (s.popped t frame frames)).callbacks m' t' = [] := by
        by_contra hno
        refine put_callbacks_ne_nil (fun f hf => ?_) hno hnow
        rw [put_tasks_of_ne hne] at hf
        exact mem_cons_of_mem _ hf
      obtain ⟨rfl, -⟩ := outermost_of_popped hframes hinside hbefore
      refine ⟨fun hnil => ?_, fun next' queue' heq' => ?_⟩
      · rw [hqueue] at hnil
        cases hnil
      · rw [hqueue] at heq'
        obtain ⟨rfl, rfl⟩ := cons_eq_cons.mp heq'
        rw [put_callbacks_self, put_mutexes_self]
        refine ⟨?_, rfl⟩
        simp [Task.enterCallback]

/-- A step is re-entrant exactly if no `runLocked` happens inside a callback on the same mutex
that was called without a store. -/
theorem Inv.stepReentrant_iff (h : s.Inv) (e : TaskEvent μ τ) :
    StepReentrant s e ↔ CalledWithStore s e := by
  constructor
  · rintro hstep t m rfl hpending f hf houter
    have hinside : s.callbacks m t ≠ [] := ne_nil_of_mem hf
    obtain ⟨hlocked, hheld⟩ := h.heldBy hinside
    -- the mutex is held under another id than the store
    have hother : (s.mutexes m).currentHolderId ≠ some (s.callerId t) := by
      rw [hheld.holder f hf]
      exact fun heq => releaseId_ne_callerId (h.tasks t) hf houter (Option.some.inj heq)
    have hqueued := ReentrantAsyncMutex.acquire_of_other hlocked hother t
    have hnested := hstep.nested t m rfl hpending hinside
    rw [Process.step, if_pos hpending, callbacks_enter_of_queued hqueued] at hnested
    exact Nat.succ_ne_self _ hnested.symm
  · intro hstore
    refine ⟨?_, fun t m _ hnow => ((h.step hstore).heldBy hnow).2.alone, ?_⟩
    · rintro t m rfl hpending hinside
      obtain ⟨hlocked, hheld⟩ := h.heldBy hinside
      have hgranted := (h.enter_own hpending hlocked hheld fun f hf =>
        releaseId_eq_callerId (h.tasks t) hf (hstore t m rfl hpending f hf)).1
      rw [Process.step, if_pos hpending, callbacks_enter_of_granted hgranted, length_cons]
    · intro t' m' hinside hnow
      cases e with
      | enter t m =>
        by_cases hpending : (s.tasks t).pending = none
        · rw [Process.step, if_pos hpending] at hnow
          exact absurd hnow (callbacks_enter_ne_nil hinside)
        · rw [Process.step, if_neg hpending] at hnow
          exact absurd hnow hinside
      | leave t =>
        by_cases hpending : (s.tasks t).pending = none
        · rw [Process.step, if_pos hpending] at hnow ⊢
          exact h.handed_leave hpending hinside hnow
        · rw [Process.step, if_neg hpending] at hnow
          exact absurd hnow hinside
      | timeout t =>
        rw [Process.step, h.timeout_eq] at hnow
        exact absurd hnow hinside

end

/-- **Re-entrancy over runs.**  In every interleaving of the tasks every step is re-entrant
exactly if every `runLocked` that happens inside callbacks on the same mutex finds that all of
these were themselves called inside the callback of some `runLocked`. -/
theorem runs_reentrant_iff (events : List (TaskEvent μ τ)) :
    Guarded step StepReentrant init events ↔ Guarded step CalledWithStore init events :=
  guarded_iff_of_invariant (fun _ e h => h.stepReentrant_iff e) (fun _ _ h hstore => h.step hstore)
    inv_init

end Process

/-! ## A checkpoint inside a transaction -/

/-- `kernel.transaction`, whose callback calls `kernel.checkpoint`. -/
def checkpointInTransaction : List (TaskEvent String ℕ) :=
  [.enter 0 "broccolidb-kernel-mutex", .enter 0 "broccolidb-kernel-mutex"]

/-- The checkpoint waits for the lock that its own transaction holds. -/
theorem checkpoint_waits_for_its_transaction :
    ((run Process.step Process.init checkpointInTransaction).tasks 0).frames
        = [⟨"broccolidb-kernel-mutex", ⟨0, 1⟩, none⟩] ∧
      ((run Process.step Process.init checkpointInTransaction).tasks 0).pending
        = some ⟨"broccolidb-kernel-mutex", ⟨0, 0⟩⟩ ∧
      ¬ Guarded Process.step StepReentrant Process.init checkpointInTransaction := by
  refine ⟨by decide, by decide, fun h => ?_⟩
  have hnested := h.2.1.nested 0 "broccolidb-kernel-mutex" rfl (by decide) (by decide)
  revert hnested
  decide

end Lumi.Sync
