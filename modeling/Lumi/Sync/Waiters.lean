import Mathlib.Data.List.Nodup
import Lumi.Lib.Run
import Lumi.Sync.Mutex

/-!
# What becomes of a waiter

Callers compete for one mutex, each with one call of `acquire`; a caller's id
names the caller, the call and its promise.  Next to the mutex stand the timers
that are running and what an observer has seen: who had to wait, who was granted,
who was rejected, whose timer fired, who holds.

Whatever happens, one caller at most holds the mutex, and the waiters are granted
in the order in which they came, each of them once (`queued_run`).  What the code
does not do is to let a waiter go: a timer that fires finds no entry to remove, so
the waiter is not rejected and keeps its place in the queue.  Nothing is wrong with
the waiters exactly as long as no timer fires (`waiters_sound_iff`).
-/

namespace Lumi.Sync

open Run List

variable {γ : Type*}

/-- An event of the competition; `timeout` is the timer of a caller running out. -/
inductive MutexEvent (γ : Type*)
  | acquire (caller : γ)
  | release (caller : γ)
  | timeout (caller : γ)
  deriving DecidableEq, Repr

def MutexEvent.acquirer? : MutexEvent γ → Option γ
  | acquire caller => some caller
  | release _ | timeout _ => none

/-- The mutex, the running timers, and what has been seen so far. -/
structure Competition (γ : Type*) where
  mutex : ReentrantAsyncMutex γ γ
  timers : List γ
  callers : List γ
  waited : List γ
  granted : List γ
  rejected : List γ
  fired : List γ
  holders : List γ

namespace Competition

def init : Competition γ := ⟨.init, [], [], [], [], [], [], []⟩

/-- The callers in the queue, first come first. -/
def waiting (s : Competition γ) : List γ := s.mutex.queue.map (·.resolve.ticket)

variable [DecidableEq γ]

def step (s : Competition γ) : MutexEvent γ → Competition γ
  | .acquire c =>
    match s.mutex.acquire c c with
    | (.granted, mutex) =>
      { s with mutex, callers := c :: s.callers, holders := c :: s.holders }
    | (.queued, mutex) =>
      { s with
        mutex, callers := c :: s.callers, timers := c :: s.timers, waited := s.waited ++ [c] }
  | .release c =>
    match s.mutex.release c with
    | (some next, mutex) =>
      -- the closure of the entry clears the timer and resolves the promise
      { s with
        mutex
        timers := s.timers.erase next.resolve.ticket
        granted := s.granted ++ [next.resolve.ticket]
        holders := next.resolve.ticket :: s.holders.erase c }
    | (none, mutex) => { s with mutex, holders := s.holders.erase c }
  | .timeout c =>
    if c ∈ s.timers then
      { s with
        mutex := (s.mutex.timeout c).2
        timers := s.timers.erase c
        fired := c :: s.fired
        rejected := (s.mutex.timeout c).1.toList ++ s.rejected }
    else s

end Competition

/-- **What a waiter may rely on.**  One caller at most holds; the waiters that were not
rejected are those granted and those waiting, in the order in which they came, each once;
a waiter is rejected if its timer fires and only then, and is then neither waiting nor
granted; who still waits has its timer running. -/
structure WaitersSound [DecidableEq γ] (s : Competition γ) : Prop where
  one_holder : s.holders.length ≤ 1
  fifo : s.waited.filter (· ∉ s.rejected) = s.granted ++ s.waiting
  once : (s.granted ++ s.waiting).Nodup
  fired_iff : ∀ c, c ∈ s.fired ↔ c ∈ s.rejected
  gone : ∀ c ∈ s.fired, c ∉ s.waiting ∧ c ∉ s.granted
  timed : ∀ c ∈ s.waiting, c ∈ s.timers

/-! ## What always holds -/

/-- The mutex is held once by the one holder; the waiters are granted in order; nobody is
ever rejected. -/
structure Queued (s : Competition γ) : Prop where
  wraps : ∀ w ∈ s.mutex.queue, w = ⟨.wrapper w.holderId, w.holderId⟩
  locked : s.mutex.locked = s.mutex.currentHolderId.isSome
  held_once : s.mutex.holdCount = s.mutex.currentHolderId.toList.length
  idle : s.mutex.currentHolderId = none → s.mutex.queue = []
  holders : s.holders = s.mutex.currentHolderId.toList
  waited : s.waited = s.granted ++ s.waiting
  once : s.waited.Nodup
  known : ∀ c, c ∈ s.waited ∨ s.mutex.currentHolderId = some c → c ∈ s.callers
  timed : ∀ c ∈ s.waiting, c ∈ s.timers ∨ c ∈ s.fired
  timer : ∀ c ∈ s.timers, c ∈ s.waiting
  timers_once : s.timers.Nodup
  rejected : s.rejected = []

theorem queued_init : Queued (Competition.init : Competition γ) := by
  constructor <;> simp [Competition.init, ReentrantAsyncMutex.init, Competition.waiting]

namespace Queued

variable {s : Competition γ}

theorem queueWraps (h : Queued s) : s.mutex.QueueWraps := by
  intro w hw
  rw [h.wraps w hw]
  rfl

theorem holder_ne (h : Queued s) {c : γ} (hfresh : c ∉ s.callers) :
    s.mutex.currentHolderId ≠ some c := fun hc => hfresh (h.known c (.inr hc))

theorem not_waited (h : Queued s) {c : γ} (hfresh : c ∉ s.callers) : c ∉ s.waited :=
  fun hc => hfresh (h.known c (.inl hc))

variable [DecidableEq γ]

section

variable (h : Queued s)
include h

theorem acquire {c : γ} (hfresh : c ∉ s.callers) : Queued (s.step (.acquire c)) := by
  by_cases hidle : s.mutex.currentHolderId = none
  · have hqueue := h.idle hidle
    have hlocked : s.mutex.locked = false := by rw [h.locked, hidle]; rfl
    have hstep : s.step (.acquire c) = { s with
        mutex := { s.mutex with locked := true, currentHolderId := some c, holdCount := 1 }
        callers := c :: s.callers, holders := c :: s.holders } := by
      simp only [Competition.step, ReentrantAsyncMutex.acquire_of_unlocked hlocked]
    rw [hstep]
    exact
      { wraps := h.wraps
        locked := rfl
        held_once := rfl
        idle := fun hnone => by cases hnone
        holders := by simp [h.holders, hidle]
        waited := h.waited
        once := h.once
        known := by
          intro d hd
          rcases hd with hd | hd
          · exact mem_cons_of_mem _ (h.known d (.inl hd))
          · rw [Option.some.inj hd]
            exact mem_cons_self
        timed := h.timed
        timer := h.timer
        timers_once := h.timers_once
        rejected := h.rejected }
  · have hlocked : s.mutex.locked = true := by
      rw [h.locked, Option.isSome_iff_ne_none]
      exact hidle
    have hstep : s.step (.acquire c) = { s with
        mutex := { s.mutex with queue := s.mutex.queue ++ [⟨.wrapper c, c⟩] }
        callers := c :: s.callers, timers := c :: s.timers, waited := s.waited ++ [c] } := by
      simp only [Competition.step,
        ReentrantAsyncMutex.acquire_of_other hlocked (h.holder_ne hfresh)]
    have hwaiting : (s.step (.acquire c)).waiting = s.waiting ++ [c] := by
      rw [hstep]
      simp [Competition.waiting, ResolveFn.ticket]
    have hwaited : c ∉ s.waiting := by
      intro hc
      exact h.not_waited hfresh (by rw [h.waited]; exact mem_append_right _ hc)
    rw [hstep] at hwaiting ⊢
    exact
      { wraps := by
          intro w hw
          rcases mem_append.mp hw with hw | hw
          · exact h.wraps w hw
          · rw [mem_singleton.mp hw]
        locked := h.locked
        held_once := h.held_once
        idle := fun hnone => absurd hnone hidle
        holders := h.holders
        waited := by
          rw [hwaiting, ← append_assoc, ← h.waited]
        once := by
          refine h.once.append (nodup_singleton c) ?_
          exact disjoint_singleton.mpr (h.not_waited hfresh)
        known := by
          intro d hd
          rcases hd with hd | hd
          · rcases mem_append.mp hd with hd | hd
            · exact mem_cons_of_mem _ (h.known d (.inl hd))
            · rw [mem_singleton.mp hd]
              exact mem_cons_self
          · exact mem_cons_of_mem _ (h.known d (.inr hd))
        timed := by
          intro d hd
          rw [hwaiting] at hd
          rcases mem_append.mp hd with hd | hd
          · exact (h.timed d hd).imp_left (mem_cons_of_mem _)
          · rw [mem_singleton.mp hd]
            exact .inl mem_cons_self
        timer := by
          intro d hd
          rw [hwaiting]
          rcases mem_cons.mp hd with rfl | hd
          · simp
          · exact mem_append_left _ (h.timer d hd)
        timers_once := nodup_cons.mpr ⟨fun hc => hwaited (h.timer c hc), h.timers_once⟩
        rejected := h.rejected }

theorem release (c : γ) : Queued (s.step (.release c)) := by
  by_cases hholder : s.mutex.currentHolderId = some c
  · have hcount : s.mutex.holdCount = 1 := by rw [h.held_once, hholder]; rfl
    have hholders : s.holders.erase c = [] := by simp [h.holders, hholder]
    cases hqueue : s.mutex.queue with
    | nil =>
      have hstep : s.step (.release c) = { s with mutex := .init, holders := [] } := by
        simp only [Competition.step,
          ReentrantAsyncMutex.release_to_nobody hholder hcount hqueue, hholders]
      have hwaiting : s.waiting = [] := by simp [Competition.waiting, hqueue]
      rw [hstep]
      exact
        { wraps := fun w hw => by cases hw
          locked := rfl
          held_once := rfl
          idle := fun _ => rfl
          holders := rfl
          waited := by rw [h.waited, hwaiting]; rfl
          once := h.once
          known := by
            intro d hd
            rcases hd with hd | hd
            · exact h.known d (.inl hd)
            · cases hd
          timed := fun d hd => by cases hd
          timer := by
            intro d hd
            have := h.timer d hd
            rwa [hwaiting] at this
          timers_once := h.timers_once
          rejected := h.rejected }
    | cons next queue =>
      obtain ⟨d, rfl⟩ : ∃ d, next = ⟨.wrapper d, d⟩ :=
        ⟨next.holderId, h.wraps next (by rw [hqueue]; exact mem_cons_self)⟩
      have hstep : s.step (.release c) = { s with
          mutex := ⟨queue, s.mutex.locked, some d, 1⟩, timers := s.timers.erase d
          granted := s.granted ++ [d], holders := [d] } := by
        simp only [Competition.step, ReentrantAsyncMutex.release_to_next hholder hcount hqueue,
          hholders, ResolveFn.ticket]
      have hwaiting : s.waiting = d :: queue.map (·.resolve.ticket) := by
        simp [Competition.waiting, hqueue, ResolveFn.ticket]
      have honce : (d :: queue.map (·.resolve.ticket)).Nodup := by
        rw [← hwaiting]
        exact (h.waited ▸ h.once).of_append_right
      rw [hstep]
      exact
        { wraps := fun w hw => h.wraps w (by rw [hqueue]; exact mem_cons_of_mem _ hw)
          locked := by rw [h.locked, hholder]; rfl
          held_once := rfl
          idle := fun hnone => by cases hnone
          holders := rfl
          waited := by
            show s.waited = (s.granted ++ [d]) ++ queue.map (·.resolve.ticket)
            rw [h.waited, hwaiting, append_assoc, singleton_append]
          once := h.once
          known := by
            intro a ha
            rcases ha with ha | ha
            · exact h.known a (.inl ha)
            · rw [← Option.some.inj ha]
              apply h.known d
              left
              rw [h.waited, hwaiting]
              simp
          timed := by
            intro a ha
            have hne : a ≠ d := fun hda => (nodup_cons.mp honce).1 (hda ▸ ha)
            refine (h.timed a (by rw [hwaiting]; exact mem_cons_of_mem _ ha)).imp_left ?_
            exact (mem_erase_of_ne hne).mpr
          timer := by
            intro a ha
            obtain ⟨hne, hmem⟩ := (h.timers_once.mem_erase_iff).mp ha
            have := h.timer a hmem
            rw [hwaiting] at this
            exact (mem_cons.mp this).resolve_left hne
          timers_once := h.timers_once.erase d
          rejected := h.rejected }
  · have hstep : s.step (.release c) = s := by
      have hholders : s.holders.erase c = s.holders := by
        apply erase_of_not_mem
        rw [h.holders]
        simpa using hholder
      simp only [Competition.step, ReentrantAsyncMutex.release_of_other hholder, hholders]
    rwa [hstep]

/-- A timer that fires leaves the mutex as it is; its waiter stays in the queue. -/
theorem step_fires {c : γ} (hc : c ∈ s.timers) :
    s.step (.timeout c) = { s with timers := s.timers.erase c, fired := c :: s.fired } := by
  simp only [Competition.step, if_pos hc, ReentrantAsyncMutex.timeout_eq h.queueWraps,
    Option.toList_none, nil_append]

theorem timeout (c : γ) : Queued (s.step (.timeout c)) := by
  by_cases hc : c ∈ s.timers
  · rw [h.step_fires hc]
    exact
      { wraps := h.wraps
        locked := h.locked
        held_once := h.held_once
        idle := h.idle
        holders := h.holders
        waited := h.waited
        once := h.once
        known := h.known
        timed := by
          intro d hd
          by_cases hne : d = c
          · rw [hne]
            exact .inr mem_cons_self
          · exact (h.timed d hd).imp (mem_erase_of_ne hne).mpr (mem_cons_of_mem _)
        timer := fun d hd => h.timer d (mem_of_mem_erase hd)
        timers_once := h.timers_once.erase c
        rejected := h.rejected }
  · have hstep : s.step (.timeout c) = s := by simp only [Competition.step, if_neg hc]
    rwa [hstep]

/-- Every event keeps the queue in order. -/
theorem step (e : MutexEvent γ) (hfresh : ∀ c, e.acquirer? = some c → c ∉ s.callers) :
    Queued (s.step e) := by
  cases e with
  | acquire c => exact h.acquire (hfresh c rfl)
  | release c => exact h.release c
  | timeout c => exact h.timeout c

/-- While no timer has fired, the waiters get what they may rely on. -/
theorem sound (hfired : s.fired = []) : WaitersSound s where
  one_holder := by
    rw [h.holders]
    cases s.mutex.currentHolderId <;> simp
  fifo := by
    rw [h.rejected, ← h.waited]
    simp
  once := h.waited ▸ h.once
  fired_iff c := by rw [hfired, h.rejected]
  gone c hc := by
    rw [hfired] at hc
    cases hc
  timed c hc := by
    rcases h.timed c hc with htimer | hfire
    · exact htimer
    · rw [hfired] at hfire
      cases hfire

end

end Queued

/-! ## Runs -/

variable [DecidableEq γ]

/-- No timer fires: a timer that runs out has been cleared before. -/
def NoTimerFires (s : Competition γ) (e : MutexEvent γ) : Prop :=
  ∀ c, e = .timeout c → c ∉ s.timers

/-- The caller is new to the mutex. -/
def NewCaller (s : Competition γ) (e : MutexEvent γ) : Prop :=
  ∀ c, e.acquirer? = some c → c ∉ s.callers

variable {s : Competition γ}

theorem mem_callers_step {e : MutexEvent γ} {c : γ} :
    c ∈ (s.step e).callers ↔ e.acquirer? = some c ∨ c ∈ s.callers := by
  cases e with
  | acquire d =>
    have hcallers : (s.step (.acquire d)).callers = d :: s.callers := by
      simp only [Competition.step]
      split <;> rfl
    rw [hcallers, mem_cons]
    exact or_congr_left ⟨fun h => h ▸ rfl, fun h => (Option.some.inj h).symm⟩
  | release d =>
    have hcallers : (s.step (.release d)).callers = s.callers := by
      simp only [Competition.step]
      split <;> rfl
    simp [hcallers, MutexEvent.acquirer?]
  | timeout d =>
    have hcallers : (s.step (.timeout d)).callers = s.callers := by
      simp only [Competition.step]
      split_ifs <;> rfl
    simp [hcallers, MutexEvent.acquirer?]

/-- Callers that are distinct, and new at the start, are new when they call. -/
theorem newCaller_of_nodup {events : List (MutexEvent γ)}
    (hdistinct : (events.filterMap MutexEvent.acquirer?).Nodup)
    (hnew : ∀ c ∈ events.filterMap MutexEvent.acquirer?, c ∉ s.callers) :
    Guarded Competition.step NewCaller s events := by
  induction events generalizing s with
  | nil => trivial
  | cons e rest ih =>
    cases hacquirer : e.acquirer? with
    | none =>
      rw [filterMap_cons_none hacquirer] at hdistinct hnew
      refine ⟨fun c hc => ?_, ih hdistinct fun c hc => ?_⟩
      · rw [hacquirer] at hc
        cases hc
      · rw [mem_callers_step, hacquirer]
        simpa using hnew c hc
    | some d =>
      rw [filterMap_cons_some hacquirer] at hdistinct hnew
      obtain ⟨hd, hrest⟩ := nodup_cons.mp hdistinct
      refine ⟨fun c hc => ?_, ih hrest fun c hc => ?_⟩
      · rw [hacquirer] at hc
        rw [← Option.some.inj hc]
        exact hnew d mem_cons_self
      · rw [mem_callers_step, hacquirer]
        rintro (heq | hmem)
        · exact hd ((Option.some.inj heq) ▸ hc)
        · exact hnew c (mem_cons_of_mem _ hc) hmem

theorem fired_step {e : MutexEvent γ} (hno : NoTimerFires s e) : (s.step e).fired = s.fired := by
  cases e with
  | acquire c =>
    simp only [Competition.step]
    split <;> rfl
  | release c =>
    simp only [Competition.step]
    split <;> rfl
  | timeout c =>
    rw [Competition.step, if_neg (hno c rfl)]

/-- **The waiters of a run.**  For distinct callers, in every interleaving: the waiters get
what they may rely on in every state exactly if no timer fires. -/
theorem waiters_sound_iff (events : List (MutexEvent γ))
    (hdistinct : (events.filterMap MutexEvent.acquirer?).Nodup) :
    Always Competition.step WaitersSound Competition.init events ↔
      Guarded Competition.step NoTimerFires Competition.init events := by
  have hsafe : ∀ s : Competition γ, Queued s ∧ s.fired = [] → WaitersSound s :=
    fun s h => h.1.sound h.2
  have hkeep : ∀ (s : Competition γ) e, Queued s ∧ s.fired = [] → NewCaller s e →
      NoTimerFires s e → Queued (s.step e) ∧ (s.step e).fired = [] :=
    fun s e h hnew hno => ⟨h.1.step e hnew, (fired_step hno).trans h.2⟩
  have hbreak : ∀ (s : Competition γ) e, Queued s ∧ s.fired = [] → NewCaller s e →
      ¬ NoTimerFires s e → ¬ WaitersSound (s.step e) := by
    rintro s e ⟨h, -⟩ - hfires hsound
    obtain ⟨c, rfl, hc⟩ : ∃ c, e = .timeout c ∧ c ∈ s.timers := by
      by_contra hno
      exact hfires fun c he hc => hno ⟨c, he, hc⟩
    -- the timer fired, and nobody is rejected
    rw [h.step_fires hc] at hsound
    have hrejected := (hsound.fired_iff c).mp mem_cons_self
    rw [h.rejected] at hrejected
    cases hrejected
  have hnew : Guarded Competition.step NewCaller Competition.init events :=
    newCaller_of_nodup hdistinct fun _ _ => not_mem_nil
  exact always_iff_guarded_of_invariant hsafe hkeep hbreak ⟨queued_init, rfl⟩ hnew

/-! ## A timer fires -/

/-- One caller holds, a second waits until its timer fires, and then the first lets go. -/
def lateGrant : List (MutexEvent ℕ) := [.acquire 0, .acquire 1, .timeout 1, .release 0]

/-- The waiter is not rejected when its timer fires, and is granted afterwards. -/
theorem timed_out_waiter_is_granted :
    (run Competition.step Competition.init lateGrant).fired = [1] ∧
      (run Competition.step Competition.init lateGrant).rejected = [] ∧
      (run Competition.step Competition.init lateGrant).granted = [1] ∧
      ¬ Always Competition.step WaitersSound Competition.init lateGrant := by
  refine ⟨by decide, by decide, by decide, fun h => ?_⟩
  have hsound : WaitersSound (run Competition.step Competition.init lateGrant) :=
    always_iff_forall_split.mp h lateGrant [] rfl
  have hrejected := (hsound.fired_iff 1).mp (by decide)
  revert hrejected
  decide

/-- Where the holder lets go in time, the waiter has what it may rely on. -/
theorem granted_in_time :
    Always Competition.step WaitersSound Competition.init
        [.acquire 0, .acquire 1, .release 0, .timeout 1] ↔
      Guarded Competition.step NoTimerFires Competition.init
        [.acquire 0, .acquire 1, .release 0, .timeout 1] :=
  waiters_sound_iff ([.acquire 0, .acquire 1, .release 0, .timeout 1] : List (MutexEvent ℕ))
    (by decide)

end Lumi.Sync
