import Lumi.Lib.Run
import Lumi.Locks.BroccoliConnectionPool

/-!
# The discipline of the queue

The requests are numbered as they are made.  A request overtakes another one if it is granted while
the other, made before it, still waits; and whoever waits at the head of the queue must not be
grantable.

A request that can be granted at once does not look at the queue, a release looks at its head only,
and a timer takes a request out of it without looking at what stands behind.
-/

namespace Lumi.Locks

open Js Run BroccoliConnectionPool List

/-! ## Runs -/

inductive PoolCall
  | acquireLease (subsystem : Text) (mode : BroccoliLeaseMode) (timeoutMs : Option Number)
      (clock : LeaseReadings)
  | releaseLease (leaseId : Text) (clock : LeaseReadings)
  | timeout (request : ℕ)

/-- A request that was granted, and those that still waited then. -/
structure LeaseGrant where
  request : ℕ
  waiting : List ℕ
  deriving DecidableEq

structure PoolHistory where
  pool : BroccoliConnectionPool
  requests : ℕ
  grants : List LeaseGrant
  deriving DecidableEq

namespace PoolHistory

def new (pool : BroccoliConnectionPool) : PoolHistory := ⟨pool, 0, []⟩

/-- The numbers of the requests that wait. -/
def waiting (pool : BroccoliConnectionPool) : List ℕ := pool.waitingQueue.map (·.request)

def step (h : PoolHistory) : PoolCall → PoolHistory
  | .acquireLease subsystem mode timeoutMs clock =>
    match h.pool.acquireLease h.requests subsystem mode timeoutMs clock with
    | (.granted _, pool) => ⟨pool, h.requests + 1, h.grants ++ [⟨h.requests, waiting pool⟩]⟩
    | (_, pool) => ⟨pool, h.requests + 1, h.grants⟩
  | .releaseLease leaseId clock =>
    match h.pool.releaseLease leaseId clock with
    | ((_, some (request, _)), pool) =>
      ⟨pool, h.requests, h.grants ++ [⟨request, waiting pool⟩]⟩
    | ((_, none), pool) => ⟨pool, h.requests, h.grants⟩
  | .timeout request => { h with pool := (h.pool.timeout request).2 }

/-- Nobody was granted before an earlier request, and the first one in the queue cannot be granted
now. -/
structure Disciplined (h : PoolHistory) : Prop where
  inOrder : ∀ grant ∈ h.grants, ∀ other ∈ grant.waiting, grant.request ≤ other
  headWaits : ∀ item ∈ h.pool.waitingQueue.head?, h.pool.canIssueLease item.mode = false

/-- The first two of the queue are readers, and the leases that stay let both of them through. -/
def LetsTwoThrough (s : BroccoliConnectionPool) (leaseId : Text) : Prop :=
  (s.activeLeases.get? leaseId).isSome ∧
    (s.waitingQueue.take 2).map (·.mode) = [.sharedRead, .sharedRead] ∧
    (s.withoutLease leaseId).canIssueLease .sharedRead = true ∧
    reaches ((s.activeLeases.delete leaseId).size + 1) s.maxConcurrentLeases = false

/-- The first of the queue gives up, and the next one could be granted. -/
def FreesTheNext (s : BroccoliConnectionPool) (request : ℕ) : Prop :=
  ∃ head next rest, s.waitingQueue = head :: next :: rest ∧ head.request = request ∧
    s.canIssueLease next.mode = true

/-- A request that can be granted finds nobody waiting, a release lets no two readers through, and
whoever gives up frees nobody. -/
def Orderly (h : PoolHistory) : PoolCall → Prop
  | .acquireLease _ mode _ _ => h.pool.waitingQueue = [] ∨ h.pool.canIssueLease mode = false
  | .releaseLease leaseId _ => ¬LetsTwoThrough h.pool leaseId
  | .timeout request => ¬FreesTheNext h.pool request

end PoolHistory

/-! ## Steps -/

namespace PoolHistory

/-- The queue is in the order of the requests, and all of them have been made. -/
structure Sound (h : PoolHistory) : Prop where
  issued : h.pool.Issued
  sorted : (waiting h.pool).Pairwise (· < ·)
  made : ∀ request ∈ waiting h.pool, request < h.requests

section

variable (maxConcurrentLeases defaultLeaseTtlMs maxQueueLength : Option Number)

theorem sound_new :
    (new (.new maxConcurrentLeases defaultLeaseTtlMs maxQueueLength)).Sound where
  issued := fun _ h => absurd h not_mem_nil
  sorted := List.Pairwise.nil
  made := fun _ h => absurd h not_mem_nil

theorem disciplined_new :
    (new (.new maxConcurrentLeases defaultLeaseTtlMs maxQueueLength)).Disciplined where
  inOrder := fun _ h => absurd h not_mem_nil
  headWaits := fun _ h => nomatch h

end

theorem disciplined_concat {pool : BroccoliConnectionPool} {requests : ℕ} {grants : List LeaseGrant}
    {grant : LeaseGrant}
    (hgrants : ∀ grant ∈ grants, ∀ other ∈ grant.waiting, grant.request ≤ other) :
    (⟨pool, requests, grants ++ [grant]⟩ : PoolHistory).Disciplined ↔
      (∀ other ∈ grant.waiting, grant.request ≤ other) ∧
        ∀ item ∈ pool.waitingQueue.head?, pool.canIssueLease item.mode = false := by
  constructor
  · intro h
    exact ⟨h.inOrder grant (mem_append_right _ mem_cons_self), h.headWaits⟩
  · rintro ⟨hgrant, hhead⟩
    refine ⟨fun other hother => ?_, hhead⟩
    rcases mem_append.mp hother with hother | hother
    · exact hgrants other hother
    · rw [mem_singleton.mp hother]
      exact hgrant

section

variable {h : PoolHistory} (subsystem : Text) {mode : BroccoliLeaseMode}
  (timeoutMs : Option Number) (clock : LeaseReadings)

theorem step_granted (hcan : h.pool.canIssueLease mode = true) :
    h.step (.acquireLease subsystem mode timeoutMs clock) =
      ⟨(h.pool.createAndRegisterLease subsystem mode (timeoutMs.getD h.pool.defaultLeaseTtlMs)
        clock.issuing clock.random).2, h.requests + 1,
        h.grants ++ [⟨h.requests, waiting h.pool⟩]⟩ := by
  rw [step, BroccoliConnectionPool.acquireLease, if_pos hcan]
  rfl

theorem step_full (hcan : h.pool.canIssueLease mode = false)
    (hfull : reaches h.pool.waitingQueue.length h.pool.maxQueueLength = true) :
    h.step (.acquireLease subsystem mode timeoutMs clock) = ⟨h.pool, h.requests + 1, h.grants⟩ := by
  rw [step, BroccoliConnectionPool.acquireLease, if_neg (by rw [hcan]; exact Bool.false_ne_true),
    if_pos hfull]

theorem step_queued (hcan : h.pool.canIssueLease mode = false)
    (hroom : reaches h.pool.waitingQueue.length h.pool.maxQueueLength = false) :
    h.step (.acquireLease subsystem mode timeoutMs clock) =
      ⟨{ h.pool with waitingQueue := h.pool.waitingQueue ++ [⟨h.requests, subsystem, mode,
        clock.now, timeoutMs.getD h.pool.defaultLeaseTtlMs⟩] }, h.requests + 1, h.grants⟩ := by
  rw [step, BroccoliConnectionPool.acquireLease, if_neg (by rw [hcan]; exact Bool.false_ne_true),
    if_neg (by rw [hroom]; exact Bool.false_ne_true)]

end

section

variable {h : PoolHistory} {leaseId : Text} (clock : LeaseReadings)

theorem step_unknown (hget : h.pool.activeLeases.get? leaseId = none) :
    h.step (.releaseLease leaseId clock) = h := by
  rw [step, BroccoliConnectionPool.releaseLease, hget]

theorem step_released (hget : (h.pool.activeLeases.get? leaseId).isSome)
    (hblocked : ∀ item ∈ h.pool.waitingQueue.head?,
      (h.pool.withoutLease leaseId).canIssueLease item.mode = false) :
    h.step (.releaseLease leaseId clock) = { h with pool := h.pool.withoutLease leaseId } := by
  obtain ⟨lease, hget⟩ := Option.isSome_iff_exists.mp hget
  have hprocess : (h.pool.withoutLease leaseId).processWaitingQueue clock =
      (none, h.pool.withoutLease leaseId) := by
    rw [BroccoliConnectionPool.processWaitingQueue]
    split
    · rfl
    · next next rest hqueue =>
      have hqueue' : h.pool.waitingQueue = next :: rest := hqueue
      rw [hqueue'] at hblocked
      rw [if_neg (by rw [hblocked next rfl]; exact Bool.false_ne_true)]
  rw [step, BroccoliConnectionPool.releaseLease, hget]
  dsimp only
  rw [hprocess]

/-- The pool after a release that lets the first of the queue through. -/
def passedOn (s : BroccoliConnectionPool) (leaseId : Text) (next : QueueItem)
    (rest : List QueueItem) (clock : LeaseReadings) : BroccoliConnectionPool :=
  { ({ s.withoutLease leaseId with waitingQueue := rest }.createAndRegisterLease next.subsystem
      next.mode s.defaultLeaseTtlMs clock.issuing clock.random).2 with
    totalWaitMs := s.totalWaitMs + (clock.resolving - next.enqueuedAt)
    completedLeaseWaits := s.completedLeaseWaits + 1 }

theorem step_passedOn (hget : (h.pool.activeLeases.get? leaseId).isSome) {next : QueueItem}
    {rest : List QueueItem} (hqueue : h.pool.waitingQueue = next :: rest)
    (hcan : (h.pool.withoutLease leaseId).canIssueLease next.mode = true) :
    h.step (.releaseLease leaseId clock) =
      ⟨passedOn h.pool leaseId next rest clock, h.requests,
        h.grants ++ [⟨next.request, rest.map (·.request)⟩]⟩ := by
  obtain ⟨lease, hget⟩ := Option.isSome_iff_exists.mp hget
  have hprocess : (h.pool.withoutLease leaseId).processWaitingQueue clock =
      (some (next.request, ({ h.pool.withoutLease leaseId with
        waitingQueue := rest }.createAndRegisterLease next.subsystem next.mode
        h.pool.defaultLeaseTtlMs clock.issuing clock.random).1),
        passedOn h.pool leaseId next rest clock) := by
    have hqueue' : (h.pool.withoutLease leaseId).waitingQueue = next :: rest := hqueue
    rw [BroccoliConnectionPool.processWaitingQueue]
    split
    · next hnil => rw [hqueue'] at hnil; cases hnil
    · next next' rest' hcons =>
      obtain ⟨rfl, rfl⟩ := cons_eq_cons.mp (hqueue'.symm.trans hcons)
      rw [if_pos hcan]
      rfl
  rw [step, BroccoliConnectionPool.releaseLease, hget]
  dsimp only
  rw [hprocess]
  rfl

end

/-- The timer of a request takes it out of the queue. -/
theorem waitingQueue_timeout (s : BroccoliConnectionPool) (request : ℕ) :
    (s.timeout request).2 =
      { s with waitingQueue := s.waitingQueue.eraseP (·.request = request) } := by
  rw [BroccoliConnectionPool.timeout]
  split
  · next hnone =>
    rw [eraseP_of_forall_not (find?_eq_none.mp hnone)]
  · rfl

variable {h : PoolHistory}

theorem Sound.passedOn (hs : h.Sound) (leaseId : Text) {next : QueueItem} {rest : List QueueItem}
    (hqueue : h.pool.waitingQueue = next :: rest) (clock : LeaseReadings) (grants : List LeaseGrant) :
    (PoolHistory.mk (PoolHistory.passedOn h.pool leaseId next rest clock) h.requests grants).Sound
    where
  issued := (hs.issued.withoutLease leaseId).createAndRegisterLease next.subsystem next.mode
    h.pool.defaultLeaseTtlMs clock.issuing clock.random
  sorted := by
    have hsorted := hs.sorted
    rw [waiting, hqueue] at hsorted
    exact (pairwise_cons.mp hsorted).2
  made := fun request hrequest => hs.made request (by
    rw [waiting, hqueue]
    exact mem_cons_of_mem _ hrequest)

/-- **Step lemma.** -/
theorem Sound.step (hs : h.Sound) (call : PoolCall) : (h.step call).Sound := by
  have hlater : ∀ request ∈ waiting h.pool, request < h.requests + 1 := fun request hrequest =>
    Nat.lt_succ_of_lt (hs.made request hrequest)
  cases call with
  | acquireLease subsystem mode timeoutMs clock =>
    cases hcan : h.pool.canIssueLease mode with
    | true =>
      rw [step_granted subsystem timeoutMs clock hcan]
      exact ⟨hs.issued.createAndRegisterLease _ _ _ _ _, hs.sorted, hlater⟩
    | false =>
      cases hroom : reaches h.pool.waitingQueue.length h.pool.maxQueueLength with
      | true =>
        rw [step_full subsystem timeoutMs clock hcan hroom]
        exact ⟨hs.issued, hs.sorted, hlater⟩
      | false =>
        rw [step_queued subsystem timeoutMs clock hcan hroom]
        refine ⟨hs.issued, ?_, ?_⟩
        · rw [waiting, map_append, pairwise_append]
          refine ⟨hs.sorted, pairwise_singleton _ _, fun request hrequest new hnew => ?_⟩
          rw [mem_singleton.mp hnew]
          exact hs.made request hrequest
        · intro request hrequest
          rw [waiting, map_append] at hrequest
          rcases mem_append.mp hrequest with hrequest | hrequest
          · exact hlater request hrequest
          · rw [mem_singleton.mp hrequest]
            exact Nat.lt_succ_self _
  | releaseLease leaseId clock =>
    cases hget : h.pool.activeLeases.get? leaseId with
    | none => rwa [step_unknown clock hget]
    | some lease =>
      have hsome : (h.pool.activeLeases.get? leaseId).isSome := by rw [hget]; rfl
      have hidle : (∀ item ∈ h.pool.waitingQueue.head?,
          (h.pool.withoutLease leaseId).canIssueLease item.mode = false) →
          (h.step (.releaseLease leaseId clock)).Sound := fun hblocked => by
        rw [step_released clock hsome hblocked]
        exact ⟨hs.issued.withoutLease leaseId, hs.sorted, hs.made⟩
      cases hqueue : h.pool.waitingQueue with
      | nil => exact hidle (by rw [hqueue]; exact fun _ hnone => nomatch hnone)
      | cons next rest =>
        cases hcan : (h.pool.withoutLease leaseId).canIssueLease next.mode with
        | false =>
          refine hidle fun item hitem => ?_
          rw [hqueue] at hitem
          rwa [← Option.some.inj hitem]
        | true =>
          rw [step_passedOn clock hsome hqueue hcan]
          exact hs.passedOn leaseId hqueue clock _
  | timeout request =>
    have hsub : (waiting (h.pool.timeout request).2).Sublist (waiting h.pool) := by
      rw [waitingQueue_timeout]
      exact (eraseP_sublist).map _
    have hissued : (h.pool.timeout request).2.Issued := by
      rw [waitingQueue_timeout]
      exact hs.issued
    exact ⟨hissued, hs.sorted.sublist hsub,
      fun other hother => hs.made other (hsub.subset hother)⟩

theorem disciplined_acquireLease_iff (hs : h.Sound) (hd : h.Disciplined) (subsystem : Text)
    (mode : BroccoliLeaseMode) (timeoutMs : Option Number) (clock : LeaseReadings) :
    (h.step (.acquireLease subsystem mode timeoutMs clock)).Disciplined ↔
      h.pool.waitingQueue = [] ∨ h.pool.canIssueLease mode = false := by
  cases hcan : h.pool.canIssueLease mode with
  | true =>
    rw [step_granted subsystem timeoutMs clock hcan, disciplined_concat hd.inOrder]
    constructor
    · rintro ⟨hfirst, -⟩
      -- whoever waits came before
      cases hqueue : h.pool.waitingQueue with
      | nil => exact .inl rfl
      | cons item rest =>
        have hmem : item.request ∈ waiting h.pool := by
          rw [waiting, hqueue]
          exact mem_cons_self
        have hle := hfirst item.request hmem
        exact absurd hle (Nat.not_le.mpr (hs.made item.request hmem))
    · intro horderly
      have hnil : h.pool.waitingQueue = [] := horderly.resolve_right (fun h => nomatch h)
      refine ⟨fun other hother => ?_, fun item hitem => ?_⟩
      · rw [waiting, hnil] at hother
        exact absurd hother not_mem_nil
      · have hhead : item ∈ h.pool.waitingQueue.head? := hitem
        rw [hnil] at hhead
        cases hhead
  | false =>
    refine ⟨fun _ => .inr rfl, fun _ => ?_⟩
    cases hroom : reaches h.pool.waitingQueue.length h.pool.maxQueueLength with
    | true =>
      rw [step_full subsystem timeoutMs clock hcan hroom]
      exact ⟨hd.inOrder, hd.headWaits⟩
    | false =>
      rw [step_queued subsystem timeoutMs clock hcan hroom]
      refine ⟨hd.inOrder, fun item hitem => ?_⟩
      -- the head is what it was, or the new request
      have hhead : item ∈ (h.pool.waitingQueue ++ [_]).head? := hitem
      cases hqueue : h.pool.waitingQueue with
      | nil =>
        rw [hqueue] at hhead
        obtain rfl := Option.some.inj hhead
        exact hcan
      | cons first rest =>
        rw [hqueue] at hhead
        exact hd.headWaits item (by rw [hqueue]; exact hhead)

/-- What a release that lets the first of the queue through leaves to the second one. -/
theorem headWaits_passedOn_iff (hs : h.Sound) {leaseId : Text} (clock : LeaseReadings)
    (hsome : (h.pool.activeLeases.get? leaseId).isSome) {next : QueueItem} {rest : List QueueItem}
    (hqueue : h.pool.waitingQueue = next :: rest)
    (hcan : (h.pool.withoutLease leaseId).canIssueLease next.mode = true) :
    (∀ item ∈ rest.head?,
      (passedOn h.pool leaseId next rest clock).canIssueLease item.mode = false) ↔
        ¬LetsTwoThrough h.pool leaseId := by
  have hnext := Issued.canIssueLease_createAndRegisterLease next.subsystem next.mode
    h.pool.defaultLeaseTtlMs clock.issuing clock.random
    (s := { h.pool.withoutLease leaseId with waitingQueue := rest })
    (hs.issued.withoutLease leaseId) hcan
  cases rest with
  | nil =>
    refine ⟨fun _ htwo => ?_, fun _ item hitem => nomatch hitem⟩
    have htake := congrArg List.length htwo.2.1
    rw [hqueue] at htake
    cases htake
  | cons second rest =>
    have hlets : LetsTwoThrough h.pool leaseId ↔
        (passedOn h.pool leaseId next (second :: rest) clock).canIssueLease second.mode
          = true := by
      refine Iff.trans ?_ (hnext second.mode).symm
      rw [LetsTwoThrough, hqueue]
      constructor
      · rintro ⟨-, htake, -, hroom⟩
        obtain ⟨hmode, htail⟩ := cons_eq_cons.mp htake
        exact ⟨hmode, (cons_eq_cons.mp htail).1, hroom⟩
      · rintro ⟨hmode, hmode', hroom⟩
        refine ⟨hsome, ?_, hmode ▸ hcan, hroom⟩
        rw [take_succ_cons, take_succ_cons, take_zero, map_cons,
          map_cons, hmode, hmode', map_nil]
    rw [hlets, Bool.not_eq_true]
    constructor
    · exact fun hall => hall second rfl
    · intro hfalse item hitem
      rwa [← Option.some.inj hitem]

theorem disciplined_releaseLease_iff (hs : h.Sound) (hd : h.Disciplined) (leaseId : Text)
    (clock : LeaseReadings) :
    (h.step (.releaseLease leaseId clock)).Disciplined ↔ ¬LetsTwoThrough h.pool leaseId := by
  cases hget : h.pool.activeLeases.get? leaseId with
  | none =>
    rw [step_unknown clock hget]
    refine ⟨fun _ htwo => ?_, fun _ => hd⟩
    have hsome := htwo.1
    rw [hget] at hsome
    cases hsome
  | some lease =>
    have hsome : (h.pool.activeLeases.get? leaseId).isSome := by rw [hget]; rfl
    cases hqueue : h.pool.waitingQueue with
    | nil =>
      rw [step_released clock hsome (by rw [hqueue]; exact fun _ hnone => nomatch hnone)]
      refine ⟨fun _ htwo => ?_, fun _ => ⟨hd.inOrder, fun item hitem => ?_⟩⟩
      · have htake := htwo.2.1
        rw [hqueue] at htake
        cases htake
      · have hhead : item ∈ h.pool.waitingQueue.head? := hitem
        rw [hqueue] at hhead
        cases hhead
    | cons next rest =>
      have hhead : h.pool.waitingQueue.head? = some next := by rw [hqueue]; rfl
      cases hcan : (h.pool.withoutLease leaseId).canIssueLease next.mode with
      | false =>
        have hblocked : ∀ item ∈ h.pool.waitingQueue.head?,
            (h.pool.withoutLease leaseId).canIssueLease item.mode = false := by
          intro item hitem
          rw [hhead] at hitem
          rwa [← Option.some.inj hitem]
        rw [step_released clock hsome hblocked]
        refine ⟨fun _ htwo => ?_, fun _ => ⟨hd.inOrder, hblocked⟩⟩
        obtain ⟨-, htake, hreader, -⟩ := htwo
        rw [hqueue] at htake
        have hmode : next.mode = .sharedRead := (cons_eq_cons.mp htake).1
        rw [hmode, hreader] at hcan
        cases hcan
      | true =>
        rw [step_passedOn clock hsome hqueue hcan, disciplined_concat hd.inOrder]
        have hsorted := hs.sorted
        rw [waiting, hqueue] at hsorted
        have hlater : ∀ other ∈ rest.map (·.request), next.request ≤ other := by
          intro other hother
          exact le_of_lt ((pairwise_cons.mp hsorted).1 other hother)
        have hsecond := headWaits_passedOn_iff hs clock hsome hqueue hcan
        exact ⟨fun hboth => hsecond.mp hboth.2, fun hnot => ⟨hlater, hsecond.mpr hnot⟩⟩

theorem disciplined_timeout_iff (hd : h.Disciplined) (request : ℕ) :
    (h.step (.timeout request)).Disciplined ↔ ¬FreesTheNext h.pool request := by
  have hstep : h.step (.timeout request) = { h with pool := { h.pool with
      waitingQueue := h.pool.waitingQueue.eraseP (·.request = request) } } := by
    rw [step, waitingQueue_timeout]
  have hhead : (h.step (.timeout request)).Disciplined ↔
      ∀ item ∈ (h.pool.waitingQueue.eraseP (·.request = request)).head?,
        h.pool.canIssueLease item.mode = false := by
    rw [hstep]
    exact ⟨fun hdisciplined => hdisciplined.headWaits, fun hall => ⟨hd.inOrder, hall⟩⟩
  rw [hhead, FreesTheNext]
  cases hqueue : h.pool.waitingQueue with
  | nil =>
    refine ⟨fun _ => ?_, fun _ item hitem => nomatch hitem⟩
    rintro ⟨head, next, rest, hcons, -⟩
    cases hcons
  | cons head rest =>
    by_cases hrequest : head.request = request
    · rw [eraseP_cons_of_pos (by exact decide_eq_true hrequest)]
      constructor
      · rintro hall ⟨head', next, rest', hcons, -, hcan⟩
        obtain ⟨rfl, rfl⟩ := cons_eq_cons.mp hcons
        rw [hall next rfl] at hcan
        cases hcan
      · intro hnot item hitem
        cases rest with
        | nil => cases hitem
        | cons next rest =>
          obtain rfl := Option.some.inj hitem
          exact Bool.not_eq_true _ ▸ fun hcan => hnot ⟨head, next, rest, rfl, hrequest, hcan⟩
    · rw [eraseP_cons_of_neg (by simpa using hrequest)]
      constructor
      · rintro - ⟨head', next, rest', hcons, hrequest', -⟩
        obtain ⟨rfl, -⟩ := cons_eq_cons.mp hcons
        exact hrequest hrequest'
      · intro _ item hitem
        exact hd.headWaits item (by rw [hqueue]; exact hitem)

/-- **Step lemma.**  What one step needs. -/
theorem disciplined_step_iff (hs : h.Sound) (hd : h.Disciplined) (call : PoolCall) :
    (h.step call).Disciplined ↔ h.Orderly call := by
  cases call with
  | acquireLease subsystem mode timeoutMs clock =>
    exact disciplined_acquireLease_iff hs hd subsystem mode timeoutMs clock
  | releaseLease leaseId clock => exact disciplined_releaseLease_iff hs hd leaseId clock
  | timeout request => exact disciplined_timeout_iff hd request

/-- **The queue keeps its discipline through a run if and only if every step of the run is
orderly.** -/
theorem disciplined_iff_orderly (maxConcurrentLeases defaultTtl maxQueueLength : Option Number)
    (calls : List PoolCall) :
    Always step Disciplined (new (.new maxConcurrentLeases defaultTtl maxQueueLength)) calls ↔
      Guarded step Orderly (new (.new maxConcurrentLeases defaultTtl maxQueueLength)) calls := by
  have hsafe : ∀ h : PoolHistory, h.Sound ∧ h.Disciplined → h.Disciplined := fun h hh => hh.2
  have hkeep : ∀ (h : PoolHistory) (call : PoolCall), h.Sound ∧ h.Disciplined → True →
      h.Orderly call → (h.step call).Sound ∧ (h.step call).Disciplined := by
    intro h call hh _ horderly
    exact ⟨hh.1.step call, (disciplined_step_iff hh.1 hh.2 call).mpr horderly⟩
  have hbreak : ∀ (h : PoolHistory) (call : PoolCall), h.Sound ∧ h.Disciplined → True →
      ¬h.Orderly call → ¬(h.step call).Disciplined := fun h call hh _ hnot hdisciplined =>
    hnot ((disciplined_step_iff hh.1 hh.2 call).mp hdisciplined)
  exact always_iff_guarded_of_invariant hsafe hkeep hbreak ⟨sound_new _ _ _, disciplined_new _ _ _⟩
    (guarded_of_forall_mem fun _ _ _ => trivial)

/-! ## A reader overtakes a writer -/

def noDigits : LeaseReadings := ⟨0, 0, 0, ⟨[], List.not_mem_nil⟩⟩

/-- A writer waits for a reader, and another reader comes. -/
def readerPastWriter : List PoolCall :=
  [.acquireLease (text "cas") .sharedRead none noDigits,
    .acquireLease (text "wal") .exclusiveWrite none noDigits,
    .acquireLease (text "cas") .sharedRead none noDigits]

theorem reader_overtakes_writer :
    (run step (new (.new none none none)) readerPastWriter).grants = [⟨0, []⟩, ⟨2, [1]⟩] ∧
      ¬Always step Disciplined (new (.new none none none)) readerPastWriter := by
  have hgrants :
      (run step (new (.new none none none)) readerPastWriter).grants = [⟨0, []⟩, ⟨2, [1]⟩] := by
    decide +kernel
  refine ⟨hgrants, fun halways => ?_⟩
  have hlast := always_iff_forall_split.mp halways readerPastWriter [] (append_nil _).symm
  have hle := hlast.inOrder ⟨2, [1]⟩ (by rw [hgrants]; decide) 1 (by decide)
  exact absurd hle (by decide)

/-! ## Readers, or one writer -/

/-- A writer holds the only lease, and no more leases are out than may be. -/
structure Shared (s : BroccoliConnectionPool) : Prop where
  issued : s.Issued
  alone : ∀ lease ∈ s.activeLeases.values, lease.mode = .exclusiveWrite →
    s.activeLeases.values = [lease]
  bounded : ∀ size < s.activeLeases.size, reaches size s.maxConcurrentLeases = false

section

variable {s : BroccoliConnectionPool} (hs : Shared s)
include hs

theorem Shared.createAndRegisterLease (subsystem : Text) {mode : BroccoliLeaseMode}
    (hcan : s.canIssueLease mode = true) (ttlMs : Number) (now : ℚ) (random : RandomDigits) :
    Shared (s.createAndRegisterLease subsystem mode ttlMs now random).2 := by
  have hentries := hs.issued.entries_createAndRegisterLease subsystem mode ttlMs now random
  have hmode : (s.createAndRegisterLease subsystem mode ttlMs now random).1.mode = mode := rfl
  rw [canIssueLease.eq_def] at hcan
  split_ifs at hcan with hfull
  refine ⟨hs.issued.createAndRegisterLease subsystem mode ttlMs now random, ?_, ?_⟩
  · rw [InsertionMap.values, hentries, map_append]
    intro lease hlease hwrite
    cases mode with
    | exclusiveWrite =>
      rw [length_eq_zero_iff.mp (of_decide_eq_true hcan)] at hlease ⊢
      rw [mem_singleton.mp hlease]
      rfl
    | sharedRead =>
      rcases mem_append.mp hlease with hlease | hlease
      · exact absurd hwrite (of_decide_eq_true (all_eq_true.mp hcan lease hlease))
      · rw [mem_singleton.mp hlease, hmode] at hwrite
        cases hwrite
  · intro size hsize
    rw [InsertionMap.size, hentries, length_append] at hsize
    rcases Nat.lt_succ_iff_lt_or_eq.mp hsize with hlt | rfl
    · exact hs.bounded size hlt
    · exact Bool.eq_false_iff.mpr hfull

theorem Shared.withoutLease {leaseId : Text} (hget : (s.activeLeases.get? leaseId).isSome) :
    Shared (s.withoutLease leaseId) := by
  obtain ⟨released, hget⟩ := Option.isSome_iff_exists.mp hget
  have hperm := InsertionMap.perm_values_delete hget
  have hlength : s.activeLeases.size = (s.activeLeases.delete leaseId).size + 1 := by
    simpa [InsertionMap.values, InsertionMap.size] using hperm.length_eq
  refine ⟨hs.issued.withoutLease leaseId, fun lease hlease hwrite => ?_, fun size hlt =>
    hs.bounded size (hlength ▸ Nat.lt_succ_of_lt hlt)⟩
  -- beside a writer there was no lease to release
  have hone := hs.alone lease (hperm.mem_iff.mpr (mem_cons_of_mem _ hlease)) hwrite
  rw [hone, singleton_perm, cons_eq_cons] at hperm
  exact absurd (hperm.2 ▸ hlease : lease ∈ []) not_mem_nil

end

/-- **Step lemma.** -/
theorem Shared.step {h : PoolHistory} (hs : Shared h.pool) (call : PoolCall) :
    Shared (h.step call).pool := by
  cases call with
  | acquireLease subsystem mode timeoutMs clock =>
    cases hcan : h.pool.canIssueLease mode with
    | true =>
      rw [step_granted subsystem timeoutMs clock hcan]
      exact hs.createAndRegisterLease subsystem hcan ..
    | false =>
      cases hroom : reaches h.pool.waitingQueue.length h.pool.maxQueueLength with
      | true => rwa [step_full subsystem timeoutMs clock hcan hroom]
      | false =>
        rw [step_queued subsystem timeoutMs clock hcan hroom]
        exact ⟨hs.issued, hs.alone, hs.bounded⟩
  | releaseLease leaseId clock =>
    have hpool : (h.step (.releaseLease leaseId clock)).pool
        = (h.pool.releaseLease leaseId clock).2 := by
      rw [PoolHistory.step]
      split <;> next heq => rw [heq]
    rw [hpool, BroccoliConnectionPool.releaseLease]
    cases hget : h.pool.activeLeases.get? leaseId with
    | none => exact hs
    | some lease =>
      have hleft := hs.withoutLease (Option.isSome_of_mem hget)
      show Shared ((h.pool.withoutLease leaseId).processWaitingQueue clock).2
      rw [BroccoliConnectionPool.processWaitingQueue]
      split
      · exact hleft
      · next next rest _ =>
        split_ifs with hcan
        · have hqueue : Shared { h.pool.withoutLease leaseId with waitingQueue := rest } :=
            ⟨hleft.issued, hleft.alone, hleft.bounded⟩
          have hgranted := hqueue.createAndRegisterLease next.subsystem hcan
            h.pool.defaultLeaseTtlMs clock.issuing clock.random
          exact ⟨hgranted.issued, hgranted.alone, hgranted.bounded⟩
        · exact hleft
  | timeout request =>
    rw [PoolHistory.step, waitingQueue_timeout]
    exact ⟨hs.issued, hs.alone, hs.bounded⟩

/-- **Readers, or one writer.**  Whatever is called, a lease to write is the only lease, and no
lease is out beyond the limit. -/
theorem readers_or_one_writer (maxConcurrentLeases defaultTtl maxQueueLength : Option Number)
    (calls : List PoolCall) :
    Always step (fun h => (∀ lease ∈ h.pool.activeLeases.values, lease.mode = .exclusiveWrite →
        h.pool.activeLeases.values = [lease]) ∧
      ∀ size < h.pool.activeLeases.size, reaches size h.pool.maxConcurrentLeases = false)
      (new (.new maxConcurrentLeases defaultTtl maxQueueLength)) calls := by
  have hstep : ∀ (h : PoolHistory) (call : PoolCall), Shared h.pool → Shared (h.step call).pool :=
    fun h call hs => hs.step call
  have hnew : Shared (.new maxConcurrentLeases defaultTtl maxQueueLength) :=
    ⟨(sound_new _ _ _).issued, fun _ hlease => absurd hlease not_mem_nil, nofun⟩
  exact (always_of_invariant hstep hnew calls).mono fun h hs => ⟨hs.alone, hs.bounded⟩

end PoolHistory

end Lumi.Locks
