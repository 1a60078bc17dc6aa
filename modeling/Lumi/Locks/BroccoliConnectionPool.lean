import Lumi.Locks.BroccoliLockAuthority

/-!
# The connection pool of BroccoliDB

Leases are read or write leases; a write lease is issued only when there is no other lease.  A
request that cannot be met waits in a queue until a lease is released or its timer fires.
-/

namespace Lumi.Locks

open Js InsertionMap

inductive BroccoliLeaseMode
  | sharedRead
  | exclusiveWrite
  deriving DecidableEq

structure BroccoliLeaseHandle where
  leaseId : Text
  subsystem : Text
  mode : BroccoliLeaseMode
  acquiredAt : ℚ
  expiresAt : Number
  deriving DecidableEq

/-- A request that waits; the source knows it by the object. -/
structure QueueItem where
  request : ℕ
  subsystem : Text
  mode : BroccoliLeaseMode
  enqueuedAt : ℚ
  ttl : Number
  deriving DecidableEq

/-- What `Math.random().toString(36).slice(2, 7)` gives: digits of base 36. -/
structure RandomDigits where
  digits : Text
  no_underscore : (0x5F : UInt16) ∉ digits

def leaseName (subsystem : Text) (number : ℕ) (random : RandomDigits) : Text :=
  (text "lease_" ++ subsystem ++ 0x5F :: decimal number) ++ 0x5F :: random.digits

inductive PoolError
  | queueFull (waiting : ℕ) (maxQueueLength : Number)
  | timedOut (ttl : Number) (subsystem : Text)
  deriving DecidableEq

structure BroccoliConnectionPool where
  maxConcurrentLeases : Number
  defaultLeaseTtlMs : Number
  maxQueueLength : Number
  activeLeases : InsertionMap Text BroccoliLeaseHandle
  waitingQueue : List QueueItem
  totalLeasesIssued : ℕ
  peakConcurrency : ℕ
  totalWaitMs : ℚ
  completedLeaseWaits : ℕ
  deriving DecidableEq

/-- `size >= bound`. -/
def reaches (size : ℕ) (bound : Number) : Bool :=
  Number.less? (.finite size) bound = some false

/-- The readings of the clock, and the random digits, by a call that may issue a lease. -/
structure LeaseReadings where
  now : ℚ
  issuing : ℚ
  resolving : ℚ
  random : RandomDigits

inductive LeaseOutcome
  | granted (handle : BroccoliLeaseHandle)
  | waiting
  | rejected (error : PoolError)

namespace BroccoliConnectionPool

def new (maxConcurrentLeases defaultLeaseTtlMs maxQueueLength : Option Number) :
    BroccoliConnectionPool where
  maxConcurrentLeases := maxConcurrentLeases.getD (.finite 32)
  defaultLeaseTtlMs := defaultLeaseTtlMs.getD (.finite 5000)
  maxQueueLength := maxQueueLength.getD (.finite 256)
  activeLeases := .empty
  waitingQueue := []
  totalLeasesIssued := 0
  peakConcurrency := 0
  totalWaitMs := 0
  completedLeaseWaits := 0

section

variable (s : BroccoliConnectionPool)

def canIssueLease (mode : BroccoliLeaseMode) : Bool :=
  if reaches s.activeLeases.size s.maxConcurrentLeases then false
  else
    match mode with
    | .exclusiveWrite => s.activeLeases.size = 0
    | .sharedRead => s.activeLeases.values.all fun lease => lease.mode ≠ .exclusiveWrite

def createAndRegisterLease (subsystem : Text) (mode : BroccoliLeaseMode) (ttlMs : Number) (now : ℚ)
    (random : RandomDigits) : BroccoliLeaseHandle × BroccoliConnectionPool :=
  let number := s.totalLeasesIssued + 1
  let handle : BroccoliLeaseHandle :=
    ⟨leaseName subsystem number random, subsystem, mode, now, expiryAfter now ttlMs⟩
  let activeLeases := s.activeLeases.set handle.leaseId handle
  (handle, { s with
    totalLeasesIssued := number
    activeLeases := activeLeases
    peakConcurrency := max s.peakConcurrency activeLeases.size })

/-- `request` is the number of the request that waits, if it has to. -/
def acquireLease (request : ℕ) (subsystem : Text) (mode : BroccoliLeaseMode)
    (timeoutMs : Option Number) (clock : LeaseReadings) : LeaseOutcome × BroccoliConnectionPool :=
  let ttl := timeoutMs.getD s.defaultLeaseTtlMs
  if s.canIssueLease mode then
    let (handle, s) := s.createAndRegisterLease subsystem mode ttl clock.issuing clock.random
    (.granted handle, s)
  else if reaches s.waitingQueue.length s.maxQueueLength then
    (.rejected (.queueFull s.waitingQueue.length s.maxQueueLength), s)
  else
    (.waiting, { s with
      waitingQueue := s.waitingQueue ++ [⟨request, subsystem, mode, clock.now, ttl⟩] })

/-- The request that is granted, if there is one, with its lease. -/
def processWaitingQueue (clock : LeaseReadings) :
    Option (ℕ × BroccoliLeaseHandle) × BroccoliConnectionPool :=
  match s.waitingQueue with
  | [] => (none, s)
  | next :: rest =>
    if s.canIssueLease next.mode then
      let (handle, s) := { s with waitingQueue := rest }.createAndRegisterLease next.subsystem
        next.mode s.defaultLeaseTtlMs clock.issuing clock.random
      (some (next.request, handle), { s with
        totalWaitMs := s.totalWaitMs + (clock.resolving - next.enqueuedAt)
        completedLeaseWaits := s.completedLeaseWaits + 1 })
    else (none, s)

/-- `activeLeases.delete(leaseId)`. -/
def withoutLease (leaseId : Text) : BroccoliConnectionPool :=
  { s with activeLeases := s.activeLeases.delete leaseId }

/-- Whether there was such a lease, and the request that its release lets through. -/
def releaseLease (leaseId : Text) (clock : LeaseReadings) :
    (Bool × Option (ℕ × BroccoliLeaseHandle)) × BroccoliConnectionPool :=
  match s.activeLeases.get? leaseId with
  | none => ((false, none), s)
  | some _ =>
    let (granted, s) := (s.withoutLease leaseId).processWaitingQueue clock
    ((true, granted), s)

/-- The timer of a request fires; what it is rejected with, if it still waits. -/
def timeout (request : ℕ) : Option PoolError × BroccoliConnectionPool :=
  match s.waitingQueue.find? (·.request = request) with
  | none => (none, s)
  | some item =>
    (some (.timedOut item.ttl item.subsystem), { s with
      waitingQueue := s.waitingQueue.eraseP (·.request = request) })

end

end BroccoliConnectionPool

/-! ## Leases -/

/-- The number stands before the last underscore. -/
theorem leaseName_number {subsystem subsystem' : Text} {m n : ℕ} {random random' : RandomDigits}
    (h : leaseName subsystem m random = leaseName subsystem' n random') : m = n := by
  have hdigits := notMem_decimal (c := 0x5F) (by decide)
  have hfront := (eq_of_last_field random.no_underscore random'.no_underscore h).1
  exact decimal_injective (eq_of_last_field (hdigits m) (hdigits n) hfront).2

namespace BroccoliConnectionPool

/-- Every lease was issued under its number. -/
def Issued (s : BroccoliConnectionPool) : Prop :=
  ∀ leaseId ∈ s.activeLeases.keys, ∃ subsystem number random,
    leaseId = leaseName subsystem number random ∧ number ≤ s.totalLeasesIssued

section

variable {s : BroccoliConnectionPool} (subsystem : Text) (mode : BroccoliLeaseMode)
  (ttlMs : Number) (now : ℚ) (random : RandomDigits)

/-- The name of a new lease is new. -/
theorem Issued.entries_createAndRegisterLease (hs : s.Issued) :
    (s.createAndRegisterLease subsystem mode ttlMs now random).2.activeLeases.entries =
      s.activeLeases.entries ++ [(leaseName subsystem (s.totalLeasesIssued + 1) random,
        (s.createAndRegisterLease subsystem mode ttlMs now random).1)] := by
  apply entries_set_of_get?_eq_none
  rw [get?_eq_none_iff]
  intro hmem
  obtain ⟨subsystem', number, random', hname, hle⟩ := hs _ hmem
  have hnumber := leaseName_number hname
  omega

theorem Issued.createAndRegisterLease (hs : s.Issued) :
    (s.createAndRegisterLease subsystem mode ttlMs now random).2.Issued := by
  intro leaseId hmem
  rw [InsertionMap.keys, hs.entries_createAndRegisterLease, List.map_append] at hmem
  rcases List.mem_append.mp hmem with hmem | hmem
  · obtain ⟨subsystem', number, random', hname, hle⟩ := hs leaseId hmem
    exact ⟨subsystem', number, random', hname, Nat.le_succ_of_le hle⟩
  · exact ⟨subsystem, s.totalLeasesIssued + 1, random, List.mem_singleton.mp hmem, le_refl _⟩

/-- Beside a new lease only readers are let in, and only beside a reader. -/
theorem Issued.canIssueLease_createAndRegisterLease (hs : s.Issued)
    (hcan : s.canIssueLease mode = true) (mode' : BroccoliLeaseMode) :
    (s.createAndRegisterLease subsystem mode ttlMs now random).2.canIssueLease mode' = true ↔
      mode = .sharedRead ∧ mode' = .sharedRead ∧
        reaches (s.activeLeases.size + 1) s.maxConcurrentLeases = false := by
  have hentries := hs.entries_createAndRegisterLease subsystem mode ttlMs now random
  have hsize : (s.createAndRegisterLease subsystem mode ttlMs now random).2.activeLeases.size =
      s.activeLeases.size + 1 := by
    rw [InsertionMap.size, hentries, List.length_append]
    rfl
  have hmax : (s.createAndRegisterLease subsystem mode ttlMs now random).2.maxConcurrentLeases =
      s.maxConcurrentLeases := rfl
  rw [canIssueLease.eq_def, hsize, hmax]
  cases hfull : reaches (s.activeLeases.size + 1) s.maxConcurrentLeases with
  | true => simp
  | false =>
    cases mode' with
    | exclusiveWrite => simp
    | sharedRead =>
      rw [InsertionMap.values, hentries, List.map_append, List.all_append]
      cases mode with
      | exclusiveWrite => simp [BroccoliConnectionPool.createAndRegisterLease]
      | sharedRead =>
        rw [canIssueLease.eq_def] at hcan
        split_ifs at hcan
        have hreaders : (s.activeLeases.entries.map Prod.snd).all
            (fun lease => lease.mode ≠ .exclusiveWrite) = true := hcan
        rw [hreaders]
        simp [BroccoliConnectionPool.createAndRegisterLease]

end

theorem Issued.withoutLease {s : BroccoliConnectionPool} (hs : s.Issued) (leaseId : Text) :
    (s.withoutLease leaseId).Issued := by
  intro other hmem
  obtain ⟨lease, hget⟩ := mem_keys_iff.mp hmem
  have hdelete : (s.activeLeases.delete leaseId).get? other = some lease := hget
  rw [get?_delete] at hdelete
  split_ifs at hdelete
  exact hs other (mem_keys_iff.mpr ⟨lease, hdelete⟩)

end BroccoliConnectionPool

end Lumi.Locks
