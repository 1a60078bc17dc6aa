import Mathlib.Data.List.Sort
import Lumi.Lib.Decimal
import Lumi.Lib.InvertedIndex

/-!
# The lock authority of BroccoliDB

Locks stand in a table by their ids, and the ids of the locks on a resource in a second one.
`acquireLock` gives an owner the lock it already holds in the same mode, `acquireAll` takes the
locks of a batch one after the other, and gives back what it was given when one of them is
refused.

Calls follow each other.  The clock reads anything: every acquisition reads it once to clean up
and once for the lock it issues.
-/

namespace Lumi.Locks

open Js List InsertionMap

inductive BroccoliLockMode
  | sharedRead
  | exclusiveWrite
  deriving DecidableEq

def BroccoliLockMode.name : BroccoliLockMode → Text
  | sharedRead => text "SHARED_READ"
  | exclusiveWrite => text "EXCLUSIVE_WRITE"

structure BroccoliLockHandle where
  lockId : Text
  resourceKey : Text
  ownerId : Text
  mode : BroccoliLockMode
  acquiredAt : ℚ
  expiresAt : Number
  deriving DecidableEq

/-- `handle.expiresAt <= now`. -/
def BroccoliLockHandle.isExpired (handle : BroccoliLockHandle) (now : ℚ) : Bool :=
  Number.less? (.finite now) handle.expiresAt = some false

/-- `now + ttlMs`. -/
def expiryAfter (now : ℚ) : Number → Number
  | .finite ttlMs => .finite (now + ttlMs)
  | ttlMs => ttlMs

structure BroccoliLockAuthority where
  locks : InsertionMap Text BroccoliLockHandle
  resourceLocks : InvertedIndex Text Text
  totalLocksIssued : ℕ

/-- The readings of the clock by an acquisition. -/
structure ClockReadings where
  cleaning : ℚ
  issuing : ℚ

/-- `key.replace(/[^a-zA-Z0-9]/g, "_")`. -/
def sanitize (key : Text) : Text :=
  key.map fun c =>
    if (0x61 ≤ c && c ≤ 0x7A) || (0x41 ≤ c && c ≤ 0x5A) || (0x30 ≤ c && c ≤ 0x39) then c else 0x5F

def lockName (resourceKey : Text) (number : ℕ) : Text :=
  text "lock_" ++ sanitize resourceKey ++ 0x5F :: decimal number

namespace BroccoliLockAuthority

def new : BroccoliLockAuthority := ⟨.empty, .empty, 0⟩

section

variable (s : BroccoliLockAuthority)

def releaseLock (lockId : Text) : BroccoliLockAuthority :=
  match s.locks.get? lockId with
  | none => s
  | some handle =>
    { s with
      locks := s.locks.delete lockId
      resourceLocks :=
        match s.resourceLocks.get? handle.resourceKey with
        | none => s.resourceLocks
        | some keyLocks =>
          let keyLocks := keyLocks.delete lockId
          if keyLocks.size = 0 then s.resourceLocks.delete handle.resourceKey
          else s.resourceLocks.set handle.resourceKey keyLocks }

def cleanExpiredLocks (now : ℚ) : BroccoliLockAuthority :=
  s.locks.entries.foldl (fun s entry => if entry.2.isExpired now then s.releaseLock entry.1 else s) s

/-- The locks on a resource, in the order in which they were issued. -/
def locksOn (resourceKey : Text) : List BroccoliLockHandle :=
  (InvertedIndex.lookup s.resourceLocks resourceKey).filterMap s.locks.get?

/-- The loop over the locks on a resource: the owner's own lock, or one that stands against it. -/
def scanLocks (ownerId : Text) (mode : BroccoliLockMode) :
    List BroccoliLockHandle → Option (Except BroccoliLockHandle BroccoliLockHandle)
  | [] => none
  | lock :: rest =>
    if lock.ownerId = ownerId ∧ lock.mode = mode then some (.ok lock)
    else if lock.mode = .exclusiveWrite ∨ mode = .exclusiveWrite then some (.error lock)
    else scanLocks ownerId mode rest

def issueLock (resourceKey ownerId : Text) (mode : BroccoliLockMode)
    (ttlMs : Number) (now : ℚ) : BroccoliLockHandle × BroccoliLockAuthority :=
  let number := s.totalLocksIssued + 1
  let handle : BroccoliLockHandle :=
    ⟨lockName resourceKey number, resourceKey, ownerId, mode, now, expiryAfter now ttlMs⟩
  (handle, {
    locks := s.locks.set handle.lockId handle
    resourceLocks := InvertedIndex.post s.resourceLocks resourceKey handle.lockId
    totalLocksIssued := number })

def acquireLock (resourceKey ownerId : Text) (mode : BroccoliLockMode) (ttlMs : Number)
    (clock : ClockReadings) : Except Text BroccoliLockHandle × BroccoliLockAuthority :=
  let s := s.cleanExpiredLocks clock.cleaning
  match scanLocks ownerId mode (s.locksOn resourceKey) with
  | some (.ok lock) => (.ok lock, s)
  | some (.error lock) =>
    (.error (text "Resource '" ++ resourceKey ++ text "' is locked in " ++ lock.mode.name ++
      text " mode by owner '" ++ lock.ownerId ++ text "'"), s)
  | none =>
    let (handle, s) := s.issueLock resourceKey ownerId mode ttlMs clock.issuing
    (.ok handle, s)

end

/-- `Array.from(new Set(resourceKeys)).sort()`. -/
def sortKeys (resourceKeys : List Text) : List Text := resourceKeys.dedup.insertionSort (· ≤ ·)

/-- The loop in `acquireAll`, with the locks it was given; a refusal gives all of them back. -/
def acquireLoop (ownerId : Text) (mode : BroccoliLockMode) (ttlMs : Number)
    (clock : ℕ → ClockReadings) : ℕ → List Text → List BroccoliLockHandle → BroccoliLockAuthority →
      Except Text (List BroccoliLockHandle) × BroccoliLockAuthority
  | _, [], acquired, s => (.ok acquired, s)
  | i, key :: rest, acquired, s =>
    match s.acquireLock key ownerId mode ttlMs (clock i) with
    | (.ok handle, s) => acquireLoop ownerId mode ttlMs clock (i + 1) rest (acquired ++ [handle]) s
    | (.error err, s) => (.error err, acquired.foldl (fun s h => s.releaseLock h.lockId) s)

def acquireAll (s : BroccoliLockAuthority) (resourceKeys : List Text) (ownerId : Text)
    (mode : BroccoliLockMode) (ttlMs : Number) (clock : ℕ → ClockReadings) :
    Except Text (List BroccoliLockHandle) × BroccoliLockAuthority :=
  acquireLoop ownerId mode ttlMs clock 0 (sortKeys resourceKeys) [] s

def releaseAllForOwner (s : BroccoliLockAuthority) (ownerId : Text) : BroccoliLockAuthority :=
  s.locks.entries.foldl
    (fun s entry => if entry.2.ownerId = ownerId then s.releaseLock entry.1 else s) s

/-- The tables that calls can leave. -/
inductive Reachable : BroccoliLockAuthority → Prop
  | new : Reachable .new
  | acquireLock {s : BroccoliLockAuthority} (hs : Reachable s) (resourceKey ownerId : Text)
      (mode : BroccoliLockMode) (ttlMs : Number) (clock : ClockReadings) :
      Reachable (s.acquireLock resourceKey ownerId mode ttlMs clock).2
  | acquireAll {s : BroccoliLockAuthority} (hs : Reachable s) (resourceKeys : List Text)
      (ownerId : Text) (mode : BroccoliLockMode) (ttlMs : Number) (clock : ℕ → ClockReadings) :
      Reachable (s.acquireAll resourceKeys ownerId mode ttlMs clock).2
  | releaseLock {s : BroccoliLockAuthority} (hs : Reachable s) (lockId : Text) :
      Reachable (s.releaseLock lockId)
  | releaseAllForOwner {s : BroccoliLockAuthority} (hs : Reachable s) (ownerId : Text) :
      Reachable (s.releaseAllForOwner ownerId)
  | cleanExpiredLocks {s : BroccoliLockAuthority} (hs : Reachable s) (now : ℚ) :
      Reachable (s.cleanExpiredLocks now)

/-! ## What the operations leave -/

/-- The tables name each lock by its id, list it under its resource only, and have no number that
was not issued. -/
structure Consistent (s : BroccoliLockAuthority) : Prop where
  named : ∀ {id : Text} {h : BroccoliLockHandle}, s.locks.get? id = some h → h.lockId = id
  listed : ∀ {key id : Text}, id ∈ InvertedIndex.lookup s.resourceLocks key →
    ∃ h, s.locks.get? id = some h ∧ h.resourceKey = key
  issued : ∀ {id : Text} {h : BroccoliLockHandle}, s.locks.get? id = some h →
    ∃ key number, id = lockName key number ∧ number ≤ s.totalLocksIssued

/-- The second table has those locks of the first that satisfy `keep`, in the same order. -/
structure Keeps (s s' : BroccoliLockAuthority) (keep : BroccoliLockHandle → Bool) : Prop where
  locks : ∀ id, s'.locks.get? id = (s.locks.get? id).filter keep
  locksOn : ∀ key, s'.locksOn key = (s.locksOn key).filter keep
  total : s'.totalLocksIssued = s.totalLocksIssued

theorem Keeps.refl (s : BroccoliLockAuthority) : Keeps s s fun _ => true where
  locks := fun id => by cases s.locks.get? id <;> rfl
  locksOn := fun key => (filter_true _).symm
  total := rfl

theorem Keeps.trans {s s' s'' : BroccoliLockAuthority} {keep keep' : BroccoliLockHandle → Bool}
    (h : Keeps s s' keep) (h' : Keeps s' s'' keep') :
    Keeps s s'' fun lock => keep lock && keep' lock where
  locks := fun id => by rw [h'.locks, h.locks, Option.filter_filter]
  locksOn := fun key => by
    rw [h'.locksOn, h.locksOn, filter_filter]
    simp only [Bool.and_comm]
  total := h'.total.trans h.total

/-- Only the locks of the first table matter. -/
theorem Keeps.congr {s s' : BroccoliLockAuthority} {keep keep' : BroccoliLockHandle → Bool}
    (h : Keeps s s' keep)
    (heq : ∀ lock, s.locks.get? lock.lockId = some lock → keep lock = keep' lock)
    (hs : s.Consistent) : Keeps s s' keep' where
  locks := fun id => by
    rw [h.locks]
    cases hget : s.locks.get? id with
    | none => rfl
    | some lock =>
      have hname := hs.named hget
      rw [Option.filter_some, Option.filter_some, heq lock (hname ▸ hget)]
  locksOn := fun key => by
    rw [h.locksOn]
    refine filter_congr fun lock hlock => ?_
    obtain ⟨id, -, hget⟩ := mem_filterMap.mp hlock
    have hname := hs.named hget
    exact heq lock (hname ▸ hget)
  total := h.total

variable {s : BroccoliLockAuthority}

theorem mem_locksOn (hs : s.Consistent) {key : Text} {lock : BroccoliLockHandle}
    (h : lock ∈ s.locksOn key) : s.locks.get? lock.lockId = some lock ∧ lock.resourceKey = key := by
  obtain ⟨id, hid, hget⟩ := mem_filterMap.mp h
  obtain ⟨found, hfound, hkey⟩ := hs.listed hid
  have hname := hs.named hget
  rw [hget] at hfound
  cases hfound
  exact ⟨hname ▸ hget, hkey⟩

theorem consistent_new : new.Consistent where
  named := fun h => nomatch h
  listed := fun h => absurd h not_mem_nil
  issued := fun h => nomatch h

/-- The ids on a resource after a release. -/
theorem lookup_releaseLock (hs : s.Consistent) (lockId key : Text) :
    InvertedIndex.lookup (s.releaseLock lockId).resourceLocks key
      = (InvertedIndex.lookup s.resourceLocks key).filter (· ≠ lockId) := by
  have hself : (∀ h, s.locks.get? lockId = some h → h.resourceKey ≠ key) →
      InvertedIndex.lookup s.resourceLocks key
        = (InvertedIndex.lookup s.resourceLocks key).filter (· ≠ lockId) := by
    intro hother
    refine (filter_eq_self.mpr fun id hid => ?_).symm
    obtain ⟨h, hget, hkey⟩ := hs.listed hid
    simp only [decide_eq_true_eq]
    rintro rfl
    exact hother h hget hkey
  rw [releaseLock]
  split
  · next hnone => exact hself fun h hsome => by rw [hnone] at hsome; cases hsome
  · next handle hsome =>
    by_cases hkey : key = handle.resourceKey
    · subst hkey
      cases hlookup : s.resourceLocks.get? handle.resourceKey with
      | none => simp only [InvertedIndex.lookup, hlookup]; rfl
      | some keyLocks =>
        simp only
        have hfilter : (keyLocks.delete lockId).keys
            = keyLocks.keys.filter (· ≠ lockId) := by
          rw [InsertionMap.keys, InsertionMap.delete, InsertionMap.keys, filter_map]
          rfl
        have hold : InvertedIndex.lookup s.resourceLocks handle.resourceKey = keyLocks.keys := by
          rw [InvertedIndex.lookup, hlookup]
          rfl
        rw [hold, ← hfilter]
        split
        · next hempty =>
          have hnil : (keyLocks.delete lockId).keys = [] :=
            length_eq_zero_iff.mp (by rw [InsertionMap.keys, length_map]; exact hempty)
          rw [InvertedIndex.lookup, get?_delete_self, hnil]
          rfl
        · rw [InvertedIndex.lookup, get?_set_self]
          rfl
    · rw [← hself fun h hh heq => hkey (by rw [hsome] at hh; cases hh; exact heq.symm)]
      cases hlookup : s.resourceLocks.get? handle.resourceKey with
      | none => rfl
      | some keyLocks =>
        simp only
        split
        · rw [InvertedIndex.lookup, get?_delete_of_ne _ hkey]
          rfl
        · rw [InvertedIndex.lookup, get?_set_of_ne _ _ hkey]
          rfl

theorem releaseLock_get? (s : BroccoliLockAuthority) (lockId id : Text) :
    (s.releaseLock lockId).locks.get? id = if id = lockId then none else s.locks.get? id := by
  rw [releaseLock]
  split
  · next hnone =>
    split
    · next heq => rw [heq, hnone]
    · rfl
  · exact get?_delete _ _ _

theorem releaseLock_total (s : BroccoliLockAuthority) (lockId : Text) :
    (s.releaseLock lockId).totalLocksIssued = s.totalLocksIssued := by
  rw [releaseLock]
  split <;> rfl

theorem Consistent.releaseLock (hs : s.Consistent) (lockId : Text) :
    (s.releaseLock lockId).Consistent where
  named := fun {id h} hget => by
    rw [releaseLock_get?] at hget
    split at hget
    · cases hget
    · exact hs.named hget
  listed := fun {key id} hid => by
    rw [lookup_releaseLock hs, mem_filter, decide_eq_true_eq] at hid
    rw [releaseLock_get?, if_neg hid.2]
    exact hs.listed hid.1
  issued := fun {id h} hget => by
    rw [releaseLock_get?] at hget
    split at hget
    · cases hget
    · rw [releaseLock_total]
      exact hs.issued hget

theorem keeps_releaseLock (hs : s.Consistent) (lockId : Text) :
    Keeps s (s.releaseLock lockId) fun lock => lock.lockId ≠ lockId where
  locks := fun id => by
    rw [releaseLock_get?]
    cases hget : s.locks.get? id with
    | none => rw [ite_self]; rfl
    | some lock =>
      have hname := hs.named hget
      rw [Option.filter_some]
      by_cases hid : id = lockId
      · rw [if_pos hid, if_neg (by simp [hname, hid])]
      · rw [if_neg hid, if_pos (by simp [hname, hid])]
  locksOn := fun key => by
    rw [BroccoliLockAuthority.locksOn, BroccoliLockAuthority.locksOn, lookup_releaseLock hs,
      filterMap_filter, filter_filterMap]
    refine filterMap_congr fun id _ => ?_
    rw [releaseLock_get?]
    cases hget : s.locks.get? id with
    | none => simp
    | some lock =>
      have hname := hs.named hget
      by_cases hid : id = lockId
      · simp [hid, Option.filter_some, hname.trans hid]
      · simp [hid, Option.filter_some, hname]
  total := releaseLock_total s lockId

/-- Releases one after the other. -/
theorem keeps_foldl_releaseLock {ι : Type*} (lockId : ι → Text) (released : ι → Bool) (l : List ι)
    (hs : s.Consistent) :
    (l.foldl (fun s i => if released i then s.releaseLock (lockId i) else s) s).Consistent ∧
      Keeps s (l.foldl (fun s i => if released i then s.releaseLock (lockId i) else s) s)
        fun lock => l.all fun i => !(released i) || lock.lockId ≠ lockId i := by
  induction l generalizing s with
  | nil => exact ⟨hs, Keeps.refl s⟩
  | cons i rest ih =>
    rw [foldl_cons]
    by_cases hi : released i = true
    · rw [if_pos hi]
      obtain ⟨hrest, hkeeps⟩ := ih (hs.releaseLock (lockId i))
      refine ⟨hrest, ((keeps_releaseLock hs (lockId i)).trans hkeeps).congr (fun lock _ => ?_) hs⟩
      rw [all_cons, hi]
      rfl
    · rw [if_neg hi]
      obtain ⟨hrest, hkeeps⟩ := ih hs
      refine ⟨hrest, hkeeps.congr (fun lock _ => ?_) hs⟩
      rw [all_cons, Bool.eq_false_iff.mpr hi]
      rfl

/-- The entries of the table that satisfy `gone` are released. -/
theorem keeps_release_entries (hs : s.Consistent) (gone : BroccoliLockHandle → Bool) :
    (s.locks.entries.foldl (fun s entry => if gone entry.2 then s.releaseLock entry.1 else s)
        s).Consistent ∧
      Keeps s (s.locks.entries.foldl
        (fun s entry => if gone entry.2 then s.releaseLock entry.1 else s) s)
        fun lock => !gone lock := by
  obtain ⟨hconsistent, hkeeps⟩ :=
    keeps_foldl_releaseLock Prod.fst (fun entry => gone entry.2) s.locks.entries hs
  refine ⟨hconsistent, hkeeps.congr (fun lock hlock => ?_) hs⟩
  rw [Bool.eq_iff_iff, all_eq_true, Bool.not_eq_true']
  constructor
  · intro hall
    have hentry := hall (lock.lockId, lock) (mem_entries_iff.mpr hlock)
    simpa using hentry
  · rintro hlive ⟨id, other⟩ hentry
    by_cases hid : lock.lockId = id
    · have hother := mem_entries_iff.mp hentry
      rw [← hid, hlock] at hother
      cases hother
      simp [hlive]
    · simp [hid]

theorem keeps_cleanExpiredLocks (hs : s.Consistent) (now : ℚ) :
    (s.cleanExpiredLocks now).Consistent ∧
      Keeps s (s.cleanExpiredLocks now) fun lock => !lock.isExpired now :=
  keeps_release_entries hs fun lock => lock.isExpired now

/-! ## New locks -/

/-- The number stands after the last underscore. -/
theorem lockName_number {key key' : Text} {m n : ℕ} (h : lockName key m = lockName key' n) :
    m = n := by
  have hdigits := notMem_decimal (c := 0x5F) (by decide)
  exact decimal_injective (eq_of_last_field (hdigits m) (hdigits n) h).2

/-- The id was issued after the table was in this state. -/
def IssuedAfter (s : BroccoliLockAuthority) (id : Text) : Prop :=
  ∃ key number, id = lockName key number ∧ s.totalLocksIssued < number

theorem Consistent.not_issuedAfter (hs : s.Consistent) {id : Text} {h : BroccoliLockHandle}
    (hget : s.locks.get? id = some h) : ¬ s.IssuedAfter id := by
  rintro ⟨key, number, rfl, hlt⟩
  obtain ⟨key', number', heq, hle⟩ := hs.issued hget
  have hnumber := lockName_number heq
  omega

section

variable {s : BroccoliLockAuthority} (hs : s.Consistent) (resourceKey ownerId : Text)
  (mode : BroccoliLockMode) (ttlMs : Number) (now : ℚ)

theorem issueLock_issuedAfter :
    s.IssuedAfter (s.issueLock resourceKey ownerId mode ttlMs now).1.lockId :=
  ⟨resourceKey, s.totalLocksIssued + 1, rfl, Nat.lt_succ_self _⟩

theorem issueLock_get? (id : Text) :
    (s.issueLock resourceKey ownerId mode ttlMs now).2.locks.get? id
      = if id = (s.issueLock resourceKey ownerId mode ttlMs now).1.lockId
        then some (s.issueLock resourceKey ownerId mode ttlMs now).1 else s.locks.get? id :=
  get?_set _ _ _ _

include hs

/-- The id of a new lock was in use by none. -/
theorem issueLock_fresh :
    s.locks.get? (s.issueLock resourceKey ownerId mode ttlMs now).1.lockId = none := by
  cases hget : s.locks.get? (s.issueLock resourceKey ownerId mode ttlMs now).1.lockId with
  | none => rfl
  | some h => exact absurd (issueLock_issuedAfter ..) (hs.not_issuedAfter hget)

theorem Consistent.issueLock : (s.issueLock resourceKey ownerId mode ttlMs now).2.Consistent where
  named := fun {id h} hget => by
    rw [issueLock_get?] at hget
    split at hget
    · next hid => cases hget; exact hid.symm
    · exact hs.named hget
  listed := fun {key id} hid => by
    rw [issueLock_get?]
    rcases InvertedIndex.mem_lookup_post.mp hid with ⟨rfl, rfl⟩ | hid
    · exact ⟨_, if_pos rfl, rfl⟩
    · obtain ⟨h, hget, hkey⟩ := hs.listed hid
      refine ⟨h, ?_, hkey⟩
      rw [if_neg, hget]
      rintro rfl
      rw [issueLock_fresh hs] at hget
      cases hget
  issued := fun {id h} hget => by
    rw [issueLock_get?] at hget
    split at hget
    · next hid => exact ⟨resourceKey, s.totalLocksIssued + 1, hid, Nat.le_refl _⟩
    · obtain ⟨key, number, heq, hle⟩ := hs.issued hget
      exact ⟨key, number, heq, Nat.le_succ_of_le hle⟩

/-- The locks on other resources stay as they are. -/
theorem issueLock_locksOn {key : Text} (hkey : key ≠ resourceKey) :
    (s.issueLock resourceKey ownerId mode ttlMs now).2.locksOn key = s.locksOn key := by
  have hlookup : InvertedIndex.lookup
      (s.issueLock resourceKey ownerId mode ttlMs now).2.resourceLocks key
        = InvertedIndex.lookup s.resourceLocks key := by
    show InvertedIndex.lookup (InvertedIndex.post _ _ _) key = _
    rw [InvertedIndex.lookup, InvertedIndex.post, get?_set_of_ne _ _ hkey]
    rfl
  rw [locksOn, locksOn, hlookup]
  refine filterMap_congr fun id hid => ?_
  obtain ⟨h, hget, -⟩ := hs.listed hid
  rw [issueLock_get?, if_neg]
  rintro rfl
  rw [issueLock_fresh hs] at hget
  cases hget

end

end BroccoliLockAuthority

end Lumi.Locks
