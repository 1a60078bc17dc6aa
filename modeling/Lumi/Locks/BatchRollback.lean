import Mathlib.Data.List.Dedup
import Lumi.Locks.BroccoliLockAuthority

/-!
# What a refused batch leaves behind

A batch that is refused gives back every lock it was given, those that its owner had before as
well.  So, expired locks apart, the table is as it was before the call just where no resource
that comes before the refused one in the order of the batch has a lock of the owner in this mode
that is found first there and outlives the call (`acquireAll_undone_iff`).
-/

namespace Lumi.Locks

open Js List

namespace BroccoliLockAuthority

section

variable (s : BroccoliLockAuthority) (keys : List Text) (ownerId : Text)
  (mode : BroccoliLockMode) (clock : ℕ → ClockReadings)

/-- The lock is not expired at any of the first `n` cleanings of the call. -/
def liveBefore (n : ℕ) (lock : BroccoliLockHandle) : Bool :=
  (List.range n).all fun i => !lock.isExpired (clock i).cleaning

/-- What the `n`-th acquisition finds on its resource: a lock of the owner, or one against it. -/
def verdict (n : ℕ) : Option (Except BroccoliLockHandle BroccoliLockHandle) :=
  keys[n]?.bind fun key =>
    scanLocks ownerId mode ((s.locksOn key).filter (liveBefore clock (n + 1)))

/-- The `n`-th resource is the first that has a lock against the owner. -/
def StopsAt (n : ℕ) : Prop :=
  (∃ lock, verdict s keys ownerId mode clock n = some (.error lock)) ∧
    ∀ i < n, ∀ lock, verdict s keys ownerId mode clock i ≠ some (.error lock)

/-- The locks are those before the call, without those that expired meanwhile. -/
def Undone (n : ℕ) (s' : BroccoliLockAuthority) : Prop :=
  ∀ id, s'.locks.get? id = (s.locks.get? id).filter (liveBefore clock (n + 1))

/-- After `done`, as many resources as there are locks in `acquired`. -/
structure Progress (done : List Text) (acquired : List BroccoliLockHandle)
    (t : BroccoliLockAuthority) : Prop where
  consistent : t.Consistent
  total : s.totalLocksIssued ≤ t.totalLocksIssued
  locks : ∀ id, ¬ s.IssuedAfter id →
    t.locks.get? id = (s.locks.get? id).filter (liveBefore clock done.length)
  fresh : ∀ id h, s.IssuedAfter id → t.locks.get? id = some h → ∃ g ∈ acquired, g.lockId = id
  locksOn : ∀ key ∉ done, t.locksOn key = (s.locksOn key).filter (liveBefore clock done.length)
  sound : ∀ h ∈ acquired, s.IssuedAfter h.lockId ∨
    ∃ i < done.length, verdict s keys ownerId mode clock i = some (.ok h)
  complete : ∀ i < done.length, ∀ h, verdict s keys ownerId mode clock i = some (.ok h) →
    h ∈ acquired
  passed : ∀ i < done.length, ∀ lock, verdict s keys ownerId mode clock i ≠ some (.error lock)

end

variable {s : BroccoliLockAuthority} {keys : List Text} {ownerId : Text}
  {mode : BroccoliLockMode} {clock : ℕ → ClockReadings}

theorem liveBefore_succ (n : ℕ) (lock : BroccoliLockHandle) :
    liveBefore clock (n + 1) lock
      = (liveBefore clock n lock && !lock.isExpired (clock n).cleaning) := by
  rw [liveBefore, range_succ, all_append, all_cons, all_nil, Bool.and_true]
  rfl

theorem mem_of_scanLocks {lock : BroccoliLockHandle} {l : List BroccoliLockHandle}
    (h : scanLocks ownerId mode l = some (.ok lock)) : lock ∈ l := by
  induction l with
  | nil => cases h
  | cons head rest ih =>
    rw [scanLocks] at h
    split at h
    · cases h
      exact mem_cons_self
    · split at h
      · cases h
      · exact mem_cons_of_mem _ (ih h)

/-- A lock of the owner that a verdict names is one of the table before the call. -/
theorem get?_of_verdict (hs : s.Consistent) {i : ℕ} {lock : BroccoliLockHandle}
    (h : verdict s keys ownerId mode clock i = some (.ok lock)) :
    s.locks.get? lock.lockId = some lock := by
  obtain ⟨key, -, hscan⟩ := Option.bind_eq_some_iff.mp h
  exact (mem_locksOn hs (mem_filter.mp (mem_of_scanLocks hscan)).1).1

theorem progress_nil (hs : s.Consistent) : Progress s keys ownerId mode clock [] [] s where
  consistent := hs
  total := Nat.le_refl _
  locks := fun id _ => by cases s.locks.get? id <;> rfl
  fresh := fun id h hissued hget => absurd hissued (hs.not_issuedAfter hget)
  locksOn := fun key _ => (filter_true _).symm
  sound := fun h hh => absurd hh not_mem_nil
  complete := fun i hi => absurd hi (Nat.not_lt_zero i)
  passed := fun i hi => absurd hi (Nat.not_lt_zero i)

/-! ## One resource -/

section

variable {done : List Text} {acquired : List BroccoliLockHandle} {t : BroccoliLockAuthority}
  (h : Progress s keys ownerId mode clock done acquired t)
include h

/-- Cleaning up takes the locks that have expired since the last time. -/
theorem Progress.cleaned :
    (t.cleanExpiredLocks (clock done.length).cleaning).Consistent ∧
      (∀ id, ¬ s.IssuedAfter id →
        (t.cleanExpiredLocks (clock done.length).cleaning).locks.get? id
          = (s.locks.get? id).filter (liveBefore clock (done.length + 1))) ∧
      (∀ id g, s.IssuedAfter id →
        (t.cleanExpiredLocks (clock done.length).cleaning).locks.get? id = some g →
          ∃ g ∈ acquired, g.lockId = id) ∧
      (∀ key ∉ done, (t.cleanExpiredLocks (clock done.length).cleaning).locksOn key
        = (s.locksOn key).filter (liveBefore clock (done.length + 1))) := by
  obtain ⟨hconsistent, hkeeps⟩ :=
    keeps_cleanExpiredLocks h.consistent (clock done.length).cleaning
  have hlive : liveBefore clock (done.length + 1) = fun lock =>
      liveBefore clock done.length lock && !lock.isExpired (clock done.length).cleaning :=
    funext (liveBefore_succ done.length)
  refine ⟨hconsistent, fun id hid => ?_, fun id g hid hget => ?_, fun key hkey => ?_⟩
  · rw [hkeeps.locks, h.locks id hid, Option.filter_filter, hlive]
  · rw [hkeeps.locks] at hget
    exact h.fresh id g hid (Option.filter_eq_some_iff.mp hget).1
  · rw [hkeeps.locksOn, h.locksOn key hkey, filter_filter, hlive]
    simp only [Bool.and_comm]

/-- The scan of the next resource comes to the verdict. -/
theorem Progress.scan_eq {key : Text} {rest : List Text} (hkeys : keys = done ++ key :: rest)
    (hnodup : keys.Nodup) :
    scanLocks ownerId mode ((t.cleanExpiredLocks (clock done.length).cleaning).locksOn key)
      = verdict s keys ownerId mode clock done.length := by
  have hnew : key ∉ done := by
    rw [hkeys, nodup_append] at hnodup
    exact fun hmem => hnodup.2.2 key hmem key mem_cons_self rfl
  have hget : keys[done.length]? = some key := by
    rw [hkeys, getElem?_append_right (Nat.le_refl _), Nat.sub_self]
    rfl
  rw [verdict, hget, h.cleaned.2.2.2 key hnew]
  rfl

/-- The owner's own lock is given once more. -/
theorem Progress.reentrant {key : Text} {lock : BroccoliLockHandle}
    (hverdict : verdict s keys ownerId mode clock done.length = some (.ok lock)) :
    Progress s keys ownerId mode clock (done ++ [key]) (acquired ++ [lock])
      (t.cleanExpiredLocks (clock done.length).cleaning) := by
  obtain ⟨hconsistent, hlocks, hfresh, hon⟩ := h.cleaned
  have hkeeps := (keeps_cleanExpiredLocks h.consistent (clock done.length).cleaning).2
  have hlength : (done ++ [key]).length = done.length + 1 := length_append
  refine ⟨hconsistent, by rw [hkeeps.total]; exact h.total, ?_, ?_, ?_, ?_, ?_, ?_⟩
  · rw [hlength]
    exact hlocks
  · intro id g hid hget
    obtain ⟨g, hg, heq⟩ := hfresh id g hid hget
    exact ⟨g, mem_append_left _ hg, heq⟩
  · rw [hlength]
    exact fun key hkey => hon key fun hmem => hkey (mem_append_left _ hmem)
  · intro g hg
    rw [hlength]
    rcases mem_append.mp hg with hg | hg
    · rcases h.sound g hg with hissued | ⟨i, hi, hi'⟩
      · exact .inl hissued
      · exact .inr ⟨i, Nat.lt_succ_of_lt hi, hi'⟩
    · rw [mem_singleton.mp hg]
      exact .inr ⟨done.length, Nat.lt_succ_self _, hverdict⟩
  · intro i hi g hg
    rw [hlength] at hi
    rcases Nat.lt_succ_iff_lt_or_eq.mp hi with hi | rfl
    · exact mem_append_left _ (h.complete i hi g hg)
    · rw [hverdict] at hg
      cases hg
      exact mem_append_right _ (mem_singleton_self _)
  · intro i hi other hother
    rw [hlength] at hi
    rcases Nat.lt_succ_iff_lt_or_eq.mp hi with hi | rfl
    · exact h.passed i hi other hother
    · rw [hverdict] at hother
      cases hother

/-- A new lock is issued. -/
theorem Progress.issue {key : Text} (ttlMs : Number) (now : ℚ)
    (hverdict : verdict s keys ownerId mode clock done.length = none) :
    Progress s keys ownerId mode clock (done ++ [key])
      (acquired ++ [((t.cleanExpiredLocks (clock done.length).cleaning).issueLock key ownerId mode
        ttlMs now).1])
      ((t.cleanExpiredLocks (clock done.length).cleaning).issueLock key ownerId mode ttlMs
        now).2 := by
  obtain ⟨hconsistent, hlocks, hfresh, hon⟩ := h.cleaned
  have hkeeps := (keeps_cleanExpiredLocks h.consistent (clock done.length).cleaning).2
  have hlength : (done ++ [key]).length = done.length + 1 := length_append
  have htotal : s.totalLocksIssued
      ≤ (t.cleanExpiredLocks (clock done.length).cleaning).totalLocksIssued := by
    rw [hkeeps.total]
    exact h.total
  have hissued : s.IssuedAfter ((t.cleanExpiredLocks (clock done.length).cleaning).issueLock key
      ownerId mode ttlMs now).1.lockId :=
    ⟨key, _, rfl, Nat.lt_succ_of_le htotal⟩
  refine ⟨hconsistent.issueLock .., Nat.le_succ_of_le htotal, ?_, ?_, ?_, ?_, ?_, ?_⟩
  · intro id hid
    rw [issueLock_get?, if_neg (by rintro rfl; exact hid hissued), hlength]
    exact hlocks id hid
  · intro id g hid hget
    rw [issueLock_get?] at hget
    split at hget
    · next heq => exact ⟨_, mem_append_right _ (mem_singleton_self _), heq.symm⟩
    · obtain ⟨g, hg, heq⟩ := hfresh id g hid hget
      exact ⟨g, mem_append_left _ hg, heq⟩
  · intro other hother
    have hne : other ≠ key := fun heq =>
      hother (heq ▸ mem_append_right _ (mem_singleton_self _))
    rw [issueLock_locksOn hconsistent _ _ _ _ _ hne, hlength]
    exact hon other fun hmem => hother (mem_append_left _ hmem)
  · intro g hg
    rw [hlength]
    rcases mem_append.mp hg with hg | hg
    · rcases h.sound g hg with hissued | ⟨i, hi, hi'⟩
      · exact .inl hissued
      · exact .inr ⟨i, Nat.lt_succ_of_lt hi, hi'⟩
    · rw [mem_singleton.mp hg]
      exact .inl hissued
  · intro i hi g hg
    rw [hlength] at hi
    rcases Nat.lt_succ_iff_lt_or_eq.mp hi with hi | rfl
    · exact mem_append_left _ (h.complete i hi g hg)
    · rw [hverdict] at hg
      cases hg
  · intro i hi other hother
    rw [hlength] at hi
    rcases Nat.lt_succ_iff_lt_or_eq.mp hi with hi | rfl
    · exact h.passed i hi other hother
    · rw [hverdict] at hother
      cases hother

/-- A refusal gives back the locks of the batch. -/
theorem Progress.undone_iff (hs : s.Consistent) :
    Undone s clock done.length (acquired.foldl (fun s h => s.releaseLock h.lockId)
        (t.cleanExpiredLocks (clock done.length).cleaning)) ↔
      ∀ i < done.length, ∀ lock, verdict s keys ownerId mode clock i = some (.ok lock) →
        liveBefore clock (done.length + 1) lock = false := by
  obtain ⟨hconsistent, hlocks, hfresh, -⟩ := h.cleaned
  obtain ⟨-, hkeeps⟩ := keeps_foldl_releaseLock BroccoliLockHandle.lockId (fun _ => true) acquired
    hconsistent
  have hget : ∀ id, (acquired.foldl (fun s h => s.releaseLock h.lockId)
      (t.cleanExpiredLocks (clock done.length).cleaning)).locks.get? id
        = ((t.cleanExpiredLocks (clock done.length).cleaning).locks.get? id).filter
          fun lock => acquired.all fun g => lock.lockId ≠ g.lockId := hkeeps.locks
  constructor
  · intro hundone i hi lock hverdict
    refine Bool.eq_false_iff.mpr fun hlive => ?_
    have hbefore := get?_of_verdict hs hverdict
    have hmem := h.complete i hi lock hverdict
    have hafter := hundone lock.lockId
    rw [hget, hlocks lock.lockId (hs.not_issuedAfter hbefore), hbefore, Option.filter_some,
      if_pos hlive, Option.filter_some, if_neg] at hafter
    · cases hafter
    · intro hall
      have hno := all_eq_true.mp hall lock hmem
      simp at hno
  · intro hexpired id
    rw [hget]
    by_cases hid : s.IssuedAfter id
    · have hnone : s.locks.get? id = none := by
        cases hsome : s.locks.get? id with
        | none => rfl
        | some lock => exact absurd hid (hs.not_issuedAfter hsome)
      rw [hnone, Option.filter_none, Option.filter_eq_none_iff]
      intro lock hlock hall
      obtain ⟨g, hg, heq⟩ := hfresh id lock hid hlock
      have hne := all_eq_true.mp hall g hg
      rw [hconsistent.named hlock, heq] at hne
      simp at hne
    · rw [hlocks id hid, Option.filter_filter]
      cases hsome : s.locks.get? id with
      | none => rfl
      | some lock =>
        rw [Option.filter_some, Option.filter_some]
        by_cases hlive : liveBefore clock (done.length + 1) lock = true
        · rw [if_pos hlive, if_pos]
          rw [hlive, Bool.true_and, all_eq_true]
          intro g hg
          rw [decide_eq_true_eq, hs.named hsome]
          rintro rfl
          rcases h.sound g hg with hissued | ⟨i, hi, hverdict⟩
          · exact hid hissued
          · have hsame := get?_of_verdict hs hverdict
            rw [hsome] at hsame
            cases hsame
            have hno := hexpired i hi lock hverdict
            rw [hlive] at hno
            cases hno
        · rw [if_neg hlive, if_neg]
          intro hboth
          exact hlive (Bool.and_eq_true_iff.mp hboth).1

end

/-! ## The batch -/

/-- A refusal in the loop, from what was acquired so far. -/
theorem undone_iff_of_acquireLoop (hs : s.Consistent) (hnodup : keys.Nodup) {ttlMs : Number}
    {rest done : List Text} {acquired : List BroccoliLockHandle} {t : BroccoliLockAuthority}
    (hkeys : keys = done ++ rest) (h : Progress s keys ownerId mode clock done acquired t)
    {err : Text} {t' : BroccoliLockAuthority}
    (hloop : acquireLoop ownerId mode ttlMs clock done.length rest acquired t = (.error err, t')) :
    ∃ n, StopsAt s keys ownerId mode clock n ∧
      (Undone s clock n t' ↔ ∀ i < n, ∀ lock,
        verdict s keys ownerId mode clock i = some (.ok lock) →
          liveBefore clock (n + 1) lock = false) := by
  induction rest generalizing done acquired t with
  | nil => cases hloop
  | cons key rest ih =>
    have hscan := h.scan_eq hkeys hnodup
    have hnext : keys = (done ++ [key]) ++ rest := by rw [hkeys, append_cons]
    have hlength : (done ++ [key]).length = done.length + 1 := length_append
    rw [acquireLoop, acquireLock] at hloop
    simp only [hscan] at hloop
    cases hverdict : verdict s keys ownerId mode clock done.length with
    | none =>
      rw [hverdict] at hloop
      refine ih hnext (h.issue ttlMs (clock done.length).issuing hverdict) ?_
      rw [hlength]
      exact hloop
    | some found =>
      rw [hverdict] at hloop
      cases found with
      | ok lock =>
        refine ih hnext (h.reentrant hverdict) ?_
        rw [hlength]
        exact hloop
      | error lock =>
        obtain ⟨-, rfl⟩ := Prod.mk.inj hloop
        exact ⟨done.length, ⟨⟨lock, hverdict⟩, h.passed⟩, h.undone_iff hs⟩

theorem nodup_sortKeys (resourceKeys : List Text) : (sortKeys resourceKeys).Nodup :=
  (perm_insertionSort _ _).nodup_iff.mpr (nodup_dedup _)

theorem Consistent.acquireLock (hs : s.Consistent) (resourceKey : Text) (ttlMs : Number)
    (readings : ClockReadings) :
    (s.acquireLock resourceKey ownerId mode ttlMs readings).2.Consistent := by
  have hclean := (keeps_cleanExpiredLocks hs readings.cleaning).1
  rw [BroccoliLockAuthority.acquireLock]
  dsimp only
  split
  · exact hclean
  · exact hclean
  · exact hclean.issueLock ..

theorem Consistent.acquireLoop {ttlMs : Number} (i : ℕ) (rest : List Text)
    (acquired : List BroccoliLockHandle) (hs : s.Consistent) :
    (acquireLoop ownerId mode ttlMs clock i rest acquired s).2.Consistent := by
  induction rest generalizing i acquired s with
  | nil => exact hs
  | cons key rest ih =>
    have hnext : (s.acquireLock key ownerId mode ttlMs (clock i)).2.Consistent :=
      hs.acquireLock key ttlMs (clock i)
    rw [BroccoliLockAuthority.acquireLoop]
    split
    · next handle t heq =>
      rw [heq] at hnext
      exact ih _ _ hnext
    · next err t heq =>
      rw [heq] at hnext
      exact (keeps_foldl_releaseLock BroccoliLockHandle.lockId (fun _ => true) acquired hnext).1

theorem Reachable.consistent (h : s.Reachable) : s.Consistent := by
  induction h with
  | new => exact consistent_new
  | acquireLock _ resourceKey ownerId mode ttlMs clock ih =>
    exact ih.acquireLock resourceKey ttlMs clock
  | acquireAll _ resourceKeys ownerId mode ttlMs clock ih => exact ih.acquireLoop _ _ _
  | releaseLock _ lockId ih => exact ih.releaseLock lockId
  | releaseAllForOwner _ ownerId ih =>
    have hreleased := (keeps_release_entries ih fun lock => lock.ownerId = ownerId).1
    simp only [decide_eq_true_eq] at hreleased
    exact hreleased
  | cleanExpiredLocks _ now ih => exact (keeps_cleanExpiredLocks ih now).1

/-- A batch that is refused leaves the locks as they were just where none of the locks its owner
was given once more outlives the call. -/
theorem acquireAll_undone_iff (h : s.Reachable) {resourceKeys : List Text} {ttlMs : Number}
    {err : Text} (hthrow : (s.acquireAll resourceKeys ownerId mode ttlMs clock).1 = .error err) :
    ∃ n, StopsAt s (sortKeys resourceKeys) ownerId mode clock n ∧
      (Undone s clock n (s.acquireAll resourceKeys ownerId mode ttlMs clock).2 ↔
        ∀ i < n, ∀ lock,
          verdict s (sortKeys resourceKeys) ownerId mode clock i = some (.ok lock) →
            liveBefore clock (n + 1) lock = false) := by
  have hprogress := @progress_nil s (sortKeys resourceKeys) ownerId mode clock h.consistent
  exact undone_iff_of_acquireLoop h.consistent (nodup_sortKeys resourceKeys) rfl hprogress
    (Prod.ext hthrow rfl)

/-- One owner has a lock on `a`, another on `b`. -/
def twoOwners : BroccoliLockAuthority :=
  ((new.acquireLock (text "a") (text "me") .exclusiveWrite (.finite 10000) ⟨0, 0⟩).2.acquireLock
    (text "b") (text "other") .exclusiveWrite (.finite 10000) ⟨0, 0⟩).2

theorem reachable_twoOwners : twoOwners.Reachable :=
  .acquireLock (.acquireLock .new _ _ _ _ _) _ _ _ _ _

def refusedMessage : Text := text "Resource 'b' is locked in EXCLUSIVE_WRITE mode by owner 'other'"

theorem batch_refused :
    (twoOwners.acquireAll [text "b", text "a"] (text "me") .exclusiveWrite (.finite 10000)
      fun _ => ⟨1, 1⟩).1 = .error refusedMessage ∧
    ∃ n, StopsAt twoOwners (sortKeys [text "b", text "a"]) (text "me") .exclusiveWrite
        (fun _ => ⟨1, 1⟩) n ∧
      (Undone twoOwners (fun _ => ⟨1, 1⟩) n (twoOwners.acquireAll [text "b", text "a"] (text "me")
          .exclusiveWrite (.finite 10000) fun _ => ⟨1, 1⟩).2 ↔
        ∀ i < n, ∀ lock, verdict twoOwners (sortKeys [text "b", text "a"]) (text "me")
          .exclusiveWrite (fun _ => ⟨1, 1⟩) i = some (.ok lock) →
            liveBefore (fun _ => ⟨1, 1⟩) (n + 1) lock = false) := by
  have hthrow : (twoOwners.acquireAll [text "b", text "a"] (text "me") .exclusiveWrite
      (.finite 10000) fun _ => ⟨1, 1⟩).1 = .error refusedMessage := by decide +kernel
  exact ⟨hthrow, acquireAll_undone_iff reachable_twoOwners hthrow⟩

/-- The refused batch takes the lock that its owner had before. -/
theorem batch_takes_older_lock :
    twoOwners.Reachable ∧
    (twoOwners.acquireAll [text "a", text "b"] (text "me") .exclusiveWrite (.finite 10000)
      fun _ => ⟨1, 1⟩).1 = .error refusedMessage ∧
    ∃ lock, twoOwners.locks.get? (text "lock_a_1") = some lock ∧
      lock.ownerId = text "me" ∧ lock.isExpired 1 = false ∧
      (twoOwners.acquireAll [text "a", text "b"] (text "me") .exclusiveWrite (.finite 10000)
        fun _ => ⟨1, 1⟩).2.locks.get? (text "lock_a_1") = none := by
  refine ⟨reachable_twoOwners, by decide +kernel, ?_⟩
  exact ⟨⟨text "lock_a_1", text "a", text "me", .exclusiveWrite, 0, .finite 10000⟩,
    by decide +kernel, rfl, by decide +kernel, by decide +kernel⟩

end BroccoliLockAuthority

end Lumi.Locks
