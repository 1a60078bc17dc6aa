import Lumi.Locks.BroccoliLockAuthority

/-!
# Mutual exclusion

A lock is issued only if every lock in the table on its resource, expired or not, lets it stand
beside itself.  So an exclusive lock is the only one on its resource, whatever the clock reads, and
the second table lists each lock under its resource, and nothing else.
-/

namespace Lumi.Locks

open Js

namespace BroccoliLockAuthority

/-- An exclusive lock stands alone; the second table lists every lock under its resource, and has
no empty set. -/
structure Sound (s : BroccoliLockAuthority) : Prop extends Consistent s where
  alone : ∀ {id id' : Text} {h h' : BroccoliLockHandle}, s.locks.get? id = some h →
    s.locks.get? id' = some h' → h.resourceKey = h'.resourceKey → h.mode = .exclusiveWrite →
      id = id'
  complete : ∀ {id : Text} {h : BroccoliLockHandle}, s.locks.get? id = some h →
    id ∈ InvertedIndex.lookup s.resourceLocks h.resourceKey
  nonempty : ∀ {key : Text} {ids : InsertionSet Text}, s.resourceLocks.get? key = some ids →
    ids.keys ≠ []

theorem sound_new : new.Sound where
  toConsistent := consistent_new
  alone := fun h => nomatch h
  complete := fun h => nomatch h
  nonempty := fun h => nomatch h

/-! ## Releases -/

variable {s : BroccoliLockAuthority}

theorem nonempty_releaseLock (hs : s.Sound) (lockId : Text) {key : Text} {ids : InsertionSet Text}
    (hget : (s.releaseLock lockId).resourceLocks.get? key = some ids) : ids.keys ≠ [] := by
  unfold releaseLock at hget
  split at hget
  · exact hs.nonempty hget
  · next handle hhandle =>
    dsimp only at hget
    split at hget
    · exact hs.nonempty hget
    · next keyLocks hkeyLocks =>
      split_ifs at hget with hsize
      · rw [InsertionMap.get?_delete] at hget
        split_ifs at hget
        exact hs.nonempty hget
      · rw [InsertionMap.get?_set] at hget
        split_ifs at hget
        · obtain rfl := Option.some.inj hget
          exact fun hnil => hsize (by
            rw [InsertionMap.size, ← List.length_map Prod.fst]
            exact List.length_eq_zero_iff.mpr hnil)
        · exact hs.nonempty hget

/-- **Step lemma.**  A release. -/
theorem Sound.releaseLock (hs : s.Sound) (lockId : Text) :
    (s.releaseLock lockId).Sound where
  toConsistent := hs.toConsistent.releaseLock lockId
  alone := fun {id id' h h'} hget hget' hkey hmode => by
    rw [releaseLock_get?] at hget hget'
    split_ifs at hget hget'
    exact hs.alone hget hget' hkey hmode
  complete := fun {id h} hget => by
    rw [releaseLock_get?] at hget
    split_ifs at hget with hid
    rw [lookup_releaseLock hs.toConsistent, List.mem_filter, decide_eq_true_eq]
    exact ⟨hs.complete hget, hid⟩
  nonempty := fun {key ids} hget => nonempty_releaseLock hs lockId hget

/-- Releases one after the other. -/
theorem Sound.foldl_releaseLock {ι : Type*} (lockId : ι → Text) (released : ι → Bool) (l : List ι)
    (hs : s.Sound) :
    (l.foldl (fun s i => if released i then s.releaseLock (lockId i) else s) s).Sound := by
  induction l generalizing s with
  | nil => exact hs
  | cons i rest ih =>
    rw [List.foldl_cons]
    split_ifs
    · exact ih (hs.releaseLock (lockId i))
    · exact ih hs

theorem Sound.cleanExpiredLocks (hs : s.Sound) (now : ℚ) : (s.cleanExpiredLocks now).Sound := by
  have hfold := hs.foldl_releaseLock (Prod.fst : Text × BroccoliLockHandle → Text)
    (fun entry => entry.2.isExpired now) s.locks.entries
  exact hfold

theorem Sound.releaseAllForOwner (hs : s.Sound) (ownerId : Text) :
    (s.releaseAllForOwner ownerId).Sound := by
  have hfold := hs.foldl_releaseLock (Prod.fst : Text × BroccoliLockHandle → Text)
    (fun entry => decide (entry.2.ownerId = ownerId)) s.locks.entries
  simp only [decide_eq_true_eq] at hfold
  exact hfold

/-! ## Acquisitions -/

/-- A scan that finds nothing has seen locks that let the new one stand beside them. -/
theorem scanLocks_eq_none {ownerId : Text} {mode : BroccoliLockMode}
    {locks : List BroccoliLockHandle} (h : scanLocks ownerId mode locks = none) :
    ∀ lock ∈ locks, lock.mode ≠ .exclusiveWrite ∧ mode ≠ .exclusiveWrite := by
  induction locks with
  | nil => exact fun lock hlock => absurd hlock List.not_mem_nil
  | cons first rest ih =>
    rw [scanLocks] at h
    split_ifs at h with hown hagainst
    intro lock hlock
    rcases List.mem_cons.mp hlock with rfl | hlock
    · exact not_or.mp hagainst
    · exact ih h lock hlock

theorem Sound.mem_locksOn (hs : s.Sound) {id : Text} {h : BroccoliLockHandle}
    (hget : s.locks.get? id = some h) : h ∈ s.locksOn h.resourceKey :=
  List.mem_filterMap.mpr ⟨id, hs.complete hget, hget⟩

/-- **Step lemma.**  A lock is issued where the scan has found nothing. -/
theorem Sound.issueLock (hs : s.Sound) {resourceKey ownerId : Text} {mode : BroccoliLockMode}
    (hscan : scanLocks ownerId mode (s.locksOn resourceKey) = none) (ttlMs : Number) (now : ℚ) :
    (s.issueLock resourceKey ownerId mode ttlMs now).2.Sound where
  toConsistent := hs.toConsistent.issueLock resourceKey ownerId mode ttlMs now
  alone := fun {id id' h h'} hget hget' hkey hmode => by
    have hother := scanLocks_eq_none hscan
    rw [issueLock_get?] at hget hget'
    split_ifs at hget hget' with hid hid' hid'
    · exact hid.trans hid'.symm
    · -- the new lock is exclusive, and another one is on its resource
      obtain rfl := Option.some.inj hget
      have hkey' : resourceKey = h'.resourceKey := hkey
      exact absurd hmode (hother h' (hkey' ▸ hs.mem_locksOn hget')).2
    · obtain rfl := Option.some.inj hget'
      have hkey' : h.resourceKey = resourceKey := hkey
      exact absurd hmode (hother h (hkey' ▸ hs.mem_locksOn hget)).1
    · exact hs.alone hget hget' hkey hmode
  complete := fun {id h} hget => by
    rw [issueLock_get?] at hget
    split_ifs at hget with hid
    · obtain rfl := Option.some.inj hget
      exact InvertedIndex.mem_lookup_post.mpr (.inl ⟨rfl, hid⟩)
    · exact InvertedIndex.mem_lookup_post.mpr (.inr (hs.complete hget))
  nonempty := fun {key ids} hget => by
    have hpost : (InvertedIndex.post s.resourceLocks resourceKey _).get? key = some ids := hget
    rw [InvertedIndex.post, InsertionMap.get?_set] at hpost
    split_ifs at hpost
    · obtain rfl := Option.some.inj hpost
      exact List.ne_nil_of_mem (InsertionSet.mem_keys_add.mpr (.inl rfl))
    · exact hs.nonempty hpost

theorem Sound.acquireLock (hs : s.Sound) (resourceKey ownerId : Text) (mode : BroccoliLockMode)
    (ttlMs : Number) (clock : ClockReadings) :
    (s.acquireLock resourceKey ownerId mode ttlMs clock).2.Sound := by
  have hclean := hs.cleanExpiredLocks clock.cleaning
  unfold BroccoliLockAuthority.acquireLock
  dsimp only
  split
  · exact hclean
  · exact hclean
  · next hscan => exact hclean.issueLock hscan ttlMs clock.issuing

/-- **Run lemma.**  A batch, and what gives it back. -/
theorem Sound.acquireLoop (ownerId : Text) (mode : BroccoliLockMode) (ttlMs : Number)
    (clock : ℕ → ClockReadings) (keys : List Text) {i : ℕ} {acquired : List BroccoliLockHandle}
    (hs : s.Sound) :
    (BroccoliLockAuthority.acquireLoop ownerId mode ttlMs clock i keys acquired s).2.Sound := by
  induction keys generalizing i acquired s with
  | nil => exact hs
  | cons key rest ih =>
    have hnext := hs.acquireLock key ownerId mode ttlMs (clock i)
    rw [BroccoliLockAuthority.acquireLoop]
    split
    · next handle s' heq =>
      rw [heq] at hnext
      exact ih hnext
    · next err s' heq =>
      rw [heq] at hnext
      have hfold := hnext.foldl_releaseLock BroccoliLockHandle.lockId (fun _ => true) acquired
      simpa only [if_true] using hfold

theorem Reachable.sound (hs : Reachable s) : s.Sound := by
  induction hs with
  | new => exact sound_new
  | acquireLock _ resourceKey ownerId mode ttlMs clock ih =>
    exact ih.acquireLock resourceKey ownerId mode ttlMs clock
  | acquireAll _ resourceKeys ownerId mode ttlMs clock ih =>
    exact Sound.acquireLoop ownerId mode ttlMs clock (sortKeys resourceKeys) ih
  | releaseLock _ lockId ih => exact ih.releaseLock lockId
  | releaseAllForOwner _ ownerId ih => exact ih.releaseAllForOwner ownerId
  | cleanExpiredLocks _ now ih => exact ih.cleanExpiredLocks now

/-- **In every state that calls can leave, an unexpired exclusive lock is the only unexpired lock
on its resource, and the second table lists exactly the locks on each resource, without empty
sets.** -/
theorem mutual_exclusion {s : BroccoliLockAuthority} (hs : Reachable s) (now : ℚ) :
    (∀ id id' h h', s.locks.get? id = some h → s.locks.get? id' = some h' →
      h.isExpired now = false → h'.isExpired now = false → h.resourceKey = h'.resourceKey →
      h.mode = .exclusiveWrite → id = id' ∧ h = h') ∧
    (∀ key id, id ∈ InvertedIndex.lookup s.resourceLocks key ↔
      ∃ h, s.locks.get? id = some h ∧ h.resourceKey = key) ∧
    ∀ key ids, s.resourceLocks.get? key = some ids → ids.keys ≠ [] := by
  have hsound := hs.sound
  refine ⟨?_, ?_, fun key ids => hsound.nonempty⟩
  · intro id id' h h' hget hget' _ _ hkey hmode
    obtain rfl := hsound.alone hget hget' hkey hmode
    exact ⟨rfl, Option.some.inj (hget.symm.trans hget')⟩
  · intro key id
    refine ⟨hsound.listed, ?_⟩
    rintro ⟨h, hget, rfl⟩
    exact hsound.complete hget

/-- Two readers of `a`, and a writer of `b`. -/
theorem readers_and_writer :
    let clock : ClockReadings := ⟨0, 0⟩
    let s := (((new.acquireLock (text "a") (text "1") .sharedRead (.finite 10) clock).2.acquireLock
      (text "a") (text "2") .sharedRead (.finite 10) clock).2.acquireLock (text "b") (text "1")
      .exclusiveWrite (.finite 10) clock).2
    ∀ id, id ∈ InvertedIndex.lookup s.resourceLocks (text "a") ↔
      ∃ h, s.locks.get? id = some h ∧ h.resourceKey = text "a" := by
  intro clock s
  exact (mutual_exclusion (Reachable.acquireLock (Reachable.acquireLock (Reachable.acquireLock
    .new _ _ _ _ _) _ _ _ _ _) _ _ _ _ _) 0).2.1 (text "a")

end BroccoliLockAuthority

end Lumi.Locks
