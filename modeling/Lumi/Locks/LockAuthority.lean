import Lumi.Locks.SwarmMutexService

/-!
# The lock authority of a process

`UnifiedLockAuthority` takes leases from the database and keeps a projection of each in a map of
the process.  A lease that expires stays in the map until its owner releases it, and whoever takes
the next lease meanwhile gives it up again, since the map has another identity.  So an acquisition
succeeds, where the database has no lease that is not expired, just if the map has no projection
(`acquire_ok_iff`).

The authority mode is `broccoli`, and `crossProcess` is false, so that there are no projections to
files; nor is there a roadmap.  Calls follow each other, and the clock reads anything.
-/

namespace Lumi.Locks

open Js Function Option

structure LeaseObservation where
  ownerId : Text
  leaseEpoch : Text
  fencingToken : Text
  expiresAt : ℚ
  pid : Option ℕ
  authorityMode : AuthorityMode

/-- The part of a claim that does not name other backends, or itself. -/
structure LockClaim where
  resourceKey : Text
  ownerId : Text
  fencingToken : Text
  leaseEpoch : Text
  authorityMode : AuthorityMode
  acquiredAt : ℚ

inductive LockFailureReason
  | collision
  | splitBrain
  | staleOwner
  | ownerMismatch
  | missingFencingToken
  | durableBackendUnavailable
  | authorityModeMismatch
  | coordinationStateCorrupt
  deriving DecidableEq

inductive LockAcquireResult
  | ok (claim : LockClaim)
  | failed (reason : LockFailureReason) (error : Text)
      (cause : Option (CoordinationErrorCode × CoordinationRetryClass))

def LockAcquireResult.isOk : LockAcquireResult → Bool
  | .ok _ => true
  | .failed .. => false

inductive LockReleaseResult
  | ok
  | failed (reason : LockFailureReason) (error : Text)

def sameIdentity (left right : LeaseObservation) : Prop :=
  left.ownerId = right.ownerId ∧ left.leaseEpoch = right.leaseEpoch
    ∧ left.fencingToken = right.fencingToken ∧ left.authorityMode = right.authorityMode

instance (left right : LeaseObservation) : Decidable (sameIdentity left right) :=
  inferInstanceAs (Decidable (_ ∧ _))

def observationFromDurableLease (lease : DurableSwarmLease) : LeaseObservation where
  ownerId := lease.ownerId
  leaseEpoch := lease.leaseEpoch
  fencingToken := lease.fencingToken
  expiresAt := lease.expiresAt
  pid := some lease.pid
  authorityMode := lease.authorityMode

/-- The database, the map of the process and its clock; and the leases of the claims that were
returned and not released since. -/
structure LockAuthority where
  clock : ℚ
  db : CoordinationDb
  inProcessClaims : Text → Option LeaseObservation
  held : List DurableSwarmLease

namespace LockAuthority

def new (db : CoordinationDb) : LockAuthority := ⟨0, db, fun _ => none, []⟩

variable (s : LockAuthority)

/-- What is made of an error of the database. -/
def failure (error : CoordinationError) : LockAcquireResult :=
  .failed
    (match error.code with
      | .lockBusy => .collision
      | .coordinationStateCorrupt => .coordinationStateCorrupt
      | .databaseAuthorityUnavailable => .durableBackendUnavailable)
    error.message (some (error.code, error.retryClass))

/-- Does the map have another identity for the resource of the lease? -/
def projectedElse (lease : DurableSwarmLease) : Prop :=
  ∃ currentMemory ∈ s.inProcessClaims lease.resource,
    ¬ sameIdentity currentMemory (observationFromDurableLease lease)

instance (lease : DurableSwarmLease) : Decidable (s.projectedElse lease) :=
  match h : s.inProcessClaims lease.resource with
  | none => isFalse fun ⟨_, hmem, _⟩ => by rw [h] at hmem; cases hmem
  | some currentMemory =>
    decidable_of_iff (¬ sameIdentity currentMemory (observationFromDurableLease lease))
      ⟨fun hne => ⟨_, h, hne⟩, fun ⟨_, hmem, hne⟩ => by
        rw [h] at hmem
        exact Option.some.inj hmem ▸ hne⟩

def acquire (resourceKey ownerId : Text) (timeoutMs : Option ℚ) (pid : ℕ) :
    LockAcquireResult × LockAuthority :=
  match SwarmMutexService.acquireLease s.db resourceKey ownerId s.clock (timeoutMs.getD 300000)
      pid with
  | (.error error, db) => (failure error, { s with db })
  | (.ok lease, db) =>
    if s.projectedElse lease then
      -- the new lease is abandoned
      (.failed .splitBrain (text "In-process projection contains a different lease identity.")
          none,
        { s with db := (SwarmMutexService.release db lease.resource lease.ownerId
            lease.leaseEpoch lease.fencingToken).2 })
    else
      (.ok {
          resourceKey
          ownerId
          fencingToken := lease.fencingToken
          leaseEpoch := lease.leaseEpoch
          authorityMode := .broccoli
          acquiredAt := lease.createdAt },
        { s with
          db
          inProcessClaims := Function.update s.inProcessClaims resourceKey
            (some (observationFromDurableLease lease))
          held := s.held ++ [lease] })

/-- Is the observation that of the claim? -/
def matchesClaim (memory : LeaseObservation) (claim : LockClaim) : Prop :=
  memory.ownerId = claim.ownerId ∧ memory.leaseEpoch = claim.leaseEpoch
    ∧ memory.fencingToken = claim.fencingToken ∧ memory.authorityMode = claim.authorityMode

instance (memory : LeaseObservation) (claim : LockClaim) : Decidable (matchesClaim memory claim) :=
  inferInstanceAs (Decidable (_ ∧ _))

/-- The projection of the claim is removed, if the map has it. -/
def cleanup (claim : LockClaim) (db : CoordinationDb) : LockAuthority where
  clock := s.clock
  db := db
  inProcessClaims := Function.update s.inProcessClaims claim.resourceKey
    ((s.inProcessClaims claim.resourceKey).filter fun memory => ¬ matchesClaim memory claim)
  held := s.held.filter fun lease => ¬ (lease.resource = claim.resourceKey
    ∧ matchesClaim (observationFromDurableLease lease) claim)

def release (claim : LockClaim) : LockReleaseResult × LockAuthority :=
  if claim.fencingToken = [] ∨ claim.leaseEpoch = [] then
    (.failed .missingFencingToken (text "Claim missing lease identity."), s)
  else if claim.authorityMode ≠ .broccoli then
    (.failed .authorityModeMismatch (text "Claim authority mode is incompatible."), s)
  else
    match SwarmMutexService.release s.db claim.resourceKey claim.ownerId claim.leaseEpoch
        claim.fencingToken with
    | (.notOwner, _) =>
      (.failed .ownerMismatch (text "BroccoliDB lease identity changed before release."), s)
    | (_, db) => (.ok, s.cleanup claim db)

/-- Why a claim does not hold, if it does not. -/
def verify (claim : LockClaim) : Option LockFailureReason :=
  if claim.authorityMode ≠ .broccoli then some .authorityModeMismatch
  else
    match SwarmMutexService.getLease s.db claim.resourceKey with
    | none => some .staleOwner
    | some lease =>
      if lease.expiresAt < s.clock then some .staleOwner
      else if lease.ownerId ≠ claim.ownerId ∨ lease.leaseEpoch ≠ claim.leaseEpoch
          ∨ lease.fencingToken ≠ claim.fencingToken then some .splitBrain
      else if s.projectedElse lease then some .splitBrain
      else none

inductive Call
  | acquire (resourceKey ownerId : Text) (timeoutMs : Option ℚ) (pid : ℕ)
  | release (claim : LockClaim)
  /-- the clock is read next as `now` -/
  | clock (now : ℚ)

def step (s : LockAuthority) : Call → LockAuthority
  | .acquire resourceKey ownerId timeoutMs pid => (s.acquire resourceKey ownerId timeoutMs pid).2
  | .release claim => (s.release claim).2
  | .clock now => { s with clock := now }

end LockAuthority

/-! ## Tables whose counters can be read -/

/-- All counters are numerals, as `acquireLease` writes them. -/
structure CoordinationDb.WellFormed (db : CoordinationDb) : Prop where
  generation : ∀ key, ∀ generation ∈ db.swarmLockGenerations key, ∃ epoch token,
    Numbered generation.highestLeaseEpoch generation.highestFencingToken epoch token
  row : ∀ key, ∀ row ∈ db.swarmLocks key,
    (∃ epoch, bigInt? (normalizeLease key row).leaseEpoch = some epoch)
      ∧ ∃ token, bigInt? (normalizeLease key row).fencingToken = some token

namespace SwarmMutexService

variable {db : CoordinationDb} {key ownerId : Text} {now timeoutMs : ℚ} {pid : ℕ}

theorem parseCounter_of_numeral {raw : Text} {n : ℕ} (h : numeral? 10 raw = some n)
    (fieldName : String) : parseCounter raw fieldName = .ok n := by
  rw [parseCounter, h]

theorem previousCounter_ok {existing : Option DurableSwarmLease}
    {counter : DurableSwarmLease → Text}
    (h : ∀ lease ∈ existing, ∃ n, bigInt? (counter lease) = some n) :
    ∃ n, previousCounter existing counter = .ok n := by
  cases existing with
  | none => exact ⟨0, rfl⟩
  | some lease =>
    obtain ⟨n, hn⟩ := h lease rfl
    exact ⟨n, by rw [previousCounter, hn]⟩

theorem numbered_zero : Numbered (text "0") (text "0") 0 0 := by
  constructor <;> decide

/-- Where no lease is left that is not expired, an acquisition succeeds. -/
theorem acquireLease_free (hdb : db.WellFormed) (hfree : ∀ row ∈ db.swarmLocks key,
    row.expiresAt ≤ now) (ownerId : Text) (timeoutMs : ℚ) (pid : ℕ) :
    ∃ lease db', acquireLease db key ownerId now timeoutMs pid = (.ok lease, db') := by
  have hnone : ((db.swarmLocks key).map (normalizeLease key)).filter
      (fun lease => lease.expiresAt > now) = none := by
    rw [filter_eq_none_iff]
    intro lease hlease
    obtain ⟨row, hrow, rfl⟩ := mem_map.mp hlease
    rw [decide_eq_true_eq]
    exact not_lt_of_ge (hfree row hrow)
  obtain ⟨epoch, token, hepoch, htoken⟩ : ∃ epoch token,
      Numbered ((db.swarmLockGenerations key).getD ⟨text "0", text "0"⟩).highestLeaseEpoch
        ((db.swarmLockGenerations key).getD ⟨text "0", text "0"⟩).highestFencingToken epoch
        token := by
    cases hgeneration : db.swarmLockGenerations key with
    | none => exact ⟨0, 0, numbered_zero⟩
    | some generation => exact hdb.generation key generation hgeneration
  obtain ⟨previousEpoch, hpreviousEpoch⟩ := @previousCounter_ok
    ((db.swarmLocks key).map (normalizeLease key)) DurableSwarmLease.leaseEpoch fun lease h => by
      obtain ⟨row, hrow, rfl⟩ := mem_map.mp h
      exact (hdb.row key row hrow).1
  obtain ⟨previousToken, hpreviousToken⟩ := @previousCounter_ok
    ((db.swarmLocks key).map (normalizeLease key)) DurableSwarmLease.fencingToken fun lease h => by
      obtain ⟨row, hrow, rfl⟩ := mem_map.mp h
      exact (hdb.row key row hrow).2
  rw [acquireLease]
  dsimp only
  rw [hnone]
  dsimp only
  rw [nextCounters, parseCounter_of_numeral hepoch, parseCounter_of_numeral htoken, hpreviousEpoch,
    hpreviousToken]
  exact ⟨_, _, rfl⟩

theorem wellFormed_acquireLease (hdb : db.WellFormed) :
    (acquireLease db key ownerId now timeoutMs pid).2.WellFormed := by
  cases hresult : acquireLease db key ownerId now timeoutMs pid with
  | mk result db' =>
    cases result with
    | error error =>
      obtain ⟨hlocks, -, hgenerations⟩ := acquireLease_error hresult
      refine ⟨fun other generation hgeneration => ?_, fun other row hrow => ?_⟩
      · rcases hgenerations other generation hgeneration with hold | rfl
        · exact hdb.generation other generation hold
        · exact ⟨0, 0, numbered_zero⟩
      · exact hdb.row other row (hlocks ▸ hrow)
    | ok lease =>
      obtain ⟨-, epoch, token, -, -, rfl⟩ := acquireLease_ok hresult
      refine ⟨fun other generation hgeneration => ?_, fun other row hrow => ?_⟩
      · by_cases hother : other = key
        · subst hother
          dsimp only at hgeneration
          rw [update_self] at hgeneration
          obtain rfl := Option.some.inj hgeneration
          exact ⟨epoch, token, numeral?_decimal epoch, numeral?_decimal token⟩
        · exact hdb.generation other generation
            ((update_of_ne hother ..).symm.trans hgeneration)
      · by_cases hother : other = key
        · subst hother
          dsimp only at hrow
          rw [update_self] at hrow
          obtain rfl := Option.some.inj hrow
          exact ⟨⟨epoch, bigInt?_decimal epoch⟩, token, bigInt?_decimal token⟩
        · exact hdb.row other row ((update_of_ne hother ..).symm.trans hrow)

theorem wellFormed_release (hdb : db.WellFormed) (leaseEpoch fencingToken : Text) :
    (release db key ownerId leaseEpoch fencingToken).2.WellFormed :=
  ⟨fun other generation h => hdb.generation other generation (by rwa [generations_release] at h),
    fun other row h => hdb.row other row (locks_release h)⟩

end SwarmMutexService

/-! ## When an acquisition succeeds -/

namespace LockAuthority

open SwarmMutexService

/-- The token is at most that of the generation of the resource. -/
def Issued (db : CoordinationDb) (key fencingToken : Text) : Prop :=
  ∃ generation ∈ db.swarmLockGenerations key, ∃ epoch token token₀,
    Numbered generation.highestLeaseEpoch generation.highestFencingToken epoch token
      ∧ numeral? 10 fencingToken = some token₀ ∧ token₀ ≤ token

/-- The tables can be read, the map has only tokens that were issued, and the projections of all
claims that are held. -/
structure Consistent (s : LockAuthority) : Prop where
  db : s.db.WellFormed
  memory : ∀ key, ∀ memory ∈ s.inProcessClaims key, Issued s.db key memory.fencingToken
  held : ∀ lease ∈ s.held,
    s.inProcessClaims lease.resource = some (observationFromDurableLease lease)

variable {s : LockAuthority} {key ownerId : Text} {timeoutMs : Option ℚ} {pid : ℕ}

variable {db : CoordinationDb}

theorem consistent_new (hdb : db.WellFormed) : (new db).Consistent :=
  ⟨hdb, fun _ _ h => absurd h (by simp [new]), fun _ h => absurd h List.not_mem_nil⟩

variable {lease : DurableSwarmLease}

/-- The token of a new lease is greater than all that the map has for its resource. -/
theorem Consistent.projectedElse_iff (h : s.Consistent) {now timeout : ℚ}
    (hok : acquireLease s.db key ownerId now timeout pid = (.ok lease, db)) :
    s.projectedElse lease ↔ s.inProcessClaims key ≠ none := by
  obtain ⟨-, epoch, token, rfl, hgreater, -⟩ := acquireLease_ok hok
  constructor
  · rintro ⟨memory, hmemory, -⟩ hnone
    exact absurd hmemory (by simp [hnone])
  · intro hne
    obtain ⟨memory, hmemory⟩ := ne_none_iff_exists'.mp hne
    refine ⟨memory, hmemory, fun hsame => ?_⟩
    obtain ⟨generation, hgeneration, epoch', token', token₀, hnumbered, htoken₀, hle⟩ :=
      h.memory key memory hmemory
    obtain ⟨epoch₁, token₁, hnumbered', -, hlt⟩ := hgreater generation hgeneration
    have heq := Option.some.inj (hnumbered.2.symm.trans hnumbered'.2)
    have hsameToken : memory.fencingToken = decimal token := hsame.2.2.1
    rw [hsameToken, numeral?_decimal] at htoken₀
    have heq' := Option.some.inj htoken₀
    omega

/-- What was issued stays issued, and the token of a new lease is. -/
theorem issued_acquireLease {db db' : CoordinationDb} {now timeout : ℚ}
    (hok : acquireLease db key ownerId now timeout pid = (.ok lease, db')) :
    Issued db' key lease.fencingToken
      ∧ ∀ other token, Issued db other token → Issued db' other token := by
  obtain ⟨-, epoch, token, rfl, hgreater, rfl⟩ := acquireLease_ok hok
  refine ⟨⟨_, update_self .., epoch, token, token,
    ⟨numeral?_decimal epoch, numeral?_decimal token⟩, numeral?_decimal token, Nat.le_refl _⟩, ?_⟩
  rintro other fencingToken ⟨generation, hgeneration, epoch', token', token₀, hnumbered, htoken₀,
    hle⟩
  by_cases hother : other = key
  · subst hother
    obtain ⟨epoch₁, token₁, hnumbered', -, hlt⟩ := hgreater generation hgeneration
    have heq := Option.some.inj (hnumbered.2.symm.trans hnumbered'.2)
    exact ⟨_, update_self .., epoch, token, token₀,
      ⟨numeral?_decimal epoch, numeral?_decimal token⟩, htoken₀, by omega⟩
  · exact ⟨generation, (update_of_ne hother ..).trans hgeneration, epoch', token', token₀,
      hnumbered, htoken₀, hle⟩

theorem Issued.of_generations {db db' : CoordinationDb} {fencingToken : Text}
    (h : Issued db key fencingToken)
    (hkeep : ∀ generation ∈ db.swarmLockGenerations key,
      db'.swarmLockGenerations key = some generation) : Issued db' key fencingToken := by
  obtain ⟨generation, hgeneration, hrest⟩ := h
  exact ⟨generation, hkeep generation hgeneration, hrest⟩

theorem Consistent.acquire (h : s.Consistent) :
    (s.acquire key ownerId timeoutMs pid).2.Consistent := by
  have hdb := @wellFormed_acquireLease s.db key ownerId s.clock (timeoutMs.getD 300000) pid h.db
  rw [LockAuthority.acquire]
  split
  · next error db' herror =>
    rw [herror] at hdb
    obtain ⟨-, hkeep, -⟩ := acquireLease_error herror
    exact ⟨hdb, fun other memory hmemory =>
      (h.memory other memory hmemory).of_generations (hkeep other), h.held⟩
  · next lease db' hok =>
    rw [hok] at hdb
    obtain ⟨hissued, hkeep⟩ := issued_acquireLease hok
    have hprojected := h.projectedElse_iff hok
    split
    · refine ⟨wellFormed_release hdb _ _, fun other memory hmemory => ?_, h.held⟩
      have hstill := hkeep other _ (h.memory other memory hmemory)
      refine hstill.of_generations fun _ hgeneration => ?_
      dsimp only
      rwa [generations_release]
    · next hnone =>
      obtain ⟨-, epoch, token, rfl, -, -⟩ := acquireLease_ok hok
      rw [hprojected, not_not] at hnone
      refine ⟨hdb, fun other memory hmemory => ?_, fun lease hlease => ?_⟩
      · by_cases hother : other = key
        · subst hother
          dsimp only at hmemory
          rw [update_self] at hmemory
          exact Option.some.inj hmemory ▸ hissued
        · dsimp only at hmemory
          rw [update_of_ne hother] at hmemory
          exact hkeep other _ (h.memory other memory hmemory)
      · rcases List.mem_append.mp hlease with hlease | hlease
        · have hheld := h.held lease hlease
          have hother : lease.resource ≠ key := fun heq => by
            rw [heq, hnone] at hheld
            cases hheld
          exact (update_of_ne hother ..).trans hheld
        · obtain rfl := List.mem_singleton.mp hlease
          exact update_self ..

theorem Consistent.cleanup (h : s.Consistent) (claim : LockClaim) (hdb : db.WellFormed)
    (hkeep : db.swarmLockGenerations = s.db.swarmLockGenerations) :
    (s.cleanup claim db).Consistent := by
  refine ⟨hdb, fun other memory hmemory => ?_, fun lease hlease => ?_⟩
  · have hold : s.inProcessClaims other = some memory := by
      by_cases hother : other = claim.resourceKey
      · subst hother
        rw [LockAuthority.cleanup] at hmemory
        dsimp only at hmemory
        rw [update_self] at hmemory
        exact (filter_eq_some_iff.mp hmemory).1
      · exact (update_of_ne hother ..).symm.trans hmemory
    refine (h.memory other memory hold).of_generations fun generation hgeneration => ?_
    show db.swarmLockGenerations other = _
    rw [hkeep]
    exact hgeneration
  · obtain ⟨hlease, hne⟩ := List.mem_filter.mp hlease
    rw [decide_eq_true_eq] at hne
    have hheld := h.held lease hlease
    rw [LockAuthority.cleanup]
    dsimp only
    by_cases hother : lease.resource = claim.resourceKey
    · rw [hother, update_self, ← hother, hheld, filter_some, if_pos]
      exact decide_eq_true fun hmatches => hne ⟨hother, hmatches⟩
    · rw [update_of_ne hother, hheld]

theorem Consistent.release (h : s.Consistent) (claim : LockClaim) :
    (s.release claim).2.Consistent := by
  have hdb := @wellFormed_release s.db claim.resourceKey claim.ownerId h.db claim.leaseEpoch
    claim.fencingToken
  have hkeep := generations_release s.db claim.resourceKey claim.ownerId claim.leaseEpoch
    claim.fencingToken
  rw [LockAuthority.release]
  split
  · exact h
  · split
    · exact h
    · split
      · exact h
      · next hresult =>
        rw [hresult] at hdb hkeep
        exact h.cleanup claim hdb hkeep

theorem Consistent.step (h : s.Consistent) (call : Call) : (s.step call).Consistent := by
  cases call with
  | acquire resourceKey ownerId timeoutMs pid => exact h.acquire
  | release claim => exact h.release claim
  | clock now => exact ⟨h.db, h.memory, h.held⟩

theorem resource_of_getLease (h : getLease db key = some lease) : lease.resource = key := by
  obtain ⟨row, -, rfl⟩ := map_eq_some_iff.mp h
  rfl

theorem Consistent.run (h : s.Consistent) (calls : List Call) :
    (Run.run LockAuthority.step s calls).Consistent :=
  Run.run_invariant (fun _ call h => h.step call) h calls

/-- In every state that calls lead to: where the database has no lease of a resource that is not
expired, an acquisition succeeds just if the map of the process has no projection of the resource;
and while a claim is not released, no other claim of its resource is valid. -/
theorem acquire_ok_iff {db : CoordinationDb} (hdb : db.WellFormed) (calls : List Call) :
    let s := Run.run step (new db) calls
    (∀ key ownerId timeoutMs pid, (∀ row ∈ s.db.swarmLocks key, row.expiresAt ≤ s.clock) →
      ((s.acquire key ownerId timeoutMs pid).1.isOk ↔ s.inProcessClaims key = none))
    ∧ ∀ lease ∈ s.held, ∀ claim : LockClaim, claim.resourceKey = lease.resource →
      s.verify claim = none → claim.ownerId = lease.ownerId
        ∧ claim.leaseEpoch = lease.leaseEpoch ∧ claim.fencingToken = lease.fencingToken := by
  intro s
  have h : s.Consistent := (consistent_new hdb).run calls
  constructor
  · intro key ownerId timeoutMs pid hfree
    obtain ⟨lease, db', hok⟩ := acquireLease_free h.db hfree ownerId (timeoutMs.getD 300000) pid
    have hprojected := h.projectedElse_iff hok
    rw [acquire, hok]
    dsimp only
    by_cases hnone : s.inProcessClaims key = none
    · rw [if_neg (mt hprojected.mp (not_not.mpr hnone))]
      exact ⟨fun _ => hnone, fun _ => rfl⟩
    · rw [if_pos (hprojected.mpr hnone)]
      exact ⟨fun hfailed => absurd hfailed Bool.false_ne_true, fun h => absurd h hnone⟩
  · intro lease hlease claim hresource hvalid
    rw [verify] at hvalid
    split at hvalid
    · cases hvalid
    · split at hvalid
      · cases hvalid
      · next row hrow =>
        split at hvalid
        · cases hvalid
        · split at hvalid
          · cases hvalid
          · next hsame =>
            split at hvalid
            · cases hvalid
            · next hprojected =>
              rw [not_or, not_or, not_not, not_not, not_not] at hsame
              have hmemory : s.inProcessClaims row.resource
                  = some (observationFromDurableLease lease) := by
                rw [resource_of_getLease hrow, hresource]
                exact h.held lease hlease
              have hidentity : sameIdentity (observationFromDurableLease lease)
                  (observationFromDurableLease row) := by
                by_contra hne
                exact hprojected ⟨_, hmemory, hne⟩
              obtain ⟨howner, hepoch, htoken, -⟩ := hidentity
              exact ⟨hsame.1.symm.trans howner.symm, hsame.2.1.symm.trans hepoch.symm,
                hsame.2.2.symm.trans htoken.symm⟩

/-- On empty tables, the owner of an expired lease releases it, and the next one gets it. -/
theorem acquire_after_release :
    let db : CoordinationDb := ⟨fun _ => none, fun _ => none⟩
    let claim : LockClaim := ⟨text "r", text "a", text "1", text "1", .broccoli, 0⟩
    let s := Run.run step (new db)
      [.acquire (text "r") (text "a") (some 1000) 7, .clock 2000, .release claim]
    (s.acquire (text "r") (text "b") none 8).1.isOk := by
  intro db claim s
  have hdb : db.WellFormed := ⟨fun _ _ h => absurd h (by simp [db]), fun _ _ h =>
    absurd h (by simp [db])⟩
  have hfree : s.db.swarmLocks (text "r") = none := by decide +kernel
  have hmap : s.inProcessClaims (text "r") = none := by decide +kernel
  refine ((acquire_ok_iff hdb _).1 (text "r") (text "b") none 8 fun row hrow => ?_).mpr hmap
  exact absurd (hfree.symm.trans hrow) (by simp)

/-- An owner lets its lease expire; from then on nobody gets the resource, however often they
ask. -/
theorem expired_lease_blocks :
    let db : CoordinationDb := ⟨fun _ => none, fun _ => none⟩
    let retry : Call := .acquire (text "r") (text "b") none 8
    ∀ retries ∈ [[], [retry], [retry, .clock 9000, retry]],
      let s := Run.run step (new db)
        ([.acquire (text "r") (text "a") (some 1000) 7, .clock 2000] ++ retries)
      (∀ row ∈ s.db.swarmLocks (text "r"), row.expiresAt ≤ s.clock)
        ∧ (s.acquire (text "r") (text "b") none 8).1.isOk = false := by
  decide +kernel

end LockAuthority

end Lumi.Locks
