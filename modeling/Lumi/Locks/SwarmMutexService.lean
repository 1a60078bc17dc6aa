import Mathlib.Algebra.Order.Ring.Unbundled.Rat
import Lumi.Lib.Decimal
import Lumi.Lib.Run

/-!
# Leases with fencing tokens

A lease is a row of `swarm_locks`, and the counters that number leases are a row of
`swarm_lock_generations`, which no call deletes.  Each call is one step on the two tables: the
database runs its statements one after the other and takes no notice of transaction markers, so
that what a failing call has written stays.

The clock of every call reads anything, also less than before.
-/

namespace Lumi.Locks

open Js List Function Option

inductive AuthorityMode
  | broccoli
  | localTest
  deriving DecidableEq

/-- A row of `swarm_locks`, without its key. -/
structure LockRow where
  ownerId : Text
  expiresAt : ℚ
  createdAt : ℚ
  leaseEpoch : Option Text
  fencingToken : Option Text
  protocolVersion : Option ℕ
  authorityMode : Option AuthorityMode
  pid : Option ℕ
  deriving DecidableEq

/-- A row of `swarm_lock_generations`, without its key. -/
structure GenerationRow where
  highestLeaseEpoch : Text
  highestFencingToken : Text
  deriving DecidableEq

structure CoordinationDb where
  swarmLocks : Text → Option LockRow
  swarmLockGenerations : Text → Option GenerationRow

structure DurableSwarmLease where
  resource : Text
  ownerId : Text
  expiresAt : ℚ
  createdAt : ℚ
  leaseEpoch : Text
  fencingToken : Text
  protocolVersion : ℕ
  authorityMode : AuthorityMode
  pid : ℕ
  deriving DecidableEq

inductive CoordinationErrorCode
  | lockBusy
  | coordinationStateCorrupt
  | databaseAuthorityUnavailable
  deriving DecidableEq

inductive CoordinationRetryClass
  | retry
  | failClosed
  deriving DecidableEq

structure CoordinationError where
  code : CoordinationErrorCode
  message : Text
  retryClass : CoordinationRetryClass
  /-- the owner of the lease, and when that expires -/
  details : Option (Text × ℚ) := none
  deriving DecidableEq

def SWARM_LOCK_PROTOCOL_VERSION : ℕ := 2

def asDatabaseUnavailable (operation : String) : CoordinationError where
  code := .databaseAuthorityUnavailable
  message := text "BroccoliDB authority unavailable during " ++ text operation ++ text "."
  retryClass := .retry

def parseCounter (raw : Text) (fieldName : String) : Except CoordinationError ℕ :=
  match numeral? 10 raw with
  | some n => .ok n
  | none => .error {
      code := .coordinationStateCorrupt
      message := text "Corrupt counter field '" ++ text fieldName
        ++ text "': expected decimal string."
      retryClass := .failClosed }

def normalizeLease (resource : Text) (row : LockRow) : DurableSwarmLease where
  resource := resource
  ownerId := row.ownerId
  expiresAt := row.expiresAt
  createdAt := row.createdAt
  leaseEpoch := row.leaseEpoch.getD (text "0")
  fencingToken := row.fencingToken.getD (text "0")
  protocolVersion := row.protocolVersion.getD 1
  authorityMode := row.authorityMode.getD .broccoli
  pid := row.pid.getD 0

/-- A counter of the lease before, or 0; `BigInt` throws a `SyntaxError`. -/
def previousCounter (existing : Option DurableSwarmLease) (counter : DurableSwarmLease → Text) :
    Except CoordinationError ℤ :=
  match existing with
  | none => .ok 0
  | some lease =>
    match bigInt? (counter lease) with
    | some n => .ok n
    | none => .error (asDatabaseUnavailable "lease acquisition")

/-- The number after the greater of two counters. -/
def nextCounter (current : ℕ) (previous : ℤ) : ℕ := (max (current : ℤ) previous + 1).toNat

/-- The epoch and the token of the next lease. -/
def nextCounters (generation : GenerationRow) (existing : Option DurableSwarmLease) :
    Except CoordinationError (ℕ × ℕ) := do
  let currentEpoch ← parseCounter generation.highestLeaseEpoch "highestLeaseEpoch"
  let currentToken ← parseCounter generation.highestFencingToken "highestFencingToken"
  let previousEpoch ← previousCounter existing DurableSwarmLease.leaseEpoch
  let previousToken ← previousCounter existing DurableSwarmLease.fencingToken
  return (nextCounter currentEpoch previousEpoch, nextCounter currentToken previousToken)

namespace SwarmMutexService

variable (db : CoordinationDb)

def lockBusy (existing : DurableSwarmLease) : CoordinationError where
  code := .lockBusy
  message := text "Resource '" ++ existing.resource ++ text "' is already claimed by '"
    ++ existing.ownerId ++ text "'."
  retryClass := .retry
  details := some (existing.ownerId, existing.expiresAt)

def acquireLease (key ownerId : Text) (now timeoutMs : ℚ) (pid : ℕ) :
    Except CoordinationError DurableSwarmLease × CoordinationDb :=
  let existing := (db.swarmLocks key).map (normalizeLease key)
  match existing.filter fun lease => lease.expiresAt > now with
  | some lease => (.error (lockBusy lease), db)
  | none =>
    let generation := (db.swarmLockGenerations key).getD ⟨text "0", text "0"⟩
    let generations := fun generation =>
      Function.update db.swarmLockGenerations key (some generation)
    match nextCounters generation existing with
    | .error error => (.error error, { db with swarmLockGenerations := generations generation })
    | .ok (leaseEpoch, fencingToken) =>
      let lease : DurableSwarmLease := {
        resource := key
        ownerId
        expiresAt := now + timeoutMs
        createdAt := now
        leaseEpoch := decimal leaseEpoch
        fencingToken := decimal fencingToken
        protocolVersion := SWARM_LOCK_PROTOCOL_VERSION
        authorityMode := .broccoli
        pid }
      (.ok lease, {
        swarmLocks := Function.update db.swarmLocks key (some {
          ownerId
          expiresAt := lease.expiresAt
          createdAt := now
          leaseEpoch := some lease.leaseEpoch
          fencingToken := some lease.fencingToken
          protocolVersion := some SWARM_LOCK_PROTOCOL_VERSION
          authorityMode := some .broccoli
          pid := some pid })
        swarmLockGenerations := generations ⟨lease.leaseEpoch, lease.fencingToken⟩ })

def getLease (key : Text) : Option DurableSwarmLease :=
  (db.swarmLocks key).map (normalizeLease key)

inductive ReleaseStatus
  | released
  | notOwner
  | alreadyGone
  deriving DecidableEq

/-- The row is deleted if all of this identity is in it. -/
def release (key ownerId leaseEpoch fencingToken : Text) : ReleaseStatus × CoordinationDb :=
  match db.swarmLocks key with
  | none => (.alreadyGone, db)
  | some row =>
    if row.ownerId = ownerId ∧ row.leaseEpoch = some leaseEpoch
        ∧ row.fencingToken = some fencingToken ∧ row.authorityMode = some .broccoli then
      (.released, { db with swarmLocks := Function.update db.swarmLocks key none })
    else (.notOwner, db)

def pruneStaleLocks (now : ℚ) : CoordinationDb where
  swarmLocks key := (db.swarmLocks key).filter fun row =>
    ¬ (row.expiresAt < now ∧ row.authorityMode = some .broccoli)
  swarmLockGenerations := db.swarmLockGenerations

end SwarmMutexService

/-! ## Interleaved calls -/

inductive MutexCall
  | acquireLease (key ownerId : Text) (now timeoutMs : ℚ) (pid : ℕ)
  | release (key ownerId leaseEpoch fencingToken : Text)
  | pruneStaleLocks (now : ℚ)

/-- The tables, and the leases that were returned so far. -/
structure MutexState where
  db : CoordinationDb
  granted : List DurableSwarmLease

namespace MutexState

open SwarmMutexService

def step (s : MutexState) : MutexCall → MutexState
  | .acquireLease key ownerId now timeoutMs pid =>
    match SwarmMutexService.acquireLease s.db key ownerId now timeoutMs pid with
    | (.ok lease, db) => ⟨db, s.granted ++ [lease]⟩
    | (.error _, db) => ⟨db, s.granted⟩
  | .release key ownerId leaseEpoch fencingToken =>
    { s with db := (SwarmMutexService.release s.db key ownerId leaseEpoch fencingToken).2 }
  | .pruneStaleLocks now => { s with db := SwarmMutexService.pruneStaleLocks s.db now }

/-- The leases of a resource, in the order in which they were returned. -/
def grantedFor (s : MutexState) (key : Text) : List DurableSwarmLease :=
  s.granted.filter (·.resource = key)

end MutexState

/-- The number of an identity. -/
def Numbered (leaseEpoch fencingToken : Text) (epoch token : ℕ) : Prop :=
  numeral? 10 leaseEpoch = some epoch ∧ numeral? 10 fencingToken = some token

/-- Both counters of the second lease are greater. -/
def Outnumbers (earlier later : DurableSwarmLease) : Prop :=
  ∃ epoch token epoch' token', Numbered earlier.leaseEpoch earlier.fencingToken epoch token
    ∧ Numbered later.leaseEpoch later.fencingToken epoch' token' ∧ epoch < epoch' ∧ token < token'

/-- The lease numbered last has the counters of its generation, and its row, while it has one. -/
structure Fenced (s : MutexState) : Prop where
  generation : ∀ key, ∀ last ∈ (s.grantedFor key).getLast?,
    s.db.swarmLockGenerations key = some ⟨last.leaseEpoch, last.fencingToken⟩
  row : ∀ key, ∀ last ∈ (s.grantedFor key).getLast?, ∀ row ∈ s.db.swarmLocks key,
    row.leaseEpoch = some last.leaseEpoch ∧ row.fencingToken = some last.fencingToken
  numbered : ∀ lease ∈ s.granted, ∃ epoch token,
    Numbered lease.leaseEpoch lease.fencingToken epoch token
  increasing : ∀ key, (s.grantedFor key).Pairwise Outnumbers

namespace SwarmMutexService

variable {db : CoordinationDb} {key ownerId : Text} {now timeoutMs : ℚ} {pid : ℕ}

theorem lt_nextCounter (current : ℕ) (previous : ℤ) : current < nextCounter current previous := by
  rw [nextCounter]
  omega

theorem parseCounter_eq_ok {raw : Text} {fieldName : String} {n : ℕ}
    (h : parseCounter raw fieldName = .ok n) : numeral? 10 raw = some n := by
  rw [parseCounter] at h
  split at h
  · next m hm => exact hm.trans (congrArg some (Except.ok.inj h))
  · cases h

/-- The next counters are greater than those of the generation. -/
theorem nextCounters_eq_ok {generation : GenerationRow} {existing : Option DurableSwarmLease}
    {epoch token : ℕ} (h : nextCounters generation existing = .ok (epoch, token)) :
    ∃ epoch₀ token₀, Numbered generation.highestLeaseEpoch generation.highestFencingToken epoch₀
      token₀ ∧ epoch₀ < epoch ∧ token₀ < token := by
  rw [nextCounters] at h
  cases hepoch : parseCounter generation.highestLeaseEpoch "highestLeaseEpoch" with
  | error error => rw [hepoch] at h; cases h
  | ok epoch₀ =>
    cases htoken : parseCounter generation.highestFencingToken "highestFencingToken" with
    | error error => rw [hepoch, htoken] at h; cases h
    | ok token₀ =>
      cases hprevious : previousCounter existing DurableSwarmLease.leaseEpoch with
      | error error => rw [hepoch, htoken, hprevious] at h; cases h
      | ok previousEpoch =>
        cases hprevious' : previousCounter existing DurableSwarmLease.fencingToken with
        | error error => rw [hepoch, htoken, hprevious, hprevious'] at h; cases h
        | ok previousToken =>
          rw [hepoch, htoken, hprevious, hprevious'] at h
          obtain ⟨rfl, rfl⟩ := Prod.mk.inj (Except.ok.inj h)
          exact ⟨epoch₀, token₀, ⟨parseCounter_eq_ok hepoch, parseCounter_eq_ok htoken⟩,
            lt_nextCounter _ _, lt_nextCounter _ _⟩

/-- What an acquisition that fails does. -/
theorem acquireLease_error {error : CoordinationError} {db' : CoordinationDb}
    (h : acquireLease db key ownerId now timeoutMs pid = (.error error, db')) :
    db'.swarmLocks = db.swarmLocks
      ∧ (∀ other, ∀ generation ∈ db.swarmLockGenerations other,
        db'.swarmLockGenerations other = some generation)
      ∧ ∀ other, ∀ generation ∈ db'.swarmLockGenerations other,
        db.swarmLockGenerations other = some generation
          ∨ generation = ⟨text "0", text "0"⟩ := by
  rw [acquireLease] at h
  dsimp only at h
  split at h
  · obtain rfl := (Prod.mk.inj h).2
    exact ⟨rfl, fun _ _ hgeneration => hgeneration, fun _ _ hgeneration => .inl hgeneration⟩
  · split at h
    · obtain rfl := (Prod.mk.inj h).2
      refine ⟨rfl, fun other generation hgeneration => ?_, fun other generation hgeneration => ?_⟩
      · by_cases hother : other = key
        · subst hother
          rw [mem_def] at hgeneration
          dsimp only
          rw [update_self, hgeneration, getD_some]
        · exact (update_of_ne hother ..).trans hgeneration
      · by_cases hother : other = key
        · subst hother
          dsimp only at hgeneration
          rw [update_self] at hgeneration
          obtain rfl := Option.some.inj hgeneration
          cases hold : db.swarmLockGenerations other with
          | none => exact .inr rfl
          | some generation => exact .inl rfl
        · exact .inl ((update_of_ne hother ..).symm.trans hgeneration)
    · cases (Prod.mk.inj h).1

/-- What an acquisition that succeeds does. -/
theorem acquireLease_ok {lease : DurableSwarmLease} {db' : CoordinationDb}
    (h : acquireLease db key ownerId now timeoutMs pid = (.ok lease, db')) :
    (∀ row ∈ db.swarmLocks key, row.expiresAt ≤ now) ∧
    ∃ epoch token, lease = ⟨key, ownerId, now + timeoutMs, now, decimal epoch, decimal token,
          SWARM_LOCK_PROTOCOL_VERSION, .broccoli, pid⟩
      ∧ (∀ generation ∈ db.swarmLockGenerations key, ∃ epoch₀ token₀,
          Numbered generation.highestLeaseEpoch generation.highestFencingToken epoch₀ token₀
            ∧ epoch₀ < epoch ∧ token₀ < token)
      ∧ db' = ⟨Function.update db.swarmLocks key (some ⟨ownerId, now + timeoutMs, now,
          some (decimal epoch), some (decimal token), some SWARM_LOCK_PROTOCOL_VERSION,
          some .broccoli, some pid⟩),
        Function.update db.swarmLockGenerations key
          (some ⟨decimal epoch, decimal token⟩)⟩ := by
  rw [acquireLease] at h
  dsimp only at h
  split at h
  · cases (Prod.mk.inj h).1
  · next hfree =>
    split at h
    · cases (Prod.mk.inj h).1
    · next epoch token hcounters =>
      obtain ⟨hlease, rfl⟩ := Prod.mk.inj h
      obtain rfl := Except.ok.inj hlease
      refine ⟨fun row hrow => ?_, epoch, token, rfl, fun generation hgeneration => ?_, rfl⟩
      · rw [filter_eq_none_iff] at hfree
        have hlease := hfree (normalizeLease key row) (Option.mem_map_of_mem _ hrow)
        exact le_of_not_gt fun hlt => hlease (decide_eq_true hlt)
      · rw [mem_def.mp hgeneration, getD_some] at hcounters
        exact nextCounters_eq_ok hcounters

theorem acquireLease_busy {row : LockRow} (hrow : db.swarmLocks key = some row)
    (hlive : now < row.expiresAt) : acquireLease db key ownerId now timeoutMs pid
      = (.error (lockBusy (normalizeLease key row)), db) := by
  rw [acquireLease, hrow]
  dsimp only
  have hgt : (normalizeLease key row).expiresAt > now := hlive
  rw [map_some, filter_some, if_pos (decide_eq_true hgt)]

theorem release_of_ne {leaseEpoch fencingToken : Text} {row : LockRow}
    (hrow : db.swarmLocks key = some row)
    (hne : row.leaseEpoch = some leaseEpoch → row.fencingToken ≠ some fencingToken) :
    release db key ownerId leaseEpoch fencingToken = (.notOwner, db) := by
  rw [release, hrow]
  dsimp only
  rw [if_neg fun h => hne h.2.1 h.2.2.1]

theorem generations_release (db : CoordinationDb) (key ownerId leaseEpoch fencingToken : Text) :
    (release db key ownerId leaseEpoch fencingToken).2.swarmLockGenerations
      = db.swarmLockGenerations := by
  rw [release]
  split
  · rfl
  · split <;> rfl

/-- A release leaves no row that was not there. -/
theorem locks_release {leaseEpoch fencingToken other : Text} {row : LockRow}
    (h : (release db key ownerId leaseEpoch fencingToken).2.swarmLocks other = some row) :
    db.swarmLocks other = some row := by
  rw [release] at h
  split at h
  · exact h
  · split at h
    · by_cases hother : other = key
      · subst hother
        exact absurd h (by simp)
      · exact (update_of_ne hother ..).symm.trans h
    · exact h

end SwarmMutexService

namespace MutexState

variable {s : MutexState} {key : Text}

theorem grantedFor_concat (s : MutexState) (db : CoordinationDb) (lease : DurableSwarmLease) :
    (⟨db, s.granted ++ [lease]⟩ : MutexState).grantedFor lease.resource
      = s.grantedFor lease.resource ++ [lease] := by
  rw [grantedFor, filter_append, filter_cons_of_pos (by simp), filter_nil,
    ← grantedFor]

theorem grantedFor_concat_of_ne (s : MutexState) (db : CoordinationDb) {lease : DurableSwarmLease}
    (h : lease.resource ≠ key) :
    (⟨db, s.granted ++ [lease]⟩ : MutexState).grantedFor key = s.grantedFor key := by
  rw [grantedFor, filter_append, filter_cons_of_neg (by simpa using h),
    filter_nil, append_nil, ← grantedFor]

end MutexState

open SwarmMutexService MutexState

variable {s : MutexState} {key : Text}

theorem fenced_new (db : CoordinationDb) : Fenced ⟨db, []⟩ :=
  ⟨fun _ _ h => absurd h (by simp [grantedFor]), fun _ _ h => absurd h (by simp [grantedFor]),
    fun _ h => absurd h not_mem_nil, fun _ => List.Pairwise.nil⟩

/-- Tables with the same generations and no other rows. -/
theorem Fenced.of_db (h : Fenced s) {db : CoordinationDb}
    (hgenerations : ∀ other, ∀ generation ∈ s.db.swarmLockGenerations other,
      db.swarmLockGenerations other = some generation)
    (hlocks : ∀ key, ∀ row ∈ db.swarmLocks key, s.db.swarmLocks key = some row) :
    Fenced ⟨db, s.granted⟩ :=
  ⟨fun key last hlast => hgenerations key _ (h.generation key last hlast),
    fun key last hlast row hrow => h.row key last hlast row (hlocks key row hrow),
    h.numbered, h.increasing⟩

/-- The counters of what was granted before are at most those of the generation. -/
theorem Fenced.le_generation (h : Fenced s) {lease : DurableSwarmLease}
    (hlease : lease ∈ s.grantedFor key) : ∃ generation ∈ s.db.swarmLockGenerations key,
      ∀ epoch token, Numbered generation.highestLeaseEpoch generation.highestFencingToken epoch
        token → ∃ epoch₀ token₀, Numbered lease.leaseEpoch lease.fencingToken epoch₀ token₀
          ∧ epoch₀ ≤ epoch ∧ token₀ ≤ token := by
  obtain ⟨olds, last, hsplit⟩ := eq_nil_or_concat (s.grantedFor key) |>.resolve_left
    (ne_nil_of_mem hlease)
  rw [concat_eq_append] at hsplit
  have hlast : last ∈ (s.grantedFor key).getLast? := by rw [hsplit]; simp
  refine ⟨_, h.generation key last hlast, fun epoch token hnumbered => ?_⟩
  have hincreasing := h.increasing key
  rw [hsplit] at hlease hincreasing
  rcases mem_append.mp hlease with hold | hlease
  · obtain ⟨epoch₀, token₀, epoch', token', hold', hnew, hepoch, htoken⟩ :=
      (pairwise_append.mp hincreasing).2.2 lease hold last mem_cons_self
    have hepoch' := Option.some.inj (hnumbered.1.symm.trans hnew.1)
    have htoken' := Option.some.inj (hnumbered.2.symm.trans hnew.2)
    exact ⟨epoch₀, token₀, hold', hepoch' ▸ hepoch.le, htoken' ▸ htoken.le⟩
  · obtain rfl := mem_singleton.mp hlease
    exact ⟨epoch, token, hnumbered, Nat.le_refl _, Nat.le_refl _⟩

theorem Fenced.grant (h : Fenced s) {key ownerId : Text} {now timeoutMs : ℚ} {pid : ℕ}
    {lease : DurableSwarmLease} {db : CoordinationDb}
    (hok : SwarmMutexService.acquireLease s.db key ownerId now timeoutMs pid = (.ok lease, db)) :
    Fenced ⟨db, s.granted ++ [lease]⟩ := by
  obtain ⟨-, epoch, token, rfl, hgreater, rfl⟩ := acquireLease_ok hok
  have hnumbered : Numbered (decimal epoch) (decimal token) epoch token :=
    ⟨numeral?_decimal epoch, numeral?_decimal token⟩
  refine ⟨fun other last hlast => ?_, fun other last hlast row hrow => ?_, fun lease hlease => ?_,
    fun other => ?_⟩
  · by_cases hother : key = other
    · subst hother
      rw [grantedFor_concat, getLast?_concat] at hlast
      obtain rfl := Option.some.inj hlast
      exact update_self ..
    · rw [grantedFor_concat_of_ne _ _ hother] at hlast
      exact (update_of_ne (Ne.symm hother) ..).trans (h.generation other last hlast)
  · by_cases hother : key = other
    · subst hother
      rw [grantedFor_concat, getLast?_concat] at hlast
      obtain rfl := Option.some.inj hlast
      dsimp only at hrow
      rw [update_self] at hrow
      obtain rfl := Option.some.inj hrow
      exact ⟨rfl, rfl⟩
    · rw [grantedFor_concat_of_ne _ _ hother] at hlast
      dsimp only at hrow
      rw [update_of_ne (Ne.symm hother)] at hrow
      exact h.row other last hlast row hrow
  · rcases mem_append.mp hlease with hlease | hlease
    · exact h.numbered lease hlease
    · obtain rfl := mem_singleton.mp hlease
      exact ⟨epoch, token, hnumbered⟩
  · by_cases hother : key = other
    · subst hother
      rw [grantedFor_concat]
      refine pairwise_append.mpr ⟨h.increasing _, pairwise_singleton _ _, ?_⟩
      intro old hold new hnew
      obtain rfl := mem_singleton.mp hnew
      obtain ⟨generation, hgeneration, hle⟩ := h.le_generation hold
      obtain ⟨epoch₀, token₀, hbefore, hepoch, htoken⟩ := hgreater generation hgeneration
      obtain ⟨epoch₁, token₁, hold', hepoch', htoken'⟩ := hle epoch₀ token₀ hbefore
      exact ⟨epoch₁, token₁, epoch, token, hold', hnumbered, hepoch'.trans_lt hepoch,
        htoken'.trans_lt htoken⟩
    · rw [grantedFor_concat_of_ne _ _ hother]
      exact h.increasing other

/-- **Step lemma.** -/
theorem Fenced.step (h : Fenced s) (call : MutexCall) : Fenced (s.step call) := by
  cases call with
  | acquireLease key ownerId now timeoutMs pid =>
    rw [MutexState.step]
    split
    · next lease db hok => exact h.grant hok
    · next error db herror =>
      obtain ⟨hlocks, hgenerations, -⟩ := acquireLease_error herror
      exact h.of_db hgenerations fun _ _ hrow => hlocks ▸ hrow
  | release key ownerId leaseEpoch fencingToken =>
    exact h.of_db (fun _ _ hgeneration => by rwa [generations_release])
      fun other row hrow => locks_release hrow
  | pruneStaleLocks now =>
    exact h.of_db (fun _ _ hgeneration => hgeneration) fun key row hrow =>
      (filter_eq_some_iff.mp hrow).1

theorem Fenced.run (h : Fenced s) (calls : List MutexCall) :
    Fenced (Run.run MutexState.step s calls) :=
  Run.run_invariant (fun _ call h => h.step call) h calls

/-- From any tables, after any calls: the leases of a resource have increasing epochs and tokens,
none is given while one that is not expired exists, and a release with an identity that is older,
by either counter or because it was returned before, deletes nothing. -/
theorem leases_fenced (db : CoordinationDb) (calls : List MutexCall) :
    let s := Run.run MutexState.step ⟨db, []⟩ calls
    (∀ key, (s.grantedFor key).Pairwise Outnumbers)
      ∧ (∀ key ownerId now timeoutMs pid, ∀ row ∈ s.db.swarmLocks key, now < row.expiresAt →
          SwarmMutexService.acquireLease s.db key ownerId now timeoutMs pid
            = (.error (SwarmMutexService.lockBusy (normalizeLease key row)), s.db))
      ∧ (∀ key ownerId leaseEpoch fencingToken, ∀ row ∈ s.db.swarmLocks key,
          (∃ epoch token epoch' token', Numbered leaseEpoch fencingToken epoch token
            ∧ Numbered (row.leaseEpoch.getD []) (row.fencingToken.getD []) epoch' token'
            ∧ (epoch < epoch' ∨ token < token')) →
          SwarmMutexService.release s.db key ownerId leaseEpoch fencingToken = (.notOwner, s.db))
      ∧ (∀ key olds last, s.grantedFor key = olds ++ [last] → ∀ old ∈ olds,
          (SwarmMutexService.release s.db key old.ownerId old.leaseEpoch old.fencingToken).2
            = s.db) := by
  intro s
  have h : Fenced s := (fenced_new db).run calls
  refine ⟨h.increasing, fun key ownerId now timeoutMs pid row hrow hlive => ?_, ?_, ?_⟩
  · exact acquireLease_busy hrow hlive
  · rintro key ownerId leaseEpoch fencingToken row hrow ⟨epoch, token, epoch', token', hold, hnew,
      hlt⟩
    refine release_of_ne hrow fun hepoch htoken => ?_
    rw [hepoch, htoken, getD_some, getD_some] at hnew
    have hepoch' := Option.some.inj (hold.1.symm.trans hnew.1)
    have htoken' := Option.some.inj (hold.2.symm.trans hnew.2)
    omega
  · intro key olds last hsplit old hold
    cases hrow : s.db.swarmLocks key with
    | none => rw [SwarmMutexService.release, hrow]
    | some row =>
      rw [release_of_ne hrow]
      intro hepoch htoken
      have hlast : last ∈ (s.grantedFor key).getLast? := by rw [hsplit]; simp
      obtain ⟨hrowEpoch, hrowToken⟩ := h.row key last hlast row hrow
      have hincreasing := h.increasing key
      rw [hsplit] at hincreasing
      obtain ⟨epoch, token, epoch', token', hold', hnew, hlt, -⟩ :=
        (pairwise_append.mp hincreasing).2.2 old hold last mem_cons_self
      have hsame := Option.some.inj (hepoch.symm.trans hrowEpoch)
      have heq := Option.some.inj (hold'.1.symm.trans ((congrArg _ hsame).trans hnew.1))
      omega

end Lumi.Locks
