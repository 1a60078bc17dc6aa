import Lumi.Locks.LockAuthority

/-!
# Reconciliation of the projections of a lease

`decideReconciliation` looks at a snapshot of what four backends say of one lease: the database,
which has authority, and its projections to the memory of the process, to a file and to a fence.
Orphans and expired leases are deleted, missing and older projections are written again, and where
a projection is newer or corrupt nothing is done.

Fencing tokens are counters of any size; `BigInt` throws for a text that is not one, and then there
is no decision.
-/

namespace Lumi.Locks

open Js List

inductive ReconciliationBackend
  | memory
  | database
  | filesystem
  | broccoli
  deriving DecidableEq

inductive RepairAction
  | write
  | delete
  deriving DecidableEq

structure ReconciliationRepair where
  backend : ReconciliationBackend
  action : RepairAction
  deriving DecidableEq

inductive ReconciliationStatus
  | retain
  | repairProjection
  | reclaim
  | alreadyReleased
  | failClosed
  | expiredOwnerReclaimed
  | ownershipConflict
  | activeOwnerRetained
  deriving DecidableEq

structure ReconciliationSnapshot where
  memory : Option LeaseObservation
  database : Option LeaseObservation
  filesystem : Option LeaseObservation
  broccoli : Option LeaseObservation
  dbAvailable : Bool
  corruptions : List Text

structure ReconciliationDecision where
  status : ReconciliationStatus
  authoritativeLease : Option LeaseObservation
  repairs : List ReconciliationRepair
  reason : Text

inductive ProjectionComparison
  | same
  | older
  | newer
  | corrupt
  deriving DecidableEq

def ReconciliationBackend.name : ReconciliationBackend → Text
  | memory => text "memory"
  | database => text "database"
  | filesystem => text "filesystem"
  | broccoli => text "broccoli"

def AuthorityMode.name : AuthorityMode → Text
  | broccoli => text "broccoli"
  | localTest => text "local_test"

def ProjectionComparison.name : ProjectionComparison → Text
  | same => text "same"
  | older => text "older"
  | newer => text "newer"
  | corrupt => text "corrupt"

/-- How a projection compares with the database, if `BigInt` reads both tokens. -/
def compareProjection (projection database : LeaseObservation) : Option ProjectionComparison :=
  if projection.authorityMode ≠ database.authorityMode then some .corrupt
  else
    match bigInt? projection.fencingToken, bigInt? database.fencingToken with
    | some projectionToken, some databaseToken =>
      if projectionToken < databaseToken then some .older
      else if projectionToken > databaseToken then some .newer
      else some (if sameIdentity projection database then .same else .corrupt)
    | _, _ => none

def failClosed (reason : Text) : ReconciliationDecision where
  status := .failClosed
  authoritativeLease := none
  repairs := []
  reason := reason

namespace ReconciliationSnapshot

section

variable (s : ReconciliationSnapshot)

def projections : List (ReconciliationBackend × Option LeaseObservation) :=
  [(.memory, s.memory), (.filesystem, s.filesystem), (.broccoli, s.broccoli)]

/-- The deletion of all projections there are. -/
def deletions : List ReconciliationRepair :=
  (s.projections.filter fun entry => entry.2.isSome).map fun entry => ⟨entry.1, .delete⟩

/-- What a backend has. -/
def get : ReconciliationBackend → Option LeaseObservation
  | .memory => s.memory
  | .database => s.database
  | .filesystem => s.filesystem
  | .broccoli => s.broccoli

end

end ReconciliationSnapshot

/-- The loop over the projections of an active lease: the repairs, or the decision it returns. -/
def inspect (database : LeaseObservation) :
    List (ReconciliationBackend × Option LeaseObservation) → List ReconciliationRepair →
      Option (Except ReconciliationDecision (List ReconciliationRepair))
  | [], repairs => some (.ok repairs)
  | (backend, none) :: rest, repairs => inspect database rest (repairs ++ [⟨backend, .write⟩])
  | (backend, some projection) :: rest, repairs =>
    match compareProjection projection database with
    | none => none
    | some comparison =>
      if comparison = .newer ∨ comparison = .corrupt then
        some (.error (failClosed (backend.name ++ text " projection has " ++ comparison.name
          ++ text " identity relative to BroccoliDB.")))
      else if comparison = .older then
        inspect database rest (repairs ++ [⟨backend, .write⟩])
      else inspect database rest repairs

def decideReconciliation (snapshot : ReconciliationSnapshot) (_requestorOwnerId : Text) (now : ℚ) :
    Option ReconciliationDecision :=
  if snapshot.dbAvailable = false then
    some (failClosed
      (text "BroccoliDB authority is unavailable; no lease or projection may be reclaimed."))
  else if snapshot.corruptions ≠ [] then
    some (failClosed
      (text "Corrupt coordination records: " ++ joinWith (text "; ") snapshot.corruptions))
  else
    match snapshot.database with
    | none =>
      if snapshot.deletions ≠ [] then
        some ⟨.reclaim, none, snapshot.deletions,
          text "Orphaned projections exist without an authoritative BroccoliDB lease."⟩
      else some ⟨.alreadyReleased, none, [], text "Lease is already fully released."⟩
    | some database =>
      if database.authorityMode ≠ .broccoli then
        some (failClosed (text "Incompatible database authority mode '"
          ++ database.authorityMode.name ++ text "'."))
      else if now > database.expiresAt then
        some ⟨.reclaim, some database, ⟨.database, .delete⟩ :: snapshot.deletions,
          text "Authoritative BroccoliDB lease expired."⟩
      else
        (inspect database snapshot.projections []).map fun
          | .error decision => decision
          | .ok repairs =>
            if repairs ≠ [] then
              ⟨.repairProjection, some database, repairs,
                text "Missing or stale projections must be repaired from BroccoliDB."⟩
            else ⟨.retain, some database, [],
              text "Active BroccoliDB lease is consistent."⟩

/-! ## Applying the repairs -/

namespace ReconciliationSnapshot

def set (s : ReconciliationSnapshot) (backend : ReconciliationBackend)
    (record : Option LeaseObservation) : ReconciliationSnapshot :=
  match backend with
  | .memory => { s with memory := record }
  | .database => { s with database := record }
  | .filesystem => { s with filesystem := record }
  | .broccoli => { s with broccoli := record }

/-- A deletion removes the record of the backend, a write sets it to the lease. -/
def applyRepair (lease : Option LeaseObservation) (s : ReconciliationSnapshot)
    (repair : ReconciliationRepair) : ReconciliationSnapshot :=
  match repair.action with
  | .delete => s.set repair.backend none
  | .write => s.set repair.backend lease

def repaired (s : ReconciliationSnapshot) (decision : ReconciliationDecision) :
    ReconciliationSnapshot :=
  decision.repairs.foldl (applyRepair decision.authoritativeLease) s

variable {s : ReconciliationSnapshot}

section

variable (s : ReconciliationSnapshot)

@[simp] theorem get_set (backend other : ReconciliationBackend) (record : Option LeaseObservation) :
    (s.set backend record).get other = if other = backend then record else s.get other := by
  cases backend <;> cases other <;> rfl

@[simp] theorem dbAvailable_set (backend : ReconciliationBackend)
    (record : Option LeaseObservation) : (s.set backend record).dbAvailable = s.dbAvailable := by
  cases backend <;> rfl

@[simp] theorem corruptions_set (backend : ReconciliationBackend)
    (record : Option LeaseObservation) : (s.set backend record).corruptions = s.corruptions := by
  cases backend <;> rfl

end

/-- Repairs that all do the same: the backends they name have the record, the others what they
had. -/
theorem foldl_applyRepair {lease record : Option LeaseObservation}
    (repairs : List ReconciliationRepair) : ∀ s : ReconciliationSnapshot,
      (∀ repair ∈ repairs, ∀ s, applyRepair lease s repair = s.set repair.backend record) →
      let after := repairs.foldl (applyRepair lease) s
      after.dbAvailable = s.dbAvailable ∧ after.corruptions = s.corruptions
        ∧ ∀ backend, after.get backend
          = if backend ∈ repairs.map ReconciliationRepair.backend then record
            else s.get backend := by
  induction repairs with
  | nil => exact fun s _ => ⟨rfl, rfl, fun backend => by simp⟩
  | cons repair rest ih =>
    intro s hsame
    have hfirst := hsame repair mem_cons_self s
    obtain ⟨havailable, hcorruptions, hget⟩ := ih (applyRepair lease s repair)
      fun other hother => hsame other (mem_cons_of_mem _ hother)
    rw [hfirst] at havailable hcorruptions hget
    dsimp only
    rw [foldl_cons, hfirst]
    refine ⟨havailable.trans (dbAvailable_set ..), hcorruptions.trans (corruptions_set ..),
      fun backend => ?_⟩
    rw [hget, get_set, map_cons]
    by_cases hin : backend ∈ rest.map ReconciliationRepair.backend
    · rw [if_pos hin, if_pos (mem_cons_of_mem _ hin)]
    · rw [if_neg hin]
      exact if_congr (by simp [hin]) rfl rfl

theorem mem_deletions {repair : ReconciliationRepair} : repair ∈ s.deletions
    ↔ repair.action = .delete ∧ repair.backend ≠ .database ∧ (s.get repair.backend).isSome := by
  obtain ⟨backend, action⟩ := repair
  rw [deletions, projections]
  cases backend <;> cases action <;> simp [get]

end ReconciliationSnapshot

/-! ## The loop over the projections -/

/-- The projection is missing or older. -/
def isStale (database : LeaseObservation) : Option LeaseObservation → Bool
  | none => true
  | some projection => compareProjection projection database = some .older

/-- The projection is there and the same. -/
def isSame (database : LeaseObservation) : Option LeaseObservation → Bool
  | none => false
  | some projection => compareProjection projection database = some .same

section

variable {database : LeaseObservation}

section

variable (entries : List (ReconciliationBackend × Option LeaseObservation))
include entries

/-- The loop goes through where all projections are stale or the same, and repairs the stale. -/
theorem inspect_ok :
    ∀ {repairs result : List ReconciliationRepair},
      inspect database entries repairs = some (.ok result) →
      result = repairs ++ (entries.filter fun entry => isStale database entry.2).map
          (fun entry => ⟨entry.1, .write⟩)
        ∧ ∀ entry ∈ entries, isStale database entry.2 = true ∨ isSame database entry.2 = true := by
  induction entries with
  | nil =>
    intro repairs result h
    rw [inspect] at h
    injection h with h
    injection h with h
    exact ⟨by rw [← h]; simp, fun _ hmem => absurd hmem not_mem_nil⟩
  | cons entry rest ih =>
    obtain ⟨backend, projection⟩ := entry
    intro repairs result h
    -- a stale projection is repaired, and the loop goes on
    have hgoes : isStale database projection = true →
        inspect database rest (repairs ++ [⟨backend, .write⟩]) = some (.ok result) →
        result = repairs ++ (((backend, projection) :: rest).filter fun entry =>
            isStale database entry.2).map (fun entry => ⟨entry.1, .write⟩)
          ∧ ∀ entry ∈ (backend, projection) :: rest,
            isStale database entry.2 = true ∨ isSame database entry.2 = true := by
      intro hstale hrest
      obtain ⟨hresult, hall⟩ := ih hrest
      refine ⟨?_, forall_mem_cons.mpr ⟨.inl hstale, hall⟩⟩
      rw [hresult, filter_cons_of_pos (by exact hstale), map_cons, append_assoc]
      rfl
    cases projection with
    | none => exact hgoes rfl h
    | some projection =>
      rw [inspect] at h
      cases hcompare : compareProjection projection database with
      | none => rw [hcompare] at h; cases h
      | some comparison =>
        rw [hcompare] at h
        cases comparison with
        | newer => simp at h
        | corrupt => simp at h
        | older => exact hgoes (decide_eq_true hcompare) (by simpa using h)
        | same =>
          obtain ⟨hresult, hall⟩ := ih (by simpa using h)
          have hnot : isStale database (some projection) = false := by
            rw [isStale, hcompare]
            rfl
          refine ⟨?_, forall_mem_cons.mpr ⟨.inr (decide_eq_true hcompare), hall⟩⟩
          rw [hresult, filter_cons_of_neg (by rw [hnot]; decide)]

/-- The loop goes through where all projections are the same. -/
theorem inspect_of_same (repairs : List ReconciliationRepair)
    (h : ∀ entry ∈ entries, isSame database entry.2 = true) :
    inspect database entries repairs = some (.ok repairs) := by
  induction entries with
  | nil => rfl
  | cons entry rest ih =>
    obtain ⟨hfirst, hrest⟩ := forall_mem_cons.mp h
    obtain ⟨backend, projection⟩ := entry
    cases projection with
    | none => cases hfirst
    | some projection =>
      have hcompare : compareProjection projection database = some .same :=
        of_decide_eq_true hfirst
      rw [inspect, hcompare]
      simpa using ih hrest

/-- What the loop returns early repairs nothing. -/
theorem inspect_error :
    ∀ {repairs : List ReconciliationRepair} {decision : ReconciliationDecision},
      inspect database entries repairs = some (.error decision) →
      decision.status = .failClosed ∧ decision.repairs = [] := by
  induction entries with
  | nil => intro repairs decision h; simp [inspect] at h
  | cons entry rest ih =>
    obtain ⟨backend, projection⟩ := entry
    intro repairs decision h
    cases projection with
    | none => exact ih h
    | some projection =>
      rw [inspect] at h
      split at h
      · cases h
      · split at h
        · injection h with h
          injection h with h
          exact ⟨by rw [← h]; rfl, by rw [← h]; rfl⟩
        · split at h
          · exact ih h
          · exact ih h

theorem isSome_inspect :
    ∀ repairs : List ReconciliationRepair, (∀ entry ∈ entries, ∀ projection ∈ entry.2,
      (compareProjection projection database).isSome) →
      (inspect database entries repairs).isSome := by
  induction entries with
  | nil => exact fun _ _ => rfl
  | cons entry rest ih =>
    obtain ⟨backend, projection⟩ := entry
    intro repairs h
    obtain ⟨hfirst, hrest⟩ := forall_mem_cons.mp h
    cases projection with
    | none => exact ih _ hrest
    | some projection =>
      obtain ⟨comparison, hcompare⟩ := Option.isSome_iff_exists.mp (hfirst projection rfl)
      rw [inspect, hcompare]
      dsimp only
      split
      · rfl
      · split
        · exact ih _ hrest
        · exact ih _ hrest

end

theorem compareProjection_self (h : (bigInt? database.fencingToken).isSome) :
    compareProjection database database = some .same := by
  obtain ⟨token, htoken⟩ := Option.isSome_iff_exists.mp h
  rw [compareProjection, if_neg (by simp), htoken]
  dsimp only
  rw [if_neg (Int.lt_irrefl _), if_neg (Int.lt_irrefl _), if_pos ⟨rfl, rfl, rfl, rfl⟩]

end

/-! ## One step is enough -/

/-- The reconciliation is at rest: nothing is left to repair. -/
def AtRest (decision : ReconciliationDecision) : Prop :=
  (decision.status = .retain ∨ decision.status = .alreadyReleased) ∧ decision.repairs = []

variable {s : ReconciliationSnapshot}

/-- A snapshot of nothing is at rest. -/
theorem atRest_of_empty (havailable : s.dbAvailable = true) (hcorruptions : s.corruptions = [])
    (hempty : ∀ backend, s.get backend = none) (requestorOwnerId : Text) (now : ℚ) :
    ∃ decision, decideReconciliation s requestorOwnerId now = some decision ∧ AtRest decision := by
  have hdatabase : s.database = none := hempty .database
  have hdeletions : s.deletions = [] := by
    refine eq_nil_iff_forall_not_mem.mpr fun repair hrepair => ?_
    have hsome := (ReconciliationSnapshot.mem_deletions.mp hrepair).2.2
    rw [hempty] at hsome
    cases hsome
  refine ⟨⟨.alreadyReleased, none, [], text "Lease is already fully released."⟩, ?_, .inr rfl,
    rfl⟩
  rw [decideReconciliation, if_neg (by simp [havailable]), if_neg (by simp [hcorruptions]),
    hdatabase]
  dsimp only
  rw [if_neg (by simp [hdeletions])]

/-- An active lease whose projections are all the same is at rest. -/
theorem atRest_of_same {database : LeaseObservation} (havailable : s.dbAvailable = true)
    (hcorruptions : s.corruptions = []) (hdatabase : s.database = some database)
    (hmode : database.authorityMode = .broccoli) {now : ℚ} (hactive : now ≤ database.expiresAt)
    (hsame : ∀ entry ∈ s.projections, isSame database entry.2 = true) (requestorOwnerId : Text) :
    ∃ decision, decideReconciliation s requestorOwnerId now = some decision ∧ AtRest decision := by
  refine ⟨⟨.retain, some database, [], text "Active BroccoliDB lease is consistent."⟩, ?_,
    Or.inl rfl, rfl⟩
  rw [decideReconciliation, if_neg (by simp [havailable]), if_neg (by simp [hcorruptions]),
    hdatabase]
  dsimp only
  rw [if_neg (by simp [hmode]), if_neg (not_lt_of_ge hactive), inspect_of_same _ _ hsame]
  rfl

/-- What a decision is that does not fail: the release of everything, the deletion of everything
there is, or the repair of an active lease. -/
theorem decideReconciliation_cases {requestorOwnerId : Text} {now : ℚ}
    {decision : ReconciliationDecision}
    (h : decideReconciliation s requestorOwnerId now = some decision) :
    (decision.status = .failClosed ∧ decision.repairs = [])
      ∨ (decision.status ≠ .failClosed ∧ s.dbAvailable = true ∧ s.corruptions = []
        ∧ ((s.database = none ∧ decision.repairs = s.deletions)
          ∨ ∃ database, s.database = some database ∧ database.authorityMode = .broccoli
            ∧ ((database.expiresAt < now
                ∧ decision.repairs = ⟨.database, .delete⟩ :: s.deletions)
              ∨ (now ≤ database.expiresAt ∧ decision.authoritativeLease = some database
                ∧ inspect database s.projections [] = some (.ok decision.repairs))))) := by
  rw [decideReconciliation] at h
  split at h
  · injection h with h
    exact .inl ⟨by rw [← h]; rfl, by rw [← h]; rfl⟩
  next havailable =>
  split at h
  · injection h with h
    exact .inl ⟨by rw [← h]; rfl, by rw [← h]; rfl⟩
  next hcorruptions =>
  have havailable : s.dbAvailable = true := by simpa using havailable
  have hcorruptions : s.corruptions = [] := by simpa using hcorruptions
  split at h
  next hdatabase =>
    split at h
    · injection h with h
      subst h
      exact .inr ⟨by simp, havailable, hcorruptions, .inl ⟨hdatabase, rfl⟩⟩
    next hnone =>
      injection h with h
      subst h
      exact .inr ⟨by simp, havailable, hcorruptions,
        Or.inl ⟨hdatabase, (not_not.mp hnone).symm⟩⟩
  next database hdatabase =>
    split at h
    · injection h with h
      exact .inl ⟨by rw [← h]; rfl, by rw [← h]; rfl⟩
    next hmode =>
    have hmode := not_not.mp hmode
    split at h
    next hexpired =>
      injection h with h
      subst h
      exact .inr ⟨by simp, havailable, hcorruptions,
        Or.inr ⟨database, hdatabase, hmode, .inl ⟨hexpired, rfl⟩⟩⟩
    next hactive =>
      obtain ⟨outcome, houtcome, hdecision⟩ := Option.map_eq_some_iff.mp h
      cases outcome with
      | error early =>
        dsimp only at hdecision
        subst hdecision
        exact .inl (inspect_error _ houtcome)
      | ok repairs =>
        dsimp only at hdecision
        split at hdecision
        · subst hdecision
          exact .inr ⟨by simp, havailable, hcorruptions, .inr ⟨database, hdatabase, hmode,
            Or.inr ⟨not_lt.mp hactive, rfl, houtcome⟩⟩⟩
        next hnone =>
          subst hdecision
          rw [not_not.mp hnone] at houtcome
          exact .inr ⟨by simp, havailable, hcorruptions, .inr ⟨database, hdatabase, hmode,
            Or.inr ⟨not_lt.mp hactive, rfl, houtcome⟩⟩⟩

namespace ReconciliationSnapshot

variable {s : ReconciliationSnapshot}

/-- Where everything there is has been deleted, there is nothing. -/
theorem get_repaired_deletions {decision : ReconciliationDecision}
    (h : decision.repairs = s.deletions ∧ s.database = none
      ∨ decision.repairs = ⟨.database, .delete⟩ :: s.deletions) :
    (s.repaired decision).dbAvailable = s.dbAvailable
      ∧ (s.repaired decision).corruptions = s.corruptions
      ∧ ∀ backend, (s.repaired decision).get backend = none := by
  have hdelete : ∀ repair ∈ decision.repairs, ∀ t : ReconciliationSnapshot,
      applyRepair decision.authoritativeLease t repair = t.set repair.backend none := by
    intro repair hrepair t
    have haction : repair.action = .delete := by
      obtain ⟨heq, -⟩ | heq := h
      · exact (mem_deletions.mp (heq ▸ hrepair)).1
      · rw [heq] at hrepair
        obtain rfl | hrepair := mem_cons.mp hrepair
        · rfl
        · exact (mem_deletions.mp hrepair).1
    rw [applyRepair, haction]
  obtain ⟨havailable, hcorruptions, hget⟩ := foldl_applyRepair decision.repairs s hdelete
  refine ⟨havailable, hcorruptions, fun backend => (hget backend).trans ?_⟩
  by_contra hne
  rw [ite_eq_left_iff, not_forall] at hne
  obtain ⟨hnot, hsome⟩ := hne
  -- the record of a backend no repair names was none before
  refine hnot (mem_map.mpr ⟨⟨backend, .delete⟩, ?_, rfl⟩)
  have hdeleted : backend ≠ .database → (⟨backend, .delete⟩ : ReconciliationRepair) ∈ s.deletions :=
    fun hbackend => mem_deletions.mpr ⟨rfl, hbackend, Option.isSome_iff_ne_none.mpr hsome⟩
  obtain ⟨heq, hdatabase⟩ | heq := h
  · rw [heq]
    refine hdeleted fun hbackend => hsome ?_
    rw [hbackend]
    exact hdatabase
  · rw [heq]
    by_cases hbackend : backend = .database
    · rw [hbackend]
      exact mem_cons_self
    · exact mem_cons_of_mem _ (hdeleted hbackend)

/-- Where the stale projections of an active lease have been written again, all are the same. -/
theorem repaired_of_inspect {database : LeaseObservation} {decision : ReconciliationDecision}
    (htoken : (bigInt? database.fencingToken).isSome) (hdatabase : s.database = some database)
    (hlease : decision.authoritativeLease = some database)
    (h : inspect database s.projections [] = some (.ok decision.repairs)) :
    (s.repaired decision).dbAvailable = s.dbAvailable
      ∧ (s.repaired decision).corruptions = s.corruptions
      ∧ (s.repaired decision).database = some database
      ∧ ∀ entry ∈ (s.repaired decision).projections, isSame database entry.2 = true := by
  obtain ⟨hrepairs, hall⟩ := inspect_ok _ h
  rw [nil_append] at hrepairs
  have hwrite : ∀ repair ∈ decision.repairs, ∀ t : ReconciliationSnapshot,
      applyRepair decision.authoritativeLease t repair
        = t.set repair.backend (some database) := by
    intro repair hrepair t
    rw [hrepairs] at hrepair
    obtain ⟨entry, -, rfl⟩ := mem_map.mp hrepair
    rw [hlease]
    rfl
  obtain ⟨havailable, hcorruptions, hget⟩ := foldl_applyRepair decision.repairs s hwrite
  have hself : isSame database (some database) = true :=
    decide_eq_true (compareProjection_self htoken)
  have hafter : ∀ backend, (backend, s.get backend) ∈ s.projections →
      isSame database ((s.repaired decision).get backend) = true := by
    intro backend hmem
    have hbackend := hget backend
    rw [← repaired] at hbackend
    rw [hbackend]
    split
    · exact hself
    next hnot =>
      -- a projection that no repair names is not stale, so it is the same
      refine (hall _ hmem).resolve_left fun hstale => hnot ?_
      rw [hrepairs, map_map]
      exact mem_map.mpr ⟨(backend, s.get backend), mem_filter.mpr ⟨hmem, hstale⟩, rfl⟩
  refine ⟨havailable, hcorruptions, ?_, ?_⟩
  · refine (hget .database).trans ?_
    split
    · rfl
    · exact hdatabase
  · rw [projections]
    exact forall_mem_cons.mpr ⟨hafter .memory (by simp [projections, get]),
      forall_mem_cons.mpr ⟨hafter .filesystem (by simp [projections, get]),
        forall_mem_cons.mpr ⟨hafter .broccoli (by simp [projections, get]), by simp⟩⟩⟩

/-- The repairs of an active lease are on projections that are missing or older. -/
theorem le_of_inspect {database : LeaseObservation} {repairs : List ReconciliationRepair}
    (h : inspect database s.projections [] = some (.ok repairs)) {repair : ReconciliationRepair}
    (hrepair : repair ∈ repairs) {projection : LeaseObservation}
    (hprojection : s.get repair.backend = some projection) {projectionToken databaseToken : ℤ}
    (hp : bigInt? projection.fencingToken = some projectionToken)
    (hd : bigInt? database.fencingToken = some databaseToken) :
    projectionToken < databaseToken := by
  rw [(inspect_ok _ h).1, nil_append] at hrepair
  obtain ⟨entry, hentry, rfl⟩ := mem_map.mp hrepair
  obtain ⟨hmem, hstale⟩ := mem_filter.mp hentry
  have hget : s.get entry.1 = entry.2 := by
    simp only [projections, mem_cons, not_mem_nil, or_false] at hmem
    obtain rfl | rfl | rfl := hmem
    · rfl
    · rfl
    · rfl
  rw [← hget, hprojection] at hstale
  have hcompare : compareProjection projection database = some .older := of_decide_eq_true hstale
  rw [compareProjection, hp, hd] at hcompare
  dsimp only at hcompare
  by_contra hnot
  rw [if_neg hnot] at hcompare
  split at hcompare
  · cases hcompare
  · split at hcompare
    · cases hcompare
    · split at hcompare
      · cases hcompare
      · cases hcompare

end ReconciliationSnapshot

/-- There is a decision where `BigInt` reads the tokens. -/
theorem isSome_decideReconciliation (s : ReconciliationSnapshot) (requestorOwnerId : Text) (now : ℚ)
    (h : ∀ backend, ∀ observation ∈ s.get backend, (bigInt? observation.fencingToken).isSome) :
    (decideReconciliation s requestorOwnerId now).isSome := by
  rw [decideReconciliation]
  split
  · rfl
  · split
    · rfl
    · split
      · split
        · rfl
        · rfl
      next database hdatabase =>
        split
        · rfl
        · split
          · rfl
          · rw [Option.isSome_map]
            refine isSome_inspect _ _ fun entry hentry projection hprojection => ?_
            obtain ⟨d, hd⟩ := Option.isSome_iff_exists.mp (h .database database hdatabase)
            have hmem : s.get entry.1 = entry.2 := by
              simp only [ReconciliationSnapshot.projections, mem_cons, not_mem_nil,
                or_false] at hentry
              obtain rfl | rfl | rfl := hentry
              · rfl
              · rfl
              · rfl
            obtain ⟨p, hp⟩ := Option.isSome_iff_exists.mp
              (h entry.1 projection (hmem.trans hprojection))
            rw [compareProjection, hp, hd]
            dsimp only
            split
            · rfl
            · split
              · rfl
              · split
                · rfl
                · rfl

end Lumi.Locks
