import Lumi.Subagent.Ownership

/-!
# Whether a retry is safe

`isRetrySafe` looks at the owners that `buildResourceOwners` reports, one for each resource: whatever
was acquired, recovered, released or found stale there last.  The merge gate keeps the claims apart
instead, so that a claim is active until it is released itself (`reconcileClaimLifecycle`).

The two agree that a resource is held unless a claim that had lost it is released late, after another
one has taken it over (`reports_held_iff`).
-/

namespace Lumi.Subagent

open Js Holding InsertionMap List

structure GovernedRetryHistoryEntry where
  attemptId : Text
  sealed : Bool
  mergePassed : Bool

structure GovernedSwarmReceipt where
  attemptId : Text
  parentAttemptId : Option Text
  claimHistory : List ClaimHistoryEntry
  laneDag : List LaneDAGNode
  sealedSupersessionBlocked : Bool

structure RetrySafety where
  safe : Bool
  reason : Option Text

/-- The loop of `buildResourceOwners`. -/
def addResourceOwner (active : InsertionMap Text GovernedResourceOwner) (entry : ClaimHistoryEntry) :
    InsertionMap Text GovernedResourceOwner :=
  match entry.event with
  | .acquired | .recovered => active.set entry.resourceKey (resourceOwner entry .active)
  | .released => active.set entry.resourceKey (resourceOwner entry .released)
  | .staleDetected =>
    match active.get? entry.resourceKey with
    | none => active
    | some existing => active.set entry.resourceKey { existing with status := .stale }
  | .rejected => active

section

variable (claimHistory : List ClaimHistoryEntry)

/-- The owners by their resources. -/
def ownersByResource : InsertionMap Text GovernedResourceOwner :=
  claimHistory.foldl addResourceOwner .empty

def buildResourceOwners : List GovernedResourceOwner :=
  (ownersByResource claimHistory).values

def isRetrySafe (receipt : GovernedSwarmReceipt) (retryHistory : List GovernedRetryHistoryEntry)
    (resourceOwners : List GovernedResourceOwner) : RetrySafety :=
  let keysOf (owners : List GovernedResourceOwner) := joinWith (text ", ") (owners.map (·.resourceKey))
  let active := resourceOwners.filter (·.status = .active)
  let stale := resourceOwners.filter (·.status = .stale)
  let lineageLinked := isGiven receipt.parentAttemptId && retryHistory.any fun entry =>
    entry.sealed && entry.mergePassed && receipt.parentAttemptId = some entry.attemptId
  let priorSealed := retryHistory.any fun entry =>
    entry.sealed && entry.mergePassed && entry.attemptId ≠ receipt.attemptId
  if active ≠ [] then ⟨false, some (text "Active claims remain: " ++ keysOf active)⟩
  else if stale ≠ [] then
    ⟨false, some (text "Stale claims must be recovered first: " ++ keysOf stale)⟩
  else if receipt.sealedSupersessionBlocked && !lineageLinked then
    ⟨false, some (text "Prior sealed receipt would be superseded unsafely")⟩
  else if priorSealed && receipt.laneDag.any (·.state = .running) then
    ⟨false, some (text "Lanes still running while prior attempt is sealed")⟩
  else ⟨true, none⟩

/-! ## What is reported of a resource -/

/-- The resource is reported as active or stale. -/
def ReportedHeld (owners : List GovernedResourceOwner) (resourceKey : Text) : Prop :=
  ∃ owner ∈ owners, owner.resourceKey = resourceKey ∧ (owner.status = .active ∨ owner.status = .stale)

/-- The last entry about the resource, but for the rejected ones. -/
def lastEvent (resourceKey : Text) : Option ClaimHistoryEvent :=
  ((claimHistory.filter fun entry => entry.resourceKey = resourceKey ∧ entry.event ≠ .rejected).map
    (·.event)).getLast?

theorem lastEvent_concat (entry : ClaimHistoryEntry) (resourceKey : Text) :
    lastEvent (claimHistory ++ [entry]) resourceKey
      = if entry.resourceKey = resourceKey ∧ entry.event ≠ .rejected then some entry.event
        else lastEvent claimHistory resourceKey := by
  rw [lastEvent, lastEvent, filter_append, map_append, filter_cons]
  simp only [decide_eq_true_eq]
  split
  · rw [filter_nil, map_singleton, getLast?_concat]
  · rw [filter_nil, map_nil, append_nil]

/-- What an entry about a resource makes of its owner. -/
def nextOwner (existing : Option GovernedResourceOwner) (entry : ClaimHistoryEntry) :
    Option GovernedResourceOwner :=
  match entry.event with
  | .acquired | .recovered => some (resourceOwner entry .active)
  | .released => some (resourceOwner entry .released)
  | .staleDetected => existing.map ({ · with status := .stale })
  | .rejected => existing

theorem get?_addResourceOwner (active : InsertionMap Text GovernedResourceOwner)
    (entry : ClaimHistoryEntry) (resourceKey : Text) :
    (addResourceOwner active entry).get? resourceKey
      = if resourceKey = entry.resourceKey then nextOwner (active.get? resourceKey) entry
        else active.get? resourceKey := by
  rw [addResourceOwner, nextOwner]
  by_cases hkey : resourceKey = entry.resourceKey
  · rw [if_pos hkey, hkey]
    cases entry.event with
    | acquired => exact get?_set_self ..
    | recovered => exact get?_set_self ..
    | released => exact get?_set_self ..
    | rejected => rfl
    | staleDetected =>
      dsimp only
      cases hget : active.get? entry.resourceKey with
      | none => exact hget
      | some existing => exact get?_set_self ..
  · rw [if_neg hkey]
    cases entry.event with
    | acquired => exact get?_set_of_ne _ _ hkey
    | recovered => exact get?_set_of_ne _ _ hkey
    | released => exact get?_set_of_ne _ _ hkey
    | rejected => rfl
    | staleDetected =>
      dsimp only
      split
      · rfl
      · exact get?_set_of_ne _ _ hkey

/-- What is reported of a resource: nothing where no claim was taken or freed, and else that it is
released exactly if the last entry about it says so. -/
theorem owner_spec (resourceKey : Text) :
    match (ownersByResource claimHistory).get? resourceKey with
    | none => ∀ entry ∈ claimHistory, entry.resourceKey = resourceKey → entry.kind = .neither
    | some owner => owner.resourceKey = resourceKey
        ∧ (owner.status = .released ↔ lastEvent claimHistory resourceKey = some .released) := by
  induction claimHistory using List.reverseRecOn with
  | nil => exact fun entry hentry => absurd hentry not_mem_nil
  | append_singleton claimHistory entry ih =>
    rw [ownersByResource, foldl_append, foldl_cons, foldl_nil, ← ownersByResource,
      get?_addResourceOwner, lastEvent_concat]
    by_cases hkey : resourceKey = entry.resourceKey
    · rw [if_pos hkey, nextOwner]
      cases hevent : entry.event with
      | acquired => exact ⟨hkey.symm, by simp [hkey, resourceOwner]⟩
      | recovered => exact ⟨hkey.symm, by simp [hkey, resourceOwner]⟩
      | released => exact ⟨hkey.symm, by simp [hkey, resourceOwner]⟩
      | staleDetected =>
        cases hget : (ownersByResource claimHistory).get? resourceKey with
        | none =>
          rw [hget] at ih
          refine forall_mem_append.mpr ⟨ih, fun other hother _ => ?_⟩
          rw [mem_singleton.mp hother, ClaimHistoryEntry.kind, hevent]
        | some owner =>
          rw [hget] at ih
          exact ⟨ih.1, by simp [hkey]⟩
      | rejected =>
        dsimp only
        cases hget : (ownersByResource claimHistory).get? resourceKey with
        | none =>
          rw [hget] at ih
          refine forall_mem_append.mpr ⟨ih, fun other hother _ => ?_⟩
          rw [mem_singleton.mp hother, ClaimHistoryEntry.kind, hevent]
        | some owner =>
          rw [hget] at ih
          exact ⟨ih.1, by simpa using ih.2⟩
    · rw [if_neg hkey, if_neg fun hand => hkey hand.1.symm]
      cases hget : (ownersByResource claimHistory).get? resourceKey with
      | none =>
        rw [hget] at ih
        refine forall_mem_append.mpr ⟨ih, fun other hother hsame => ?_⟩
        rw [mem_singleton.mp hother] at hsame
        exact absurd hsame.symm hkey
      | some owner =>
        rw [hget] at ih
        exact ih

end

/-- A resource that was taken once is reported as held unless the last entry about it is a release. -/
theorem reportedHeld_iff {claimHistory : List ClaimHistoryEntry} {entry : ClaimHistoryEntry}
    (hentry : entry ∈ claimHistory) (htakes : entry.kind = .takes) :
    ReportedHeld (buildResourceOwners claimHistory) entry.resourceKey
      ↔ lastEvent claimHistory entry.resourceKey ≠ some .released := by
  have hspec := owner_spec claimHistory entry.resourceKey
  cases hget : (ownersByResource claimHistory).get? entry.resourceKey with
  | none =>
    rw [hget] at hspec
    rw [hspec entry hentry rfl] at htakes
    cases htakes
  | some owner =>
    rw [hget] at hspec
    obtain ⟨hkey, hstatus⟩ := hspec
    rw [Ne, ← hstatus]
    constructor
    · rintro ⟨other, hother, hsame, hheld⟩ hreleased
      -- the map has one owner under a key
      obtain ⟨⟨key, owner'⟩, hmem, rfl⟩ := mem_map.mp hother
      have hother' := mem_entries_iff.mp hmem
      have hspec' := owner_spec claimHistory key
      rw [hother'] at hspec'
      have heq : key = entry.resourceKey := hspec'.1.symm.trans hsame
      rw [heq, hget] at hother'
      rw [← Option.some.inj hother', hreleased] at hheld
      exact hheld.elim (fun h => by cases h) fun h => by cases h
    · intro hnot
      refine ⟨owner, mem_map.mpr ⟨_, mem_entries_iff.mpr hget, rfl⟩, hkey, ?_⟩
      cases hcase : owner.status with
      | active => exact .inl rfl
      | stale => exact .inr rfl
      | released => exact absurd hcase hnot

/-- A retry is not safe while an owner is reported as active or stale. -/
theorem not_safe_of_reportedHeld {receipt : GovernedSwarmReceipt}
    {retryHistory : List GovernedRetryHistoryEntry} {owners : List GovernedResourceOwner}
    {resourceKey : Text} (h : ReportedHeld owners resourceKey) :
    (isRetrySafe receipt retryHistory owners).safe = false := by
  obtain ⟨owner, hmem, -, hstatus⟩ := h
  rw [isRetrySafe]
  dsimp only
  obtain hactive | hstale := hstatus
  · rw [if_pos (ne_nil_of_mem (mem_filter.mpr ⟨hmem, decide_eq_true hactive⟩))]
  · split
    · rfl
    · rw [if_pos (ne_nil_of_mem (mem_filter.mpr ⟨hmem, decide_eq_true hstale⟩))]

/-! ## Held claims -/

section

variable [Host]

section

variable (claimHistory : List ClaimHistoryEntry)

/-- Some claim on the resource was acquired or recovered, and has not been released since. -/
def IsHeld (resourceKey : Text) : Prop :=
  ∃ entry, Unfreed ClaimHistoryEntry.kind claimIdentity claimHistory entry
    ∧ entry.resourceKey = resourceKey

/-- The claims that are taken under one identity are on one resource. -/
def ClaimsOneResource : Prop :=
  ∀ a ∈ claimHistory, ∀ b ∈ claimHistory, a.kind = .takes → b.kind = .takes →
    claimIdentity a = claimIdentity b → a.resourceKey = b.resourceKey

/-- A resource is held exactly if an active claim is on it. -/
theorem isHeld_iff {claimHistory : List ClaimHistoryEntry} (hids : ClaimsOneResource claimHistory)
    {resourceKey : Text} :
    IsHeld claimHistory resourceKey
      ↔ ∃ entry ∈ (reconcileClaimLifecycle claimHistory).active.values,
          entry.resourceKey = resourceKey := by
  constructor
  · rintro ⟨entry, hunfreed, rfl⟩
    obtain ⟨holder, hholds, hsame⟩ := hunfreed.exists_holds
    have hone := hids holder hholds.unfreed.mem entry hunfreed.mem
    exact ⟨holder, mem_active_of_holds hholds, hone hholds.unfreed.takes hunfreed.takes hsame⟩
  · rintro ⟨entry, hentry, rfl⟩
    obtain ⟨⟨identity, entry⟩, hget, rfl⟩ := mem_map.mp hentry
    have hheld := mem_entries_iff.mp hget
    rw [reconcileClaimLifecycle_active] at hheld
    have hholds : Holds ClaimHistoryEntry.kind claimIdentity claimHistory entry := by
      rw [Holds, key_of_held hheld]
      exact hheld
    exact ⟨entry, hholds.unfreed, rfl⟩

/-- A retry of the receipt with the owners of its history is never safe while a claim is held. -/
def RetriesWait : Prop :=
  ∀ receipt retryHistory resourceKey, receipt.claimHistory = claimHistory →
    IsHeld claimHistory resourceKey →
    (isRetrySafe receipt retryHistory (buildResourceOwners receipt.claimHistory)).safe = false

end

/-- **Held claims and reported owners.**  A resource is held exactly if an active claim is on it.  All
held resources are reported as active or stale, and no retry is safe meanwhile, exactly if on none of
them a release is the last that happened. -/
theorem reports_held_iff (claimHistory : List ClaimHistoryEntry)
    (hids : ClaimsOneResource claimHistory) :
    (∀ resourceKey, IsHeld claimHistory resourceKey
      ↔ ∃ entry ∈ (reconcileClaimLifecycle claimHistory).active.values,
          entry.resourceKey = resourceKey)
    ∧ ((∀ resourceKey, IsHeld claimHistory resourceKey →
          ReportedHeld (buildResourceOwners claimHistory) resourceKey) ∧ RetriesWait claimHistory
      ↔ ∀ resourceKey, IsHeld claimHistory resourceKey →
          lastEvent claimHistory resourceKey ≠ some .released) := by
  have hreported : ∀ resourceKey, IsHeld claimHistory resourceKey →
      (ReportedHeld (buildResourceOwners claimHistory) resourceKey
        ↔ lastEvent claimHistory resourceKey ≠ some .released) := by
    rintro resourceKey ⟨entry, hunfreed, rfl⟩
    exact reportedHeld_iff hunfreed.mem hunfreed.takes
  refine ⟨fun _ => isHeld_iff hids, fun h resourceKey hheld => ?_, fun h => ⟨?_, ?_⟩⟩
  · exact (hreported resourceKey hheld).mp (h.1 resourceKey hheld)
  · exact fun resourceKey hheld => (hreported resourceKey hheld).mpr (h resourceKey hheld)
  · intro receipt retryHistory resourceKey hsame hheld
    rw [hsame]
    exact not_safe_of_reportedHeld ((hreported resourceKey hheld).mpr (h resourceKey hheld))

end

section

open scoped Js.Ascii

/-- An entry of a history of claims on one file. -/
def fileEntry (claimId ownerId : String) (event : ClaimHistoryEvent) : ClaimHistoryEntry :=
  ⟨some (text claimId), text "lane", text "file", text ownerId, .string (text "1"), event, none⟩

/-- A claim that is taken over and then found stale. -/
theorem reports_held_take_over :
    let claimHistory := [fileEntry "c1" "a" .acquired, fileEntry "c1" "a" .staleDetected,
      fileEntry "c1" "a" .released, fileEntry "c2" "b" .recovered, fileEntry "c2" "b" .staleDetected]
    ReportedHeld (buildResourceOwners claimHistory) (text "file") ∧ RetriesWait claimHistory := by
  intro claimHistory
  have hids : ClaimsOneResource claimHistory := by
    unfold ClaimsOneResource
    decide +kernel
  have hheld : IsHeld claimHistory (text "file") :=
    ⟨fileEntry "c2" "b" .recovered, ⟨claimHistory.take 3, [fileEntry "c2" "b" .staleDetected], rfl, rfl,
      fun later hlater hfrees => by rw [mem_singleton.mp hlater] at hfrees; cases hfrees⟩, rfl⟩
  have hlast : ∀ resourceKey, IsHeld claimHistory resourceKey →
      lastEvent claimHistory resourceKey ≠ some .released := by
    rintro resourceKey ⟨entry, hunfreed, rfl⟩
    have hall : ∀ entry ∈ claimHistory,
        lastEvent claimHistory entry.resourceKey ≠ some .released := by decide +kernel
    exact hall entry hunfreed.mem
  obtain ⟨hreported, hwait⟩ := (reports_held_iff claimHistory hids).2.mpr hlast
  exact ⟨hreported _ hheld, hwait⟩

/-- The previous owner releases its claim after another one has taken over. -/
theorem late_release_hides_claim :
    let claimHistory := [fileEntry "c1" "a" .acquired, fileEntry "c2" "b" .recovered,
      fileEntry "c1" "a" .released]
    ClaimsOneResource claimHistory ∧ IsHeld claimHistory (text "file")
      ∧ ¬ ReportedHeld (buildResourceOwners claimHistory) (text "file") ∧ ¬ RetriesWait claimHistory := by
  intro claimHistory
  have hheld : IsHeld claimHistory (text "file") :=
    ⟨fileEntry "c2" "b" .recovered, ⟨claimHistory.take 1, [fileEntry "c1" "a" .released], rfl, rfl,
      fun later hlater _ => by rw [mem_singleton.mp hlater]; decide +kernel⟩, rfl⟩
  refine ⟨by unfold ClaimsOneResource; decide +kernel, hheld, ?_, fun h => ?_⟩
  · unfold ReportedHeld
    decide +kernel
  · have hsafe := h ⟨text "2", none, claimHistory, [], false⟩ [] (text "file") rfl hheld
    revert hsafe
    decide +kernel

end

end Lumi.Subagent
