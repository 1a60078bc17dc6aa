import Lumi.Subagent.Ownership
import Mathlib.Data.List.Sort
import Mathlib.Data.List.Lex

/-!
# Reconciling the patches of the lanes

Each patch is checked on its own first; those that pass are then compared two by two, and both
patches of a conflicting pair are rejected.  What is left depends on the order of the lanes neither
in the first pass nor in the second, where a conflict is the same from both sides.

The table of compatible types is looked up under the sorted names, and one of its entries is not
sorted: a `move_lane` is never compatible with an `update_dependency` (`typesAreCompatible_iff`).
-/

namespace Lumi.Subagent

open Js Relation List

/-! ## Patches -/

inductive WorkspacePatchType
  | markComplete
  | moveLane
  | updateDependency
  | addBlockedReason
  | attachEvidence
  | updateOwnership
  | suggestFollowUp
  | advisoryOnly
  | reopenItem
  deriving DecidableEq

namespace WorkspacePatchType

def name : WorkspacePatchType → Text
  | markComplete => text "mark_complete"
  | moveLane => text "move_lane"
  | updateDependency => text "update_dependency"
  | addBlockedReason => text "add_blocked_reason"
  | attachEvidence => text "attach_evidence"
  | updateOwnership => text "update_ownership"
  | suggestFollowUp => text "suggest_follow_up"
  | advisoryOnly => text "advisory_only"
  | reopenItem => text "reopen_item"

/-- `REBASE_SAFE_TYPES`. -/
def rebaseSafe : List WorkspacePatchType :=
  [attachEvidence, addBlockedReason, suggestFollowUp, advisoryOnly]

/-- `CONFLICTING_TYPES`. -/
def conflicting : List WorkspacePatchType :=
  [markComplete, moveLane, updateDependency, updateOwnership]

/-- `COMPLETION_PATCH_TYPES`. -/
def completion : List WorkspacePatchType := [markComplete, reopenItem]

def all : List WorkspacePatchType :=
  [markComplete, moveLane, updateDependency, addBlockedReason, attachEvidence, updateOwnership,
    suggestFollowUp, advisoryOnly, reopenItem]

theorem mem_all (type : WorkspacePatchType) : type ∈ all := by
  cases type <;> decide

end WorkspacePatchType

inductive PatchConflictPolicy
  | failOnConflict
  | rebaseIfSafe
  | requireExplicitReopen
  deriving DecidableEq

structure ProposedWorkspacePatch where
  patchId : Text
  agentRoadmapId : Text
  laneId : Text
  agentId : Text
  type : WorkspacePatchType
  itemId : Text
  advisory : Bool
  baseSnapshotId : Option Text
  baseWorkspaceSnapshotId : Text
  evidencePointer : Option Text
  confidence : Option Number
  rationale : Option Text
  /-- Its `to`. -/
  expectedTransition : Option Text
  conflictPolicy : Option PatchConflictPolicy
  deriving DecidableEq

/-- A receipt with what the lane proposes for the roadmap. -/
structure RoadmapLaneReceipt extends LaneExecutionReceipt where
  roadmapItemId : Option Text
  agentRoadmapId : Option Text
  roadmapSnapshotId : Option Text
  projectedItems : Option (List Text)
  proposedWorkspacePatch : Option (List ProposedWorkspacePatch)

structure RejectedWorkspacePatch where
  patch : ProposedWorkspacePatch
  reason : Text
  deriving DecidableEq

inductive PatchRebaseOutcome
  | notNeeded
  | rebased
  | staleConflict
  | rejected
  deriving DecidableEq

structure PatchRebaseResult where
  patchId : Text
  agentRoadmapId : Text
  outcome : PatchRebaseOutcome
  fromSnapshotId : Text
  toSnapshotId : Option Text := none
  reason : Option Text := none

inductive RoadmapCommitStatus
  | pending
  | blocked
  | advisoryOnly
  | skipped

structure RoadmapPatchReconciliation where
  passed : Bool
  violations : List Text
  acceptedPatches : List ProposedWorkspacePatch
  rejectedPatches : List RejectedWorkspacePatch
  staleProjections : List Text
  rebaseResults : List PatchRebaseResult
  commitStatus : RoadmapCommitStatus
  workspaceSnapshotId : Option Text
  currentWorkspaceSnapshotId : Option Text

/-- The options of `runRoadmapPatchReconciliation`. -/
structure Reconciliation where
  laneReceipts : List RoadmapLaneReceipt
  laneDag : List LaneDAGNode
  workspaceSnapshotIdAtAdmit : Option Text
  currentWorkspaceSnapshotId : Option Text
  mergePassed : Bool
  knownItemIds : Option (List Text)
  completedItemIds : Option (List Text)

/-! ## The quality of a patch -/

section

variable (patch : ProposedWorkspacePatch)

def snapshotId : Text :=
  if patch.baseWorkspaceSnapshotId ≠ [] then patch.baseWorkspaceSnapshotId
  else patch.baseSnapshotId.getD []

def normalizePatchSnapshotFields : ProposedWorkspacePatch :=
  { patch with
    baseWorkspaceSnapshotId := snapshotId patch
    baseSnapshotId := some (snapshotId patch) }

/-- `VAGUE_RATIONALE.test(s)`. -/
def isVague (s : Text) : Bool :=
  s.map upperAscii ∈ [text "DONE", text "OK", text "YES", text "COMPLETE", text "FINISHED",
    text "N/A", text "NA", text "NONE"]

/-- `!value?.trim()`. -/
def isBlank (value : Option Text) : Bool := trim (value.getD []) = []

/-- The reasons of `validatePatchQuality`; without one the patch is valid. -/
def validatePatchQuality (knownItemIds : List Text) (lane : RoadmapLaneReceipt) : List Text :=
  let reason (missing : Bool) (message : String) := if missing then [text message] else []
  if patch.advisory || patch.type = .advisoryOnly then
    reason (isBlank patch.patchId) "missing patchId" ++
    reason (snapshotId patch = []) "missing baseWorkspaceSnapshotId" ++
    reason (isBlank patch.agentRoadmapId) "missing agentRoadmapId"
  else
    let rationale := trim (patch.rationale.getD [])
    let known := knownItemIds.contains patch.itemId ||
      lane.projectedItems.any (·.contains patch.itemId) || patch.itemId = text "workspace"
    reason (isBlank patch.patchId) "missing patchId" ++
    reason (isBlank patch.agentRoadmapId) "missing agentRoadmapId" ++
    reason (snapshotId patch = []) "missing baseWorkspaceSnapshotId" ++
    reason (isBlank patch.itemId) "missing target roadmap item" ++
    reason patch.conflictPolicy.isNone "missing conflict policy" ++
    reason (isBlank patch.expectedTransition) "missing expected state transition" ++
    reason (rationale.length < 8 || isVague rationale) "vague or missing rationale" ++
    reason (patch.confidence.all (·.less? (.finite (1 / 2)) = some true))
      "insufficient confidence" ++
    (if patch.type ∈ WorkspacePatchType.completion then
      reason (isBlank patch.evidencePointer) "completion patch missing evidence pointer" ++
      reason (lane.evidenceCount = 0 && !isGiven lane.transcriptArtifactPath)
        "lane has no evidence backing completion patch"
    else []) ++
    if !known && patch.type ≠ .suggestFollowUp then
      [text "unknown roadmap item '" ++ patch.itemId ++ text "'"]
    else []

/-! ## Each patch on its own -/

def attemptPatchRebase
    (workspaceSnapshotIdAtAdmit currentWorkspaceSnapshotId : Option Text) : PatchRebaseResult :=
  let base := snapshotId patch
  let result : PatchRebaseResult :=
    { patchId := patch.patchId
      agentRoadmapId := patch.agentRoadmapId
      outcome := .notNeeded
      fromSnapshotId := base }
  let admitted := some base = workspaceSnapshotIdAtAdmit &&
    currentWorkspaceSnapshotId ≠ workspaceSnapshotIdAtAdmit
  if !isGiven currentWorkspaceSnapshotId || some base = currentWorkspaceSnapshotId then result
  else if admitted && patch.type ∈ WorkspacePatchType.rebaseSafe then
    { result with
      outcome := .rebased
      toSnapshotId := currentWorkspaceSnapshotId
      reason := text "safe rebase onto current workspace snapshot" }
  else if admitted && patch.type ∈ WorkspacePatchType.conflicting then
    { result with
      outcome := .staleConflict
      toSnapshotId := currentWorkspaceSnapshotId
      reason := text "stale conflicting patch cannot rebase" }
  else if patch.conflictPolicy = some .requireExplicitReopen && patch.type ≠ .reopenItem then
    { result with outcome := .rejected, reason := text "explicit reopen policy required" }
  else
    { result with
      outcome := .staleConflict
      toSnapshotId := currentWorkspaceSnapshotId
      reason := text "stale roadmap snapshot — rebase not permitted" }

/-- The patch as it is kept after a rebase. -/
def rebasedPatch (rebase : PatchRebaseResult) : ProposedWorkspacePatch :=
  match rebase.outcome, rebase.toSnapshotId.filter (· ≠ []) with
  | .rebased, some toSnapshotId =>
    { patch with baseWorkspaceSnapshotId := toSnapshotId, baseSnapshotId := toSnapshotId }
  | _, _ => patch

end

abbrev Verdict : Type := Except RejectedWorkspacePatch ProposedWorkspacePatch

namespace Reconciliation

section

variable (options : Reconciliation)

/-- The lane a patch names. -/
def laneOf (patch : ProposedWorkspacePatch) : Option RoadmapLaneReceipt :=
  options.laneReceipts.find? (·.laneId = patch.laneId)

/-- `knownItemIds` with the items of the lanes. -/
def known : List Text :=
  options.knownItemIds.getD [] ++ options.laneReceipts.flatMap fun lane =>
    lane.projectedItems.getD [] ++ (lane.roadmapItemId.filter (· ≠ [])).toList

def allPatches : List ProposedWorkspacePatch :=
  options.laneReceipts.flatMap fun lane =>
    (lane.proposedWorkspacePatch.getD []).map normalizePatchSnapshotFields

/-- What follows the rebase. -/
def afterRebase (lane : RoadmapLaneReceipt) (patch : ProposedWorkspacePatch) : Verdict :=
  if (lane.status = .failed || lane.status = .collisionRejected) && patch.type = .markComplete
      && !patch.advisory then
    .error ⟨patch, text "failed lane cannot mark roadmap complete"⟩
  else if patch.advisory || patch.type = .advisoryOnly then .ok patch
  else if !options.mergePassed then .error ⟨patch, text "merge gate did not pass"⟩
  else if options.completedItemIds.any (·.contains patch.itemId) && patch.type ≠ .reopenItem then
    .error ⟨patch, text "patch targets completed item — explicit reopen_item policy required"⟩
  else .ok patch

/-- What one turn of the first loop adds. -/
structure PatchCheck where
  rebaseResult : Option PatchRebaseResult := none
  staleProjection : Option Text := none
  verdict : Verdict

def checkPatch (patch : ProposedWorkspacePatch) : PatchCheck :=
  match options.laneOf patch with
  | none => { verdict := .error ⟨patch, text "lane receipt missing"⟩ }
  | some lane =>
    let quality := validatePatchQuality patch options.known lane
    if quality ≠ [] && !patch.advisory && patch.type ≠ .advisoryOnly then
      { verdict := .error ⟨patch, joinWith (text "; ") quality⟩ }
    else
      let rebase := attemptPatchRebase patch options.workspaceSnapshotIdAtAdmit
        options.currentWorkspaceSnapshotId
      if rebase.outcome = .staleConflict || rebase.outcome = .rejected then
        { rebaseResult := rebase
          staleProjection := lane.agentRoadmapId.filter (· ≠ [])
          verdict := .error ⟨patch, rebase.reason.getD (text "stale projection")⟩ }
      else
        { rebaseResult := rebase
          verdict := options.afterRebase lane (rebasedPatch patch rebase) }

def isStale (lane : RoadmapLaneReceipt) : Bool :=
  isGiven lane.agentRoadmapId && isGiven options.currentWorkspaceSnapshotId &&
    isGiven lane.roadmapSnapshotId && isGiven options.workspaceSnapshotIdAtAdmit &&
    lane.roadmapSnapshotId ≠ options.workspaceSnapshotIdAtAdmit &&
    lane.roadmapSnapshotId ≠ options.currentWorkspaceSnapshotId

/-- The patches that pass the checks of the first loop. -/
def passing : List ProposedWorkspacePatch :=
  options.allPatches.filterMap fun patch => (options.checkPatch patch).verdict.toOption

/-- The patches that the first loop rejects. -/
def failing : List RejectedWorkspacePatch :=
  options.allPatches.filterMap fun patch =>
    match (options.checkPatch patch).verdict with
    | .error entry => some entry
    | .ok _ => none

end

end Reconciliation

/-! ## Two patches -/

def compatiblePairs : List Text :=
  [text "attach_evidence|mark_complete", text "attach_evidence|attach_evidence",
    text "add_blocked_reason|mark_complete", text "update_dependency|move_lane"]

def typesAreCompatible (a b : WorkspacePatchType) : Bool :=
  if a = b && a = .attachEvidence then true
  else if a = b && a ∈ WorkspacePatchType.conflicting then false
  else joinWith (text "|") ([a.name, b.name].insertionSort (· ≤ ·)) ∈ compatiblePairs

def patchesAreCompatible (a b : ProposedWorkspacePatch) : Bool :=
  a.itemId ≠ b.itemId || a.advisory || b.advisory || typesAreCompatible a.type b.type

/-- The pairs of a list with the earlier member first. -/
def pairs {α : Type*} : List α → List (α × α)
  | [] => []
  | a :: rest => rest.map (a, ·) ++ pairs rest

section

variable (options : Reconciliation)

/-- The body of the second loop adds a violation. -/
def Reconciliation.conflict (a b : ProposedWorkspacePatch) : Bool :=
  a.itemId = b.itemId && !a.advisory && !b.advisory &&
    match options.laneOf a, options.laneOf b with
    | some laneA, some laneB =>
      !isOverlapAllowedByDag laneA.index laneB.index options.laneDag && !patchesAreCompatible a b
    | _, _ => false

def Reconciliation.conflicts : List (ProposedWorkspacePatch × ProposedWorkspacePatch) :=
  (pairs options.passing).filter fun pair => options.conflict pair.1 pair.2

def runRoadmapPatchReconciliation : RoadmapPatchReconciliation :=
  let checks := options.allPatches.map options.checkPatch
  let violations := options.conflicts.map fun (a, b) =>
    text "conflicting workspace patches on '" ++ a.itemId ++ text "': " ++ a.agentId ++
      text ", " ++ b.agentId
  let rejectedPatches := options.failing ++ options.conflicts.flatMap fun (a, b) =>
    [⟨a, text "incompatible parallel patch from " ++ b.agentId⟩,
      ⟨b, text "incompatible parallel patch from " ++ a.agentId⟩]
  let rejectedIds := rejectedPatches.map (·.patch.patchId)
  let finalAccepted := options.passing.filter fun patch => !rejectedIds.contains patch.patchId
  let actionable := finalAccepted.filter fun p => !p.advisory && p.type ≠ .advisoryOnly
  { passed := violations = [] && rejectedPatches.all (·.patch.advisory)
    violations
    acceptedPatches := finalAccepted
    rejectedPatches
    staleProjections :=
      ((options.laneReceipts.filter options.isStale).filterMap (·.agentRoadmapId) ++
        checks.filterMap (·.staleProjection)).eraseDups
    rebaseResults := checks.filterMap (·.rebaseResult)
    commitStatus :=
      if violations ≠ [] || !options.mergePassed then .blocked
      else if actionable = [] then if finalAccepted ≠ [] then .advisoryOnly else .skipped
      else .pending
    workspaceSnapshotId := options.workspaceSnapshotIdAtAdmit
    currentWorkspaceSnapshotId := options.currentWorkspaceSnapshotId }

end

/-! ## The pairs of a list -/

section

variable {α : Type*} {a b : α} {items : List α}

theorem mem_of_mem_pairs (h : (a, b) ∈ pairs items) : a ∈ items ∧ b ∈ items := by
  induction items with
  | nil => cases h
  | cons first rest ih =>
    rcases mem_append.mp h with hfirst | hrest
    · obtain ⟨other, hother, heq⟩ := mem_map.mp hfirst
      cases heq
      exact ⟨mem_cons_self, mem_cons_of_mem _ hother⟩
    · exact ⟨mem_cons_of_mem _ (ih hrest).1, mem_cons_of_mem _ (ih hrest).2⟩

theorem mem_pairs_or (ha : a ∈ items) (hb : b ∈ items) (hne : a ≠ b) :
    (a, b) ∈ pairs items ∨ (b, a) ∈ pairs items := by
  induction items with
  | nil => cases ha
  | cons first rest ih =>
    rcases mem_cons.mp ha with rfl | ha'
    · have hb := (mem_cons.mp hb).resolve_left hne.symm
      exact .inl (mem_append_left _ (mem_map_of_mem hb))
    · rcases mem_cons.mp hb with rfl | hb
      · exact .inr (mem_append_left _ (mem_map_of_mem ha'))
      · exact (ih ha' hb).imp (mem_append_right _) (mem_append_right _)

/-- Being met by the loop over the pairs, for a relation without an order. -/
theorem exists_mem_pairs_iff {r : α → α → Bool} (hsymm : ∀ a b, r a b = r b a)
    (hirrefl : ∀ a, r a a = false) :
    (∃ pair ∈ (pairs items).filter fun pair => r pair.1 pair.2, a = pair.1 ∨ a = pair.2) ↔
      a ∈ items ∧ ∃ b ∈ items, r a b = true := by
  constructor
  · rintro ⟨⟨b, c⟩, hpair, hside⟩
    obtain ⟨hpair, hr⟩ := mem_filter.mp hpair
    obtain ⟨hb, hc⟩ := mem_of_mem_pairs hpair
    rcases hside with rfl | rfl
    · exact ⟨hb, c, hc, hr⟩
    · exact ⟨hc, b, hb, (hsymm _ _).trans hr⟩
  · rintro ⟨ha, b, hb, hr⟩
    have hne : a ≠ b := by
      rintro rfl
      rw [hirrefl] at hr
      cases hr
    rcases mem_pairs_or ha hb hne with hpair | hpair
    · exact ⟨(a, b), mem_filter.mpr ⟨hpair, hr⟩, .inl rfl⟩
    · exact ⟨(b, a), mem_filter.mpr ⟨hpair, (hsymm _ _).trans hr⟩, .inr rfl⟩

end

/-! ## Conflicts -/

section

variable (a b : WorkspacePatchType)

/-- The table lists the two types, in one order or the other. -/
def Listed : Prop :=
  a.name ++ text "|" ++ b.name ∈ compatiblePairs ∨ b.name ++ text "|" ++ a.name ∈ compatiblePairs

/-- The entry of the table that is not sorted. -/
def Unsorted : Prop :=
  (a = .moveLane ∧ b = .updateDependency) ∨ (a = .updateDependency ∧ b = .moveLane)

/-- **The table is read as it is written, its unsorted entry apart.** -/
theorem typesAreCompatible_iff : typesAreCompatible a b = true ↔ Listed a b ∧ ¬Unsorted a b := by
  unfold Listed Unsorted
  have htable : ∀ a ∈ WorkspacePatchType.all, ∀ b ∈ WorkspacePatchType.all,
      typesAreCompatible a b = true ↔
        (a.name ++ text "|" ++ b.name ∈ compatiblePairs ∨
          b.name ++ text "|" ++ a.name ∈ compatiblePairs) ∧
        ¬((a = .moveLane ∧ b = .updateDependency) ∨ (a = .updateDependency ∧ b = .moveLane)) := by
    decide +kernel
  exact htable a a.mem_all b b.mem_all

end

theorem listed_of_unsorted {a b : WorkspacePatchType} (h : Unsorted a b) : Listed a b := by
  unfold Listed
  rcases h with ⟨rfl, rfl⟩ | ⟨rfl, rfl⟩ <;> decide +kernel

namespace Reconciliation

variable {options : Reconciliation}

/-- What the callers give: a plan without a cycle, and lanes and patches that can be told apart. -/
structure WellFormed (options : Reconciliation) : Prop where
  acyclic : ∀ index, ¬TransGen (Reach.Edge (dependencies options.laneDag)) index index
  laneIds : (options.laneReceipts.map (·.laneId)).Nodup
  indices : (options.laneReceipts.map (·.index)).Nodup
  patchIds : (options.allPatches.map (·.patchId)).Nodup

/-- The patches come from two lanes, and neither depends on the other. -/
def Unrelated (options : Reconciliation) (a b : ProposedWorkspacePatch) : Prop :=
  ∃ laneA laneB, options.laneOf a = some laneA ∧ options.laneOf b = some laneB ∧ laneA ≠ laneB ∧
    ¬TransGen (Reach.Edge (dependencies options.laneDag)) laneA.index laneB.index ∧
    ¬TransGen (Reach.Edge (dependencies options.laneDag)) laneB.index laneA.index

/-- Two patches that may change one item at the same time. -/
structure Overlapping (options : Reconciliation) (a b : ProposedWorkspacePatch) : Prop where
  item : a.itemId = b.itemId
  advisory : a.advisory = false ∧ b.advisory = false
  lanes : options.Unrelated a b

/-- The two patches are not meant to be accepted together. -/
def Clash (options : Reconciliation) (a b : ProposedWorkspacePatch) : Prop :=
  options.Overlapping a b ∧ ¬(a.type = .attachEvidence ∧ b.type = .attachEvidence) ∧
    ¬Listed a.type b.type

/-- The two patches only meet the unsorted entry of the table. -/
def Misread (options : Reconciliation) (a b : ProposedWorkspacePatch) : Prop :=
  options.Overlapping a b ∧ Unsorted a.type b.type

variable {a b : ProposedWorkspacePatch}

theorem Unrelated.symm (h : options.Unrelated a b) : options.Unrelated b a := by
  obtain ⟨laneA, laneB, ha, hb, hne, hab, hba⟩ := h
  exact ⟨laneB, laneA, hb, ha, hne.symm, hba, hab⟩

theorem Overlapping.symm (h : options.Overlapping a b) : options.Overlapping b a :=
  ⟨h.item.symm, h.advisory.symm, h.lanes.symm⟩

theorem Clash.symm (h : options.Clash a b) : options.Clash b a :=
  ⟨h.1.symm, fun heq => h.2.1 heq.symm, fun hlisted => h.2.2 (Or.symm hlisted)⟩

theorem Misread.symm (h : options.Misread a b) : options.Misread b a :=
  ⟨h.1.symm, (Or.symm h.2).imp And.symm And.symm⟩

theorem Overlapping.irrefl {a : ProposedWorkspacePatch} : ¬options.Overlapping a a := by
  intro h
  obtain ⟨laneA, laneB, ha, hb, hne, -⟩ := h.lanes
  exact hne (Option.some.inj (ha.symm.trans hb))

theorem not_typesAreCompatible_iff {a b : WorkspacePatchType} :
    typesAreCompatible a b = false ↔
      (¬(a = .attachEvidence ∧ b = .attachEvidence) ∧ ¬Listed a b) ∨ Unsorted a b := by
  rw [Bool.eq_false_iff, Ne, typesAreCompatible_iff]
  constructor
  · intro hnot
    by_cases hunsorted : Unsorted a b
    · exact .inr hunsorted
    · refine .inl ⟨?_, fun hlisted => hnot ⟨hlisted, hunsorted⟩⟩
      rintro ⟨rfl, rfl⟩
      exact hnot ⟨by unfold Listed; decide +kernel, hunsorted⟩
  · rintro (⟨-, hnot⟩ | hunsorted) ⟨hlisted, hsorted⟩
    · exact hnot hlisted
    · exact hsorted hunsorted

section

variable (h : options.WellFormed)
include h

theorem unrelated_iff :
    options.Unrelated a b ↔ ∃ laneA laneB, options.laneOf a = some laneA ∧
      options.laneOf b = some laneB ∧
      isOverlapAllowedByDag laneA.index laneB.index options.laneDag = false := by
  refine exists_congr fun laneA => exists_congr fun laneB => and_congr_right fun ha =>
    and_congr_right fun hb => ?_
  rw [← Bool.not_eq_true, isOverlapAllowedByDag, Bool.or_eq_true, Bool.or_eq_true, decide_eq_true_eq,
    laneDependsOn_iff h.acyclic, laneDependsOn_iff h.acyclic, not_or, not_or, and_assoc]
  have hsame : laneA.index = laneB.index ↔ laneA = laneB :=
    ⟨inj_on_of_nodup_map h.indices (mem_of_find?_eq_some ha) (mem_of_find?_eq_some hb),
      fun heq => by rw [heq]⟩
  rw [hsame, and_comm (a := ¬TransGen _ laneA.index laneB.index)]

/-- **What the second loop takes for a conflict.** -/
theorem conflict_iff : options.conflict a b = true ↔ options.Clash a b ∨ options.Misread a b := by
  have hconflict : options.conflict a b = true ↔
      options.Overlapping a b ∧ typesAreCompatible a.type b.type = false := by
    have hoverlap : options.Overlapping a b ↔ a.itemId = b.itemId ∧
        (a.advisory = false ∧ b.advisory = false) ∧ options.Unrelated a b :=
      ⟨fun h => ⟨h.item, h.advisory, h.lanes⟩, fun h => ⟨h.1, h.2.1, h.2.2⟩⟩
    rw [hoverlap, unrelated_iff h, conflict, patchesAreCompatible]
    cases options.laneOf a <;> cases options.laneOf b <;> simp
    tauto
  rw [hconflict, not_typesAreCompatible_iff, Clash, Misread, and_or_left]

theorem conflict_symm (a b : ProposedWorkspacePatch) :
    options.conflict a b = options.conflict b a := by
  rw [Bool.eq_iff_iff, conflict_iff h, conflict_iff h]
  exact ⟨Or.imp Clash.symm Misread.symm, Or.imp Clash.symm Misread.symm⟩

theorem conflict_self (a : ProposedWorkspacePatch) : options.conflict a a = false := by
  rw [Bool.eq_false_iff, Ne, conflict_iff h]
  rintro (hclash | hmisread)
  · exact Overlapping.irrefl hclash.1
  · exact Overlapping.irrefl hmisread.1

end

/-! ## What is rejected -/

theorem rebasedPatch_patchId (patch : ProposedWorkspacePatch) (rebase : PatchRebaseResult) :
    (rebasedPatch patch rebase).patchId = patch.patchId := by
  unfold rebasedPatch
  split <;> rfl

/-- The patch of a verdict. -/
def verdictPatch : Verdict → ProposedWorkspacePatch
  | .error entry => entry.patch
  | .ok patch => patch

theorem checkPatch_patchId (patch : ProposedWorkspacePatch) :
    (verdictPatch (options.checkPatch patch).verdict).patchId = patch.patchId := by
  have hafter : ∀ lane patch, verdictPatch (options.afterRebase lane patch) = patch := by
    intro lane patch
    unfold afterRebase
    split_ifs <;> rfl
  unfold checkPatch
  cases options.laneOf patch with
  | none => rfl
  | some lane =>
    dsimp only
    split_ifs
    · rfl
    · rfl
    · rw [hafter, rebasedPatch_patchId]

variable {patch : ProposedWorkspacePatch}

theorem mem_passing_iff : patch ∈ options.passing ↔
    ∃ p ∈ options.allPatches, (options.checkPatch p).verdict = .ok patch := by
  have hok : ∀ verdict : Verdict, verdict.toOption = some patch ↔ verdict = .ok patch := by
    intro verdict
    cases verdict <;> simp [Except.toOption]
  simp only [passing, mem_filterMap, hok]

theorem eq_of_patchId_eq (h : options.WellFormed) {p q : ProposedWorkspacePatch}
    (hp : p ∈ options.allPatches) (hq : q ∈ options.allPatches)
    (heq : (verdictPatch (options.checkPatch p).verdict).patchId =
      (verdictPatch (options.checkPatch q).verdict).patchId) : p = q := by
  rw [checkPatch_patchId, checkPatch_patchId] at heq
  exact inj_on_of_nodup_map h.patchIds hp hq heq

/-- No patch both passes the first loop and is rejected by it. -/
theorem patchId_ne_of_mem_failing (h : options.WellFormed) {entry : RejectedWorkspacePatch}
    (hpatch : patch ∈ options.passing) (hentry : entry ∈ options.failing) :
    entry.patch.patchId ≠ patch.patchId := by
  obtain ⟨p, hp, hok⟩ := mem_passing_iff.mp hpatch
  obtain ⟨q, hq, herror⟩ := mem_filterMap.mp hentry
  cases hverdict : (options.checkPatch q).verdict with
  | ok other =>
    rw [hverdict] at herror
    cases herror
  | error other =>
    rw [hverdict] at herror
    cases herror
    intro heq
    cases eq_of_patchId_eq h hq hp (by rw [hok, hverdict]; exact heq)
    cases hverdict.symm.trans hok

theorem inj_of_mem_passing (h : options.WellFormed) (ha : a ∈ options.passing)
    (hb : b ∈ options.passing) (heq : a.patchId = b.patchId) : a = b := by
  obtain ⟨p, hp, hpOk⟩ := mem_passing_iff.mp ha
  obtain ⟨q, hq, hqOk⟩ := mem_passing_iff.mp hb
  cases eq_of_patchId_eq h hp hq (by rw [hpOk, hqOk]; exact heq)
  exact Except.ok.inj (hpOk.symm.trans hqOk)

def result (options : Reconciliation) : RoadmapPatchReconciliation :=
  runRoadmapPatchReconciliation options

theorem mem_rejectedPatches_iff {entry : RejectedWorkspacePatch} :
    entry ∈ options.result.rejectedPatches ↔ entry ∈ options.failing ∨
      ∃ pair ∈ options.conflicts,
        entry = ⟨pair.1, text "incompatible parallel patch from " ++ pair.2.agentId⟩ ∨
          entry = ⟨pair.2, text "incompatible parallel patch from " ++ pair.1.agentId⟩ := by
  simp only [result, runRoadmapPatchReconciliation, mem_append, mem_flatMap, mem_cons,
    not_mem_nil, or_false]

/-- **A patch that passes the first loop is rejected for its conflicts.** -/
theorem rejects_iff (h : options.WellFormed) (hpatch : patch ∈ options.passing) :
    (∃ entry ∈ options.result.rejectedPatches, entry.patch = patch) ↔
      ∃ other ∈ options.passing, options.conflict patch other = true := by
  have hpairs : (∃ pair ∈ options.conflicts, patch = pair.1 ∨ patch = pair.2) ↔ _ :=
    exists_mem_pairs_iff (conflict_symm h) (conflict_self h)
  rw [and_iff_right hpatch] at hpairs
  rw [← hpairs]
  constructor
  · rintro ⟨entry, hentry, rfl⟩
    rcases mem_rejectedPatches_iff.mp hentry with hfailing | ⟨pair, hpair, rfl | rfl⟩
    · exact absurd rfl (patchId_ne_of_mem_failing h hpatch hfailing)
    · exact ⟨pair, hpair, .inl rfl⟩
    · exact ⟨pair, hpair, .inr rfl⟩
  · rintro ⟨pair, hpair, rfl | rfl⟩
    · exact ⟨_, mem_rejectedPatches_iff.mpr (.inr ⟨pair, hpair, .inl rfl⟩), rfl⟩
    · exact ⟨_, mem_rejectedPatches_iff.mpr (.inr ⟨pair, hpair, .inr rfl⟩), rfl⟩

theorem mem_acceptedPatches_iff :
    patch ∈ options.result.acceptedPatches ↔ patch ∈ options.passing ∧
      ∀ entry ∈ options.result.rejectedPatches, entry.patch.patchId ≠ patch.patchId := by
  have haccepted : options.result.acceptedPatches = options.passing.filter fun patch =>
      !(options.result.rejectedPatches.map (·.patch.patchId)).contains patch.patchId := rfl
  rw [haccepted, mem_filter]
  simp

/-- **A patch is accepted if it passes the first loop and has no conflict.** -/
theorem accepts_iff (h : options.WellFormed) :
    patch ∈ options.result.acceptedPatches ↔ patch ∈ options.passing ∧
      ∀ other ∈ options.passing, options.conflict patch other = false := by
  rw [mem_acceptedPatches_iff]
  refine and_congr_right fun hpatch => ?_
  have hrejects := rejects_iff h hpatch
  constructor
  · intro hnone other hother
    rw [Bool.eq_false_iff]
    intro hconflict
    obtain ⟨entry, hentry, hsame⟩ := hrejects.mpr ⟨other, hother, hconflict⟩
    exact hnone entry hentry (congrArg _ hsame)
  · intro hnone entry hentry heq
    have hmem : entry.patch ∈ options.passing ∨ entry ∈ options.failing := by
      rcases mem_rejectedPatches_iff.mp hentry with hfailing | ⟨pair, hpair, rfl | rfl⟩
      · exact .inr hfailing
      · exact .inl (mem_of_mem_pairs (mem_filter.mp hpair).1).1
      · exact .inl (mem_of_mem_pairs (mem_filter.mp hpair).1).2
    rcases hmem with hpassing | hfailing
    · have hsame := inj_of_mem_passing h hpassing hpatch heq
      obtain ⟨other, hother, hconflict⟩ := hrejects.mp ⟨entry, hentry, hsame⟩
      rw [hnone other hother] at hconflict
      cases hconflict
    · exact patchId_ne_of_mem_failing h hpatch hfailing heq

/-! ## The order of the lanes -/

section

variable {laneReceipts : List RoadmapLaneReceipt} (hperm : laneReceipts.Perm options.laneReceipts)
include hperm

section

variable (h : options.WellFormed)
include h

theorem WellFormed.perm :
    WellFormed { options with laneReceipts } where
  acyclic := h.acyclic
  laneIds := (hperm.map _).nodup_iff.mpr h.laneIds
  indices := (hperm.map _).nodup_iff.mpr h.indices
  patchIds := ((hperm.flatMap_right _).map _).nodup_iff.mpr h.patchIds

theorem laneOf_perm (patch : ProposedWorkspacePatch) :
    laneOf { options with laneReceipts } patch = options.laneOf patch := by
  have hfound : ∀ {lanes : List RoadmapLaneReceipt} {lane}, (lanes.map (·.laneId)).Nodup →
      (lanes.find? (·.laneId = patch.laneId) = some lane ↔
        lane ∈ lanes ∧ lane.laneId = patch.laneId) := by
    intro lanes lane hnodup
    constructor
    · intro hfind
      exact ⟨mem_of_find?_eq_some hfind, by simpa using find?_some hfind⟩
    · rintro ⟨hmem, hid⟩
      cases hfind : lanes.find? (·.laneId = patch.laneId) with
      | none => exact absurd hid (by simpa using find?_eq_none.mp hfind lane hmem)
      | some found =>
        have hfoundId : found.laneId = patch.laneId := by simpa using find?_some hfind
        rw [inj_on_of_nodup_map hnodup (mem_of_find?_eq_some hfind) hmem
          (hfoundId.trans hid.symm)]
  apply Option.ext
  intro lane
  exact (hfound (h.perm hperm).laneIds).trans
    ((and_congr_left' hperm.mem_iff).trans (hfound h.laneIds).symm)

theorem checkPatch_perm (patch : ProposedWorkspacePatch) :
    checkPatch { options with laneReceipts } patch = options.checkPatch patch := by
  have hknown : ∀ itemId, (known { options with laneReceipts }).contains itemId =
      options.known.contains itemId := fun itemId =>
    (((hperm.flatMap_right _).append_left _)).contains_eq
  have hquality : ∀ lane, validatePatchQuality patch (known { options with laneReceipts }) lane =
      validatePatchQuality patch options.known lane := by
    intro lane
    rw [validatePatchQuality, validatePatchQuality, hknown]
  unfold checkPatch
  rw [laneOf_perm hperm h]
  cases options.laneOf patch with
  | none => rfl
  | some lane =>
    dsimp only
    rw [hquality]
    rfl

theorem mem_passing_perm {patch : ProposedWorkspacePatch} :
    patch ∈ passing { options with laneReceipts } ↔ patch ∈ options.passing := by
  rw [mem_passing_iff, mem_passing_iff]
  apply exists_congr
  intro p
  rw [checkPatch_perm hperm h]
  exact and_congr_left' (hperm.flatMap_right _).mem_iff

theorem accepts_perm {patch : ProposedWorkspacePatch} :
    patch ∈ (result { options with laneReceipts }).acceptedPatches ↔
      patch ∈ options.result.acceptedPatches := by
  have hconflict : ∀ a b, conflict { options with laneReceipts } a b = options.conflict a b := by
    intro a b
    rw [conflict, conflict, laneOf_perm hperm h, laneOf_perm hperm h]
  rw [accepts_iff (h.perm hperm), accepts_iff h, mem_passing_perm hperm h]
  refine and_congr_right fun _ => forall_congr' fun other => ?_
  rw [mem_passing_perm hperm h, hconflict]

end

end

/-- The outcome does not depend on the order of the lanes, and it rejects what is in conflict. -/
structure Reconciled (options : Reconciliation) : Prop where
  anyOrder : ∀ laneReceipts, laneReceipts.Perm options.laneReceipts → ∀ patch,
    patch ∈ (result { options with laneReceipts }).acceptedPatches ↔
      patch ∈ options.result.acceptedPatches
  notBoth : ∀ patch ∈ options.result.acceptedPatches,
    ∀ entry ∈ options.result.rejectedPatches, entry.patch ≠ patch
  rejects : ∀ patch ∈ options.passing,
    (∃ entry ∈ options.result.rejectedPatches, entry.patch = patch) ↔
      ∃ other ∈ options.passing, options.Clash patch other

/-- **Reconciliation is right unless a patch is rejected for the unsorted entry alone.** -/
theorem reconciled_iff (h : options.WellFormed) :
    options.Reconciled ↔ ∀ a ∈ options.passing, ∀ b ∈ options.passing, options.Misread a b →
      ∃ other ∈ options.passing, options.Clash a other := by
  constructor
  · intro hreconciled a ha b hb hmisread
    apply (hreconciled.rejects a ha).mp
    exact (rejects_iff h ha).mpr ⟨b, hb, (conflict_iff h).mpr (Or.inr hmisread)⟩
  · intro hmisread
    refine ⟨fun _ hperm _ => accepts_perm hperm h, ?_, ?_⟩
    · intro patch hpatch entry hentry heq
      exact (mem_acceptedPatches_iff.mp hpatch).2 entry hentry (congrArg _ heq)
    · intro patch hpatch
      rw [rejects_iff h hpatch]
      constructor
      · rintro ⟨other, hother, hconflict⟩
        rcases (conflict_iff h).mp hconflict with hclash | hread
        · exact ⟨other, hother, hclash⟩
        · exact hmisread patch hpatch other hother hread
      · rintro ⟨other, hother, hclash⟩
        exact ⟨other, hother, (conflict_iff h).mpr (Or.inl hclash)⟩

/-- A patch of an agent on one item. -/
def examplePatch (lane : Text) (type : WorkspacePatchType) : ProposedWorkspacePatch where
  patchId := lane
  agentRoadmapId := lane
  laneId := lane
  agentId := lane
  type
  itemId := text "workspace"
  advisory := false
  baseSnapshotId := none
  baseWorkspaceSnapshotId := text "s1"
  evidencePointer := none
  confidence := some (.finite 1)
  rationale := text "reordered"
  expectedTransition := text "moved"
  conflictPolicy := some .failOnConflict

def exampleLane (lane : Text) (index : ℕ) (type : WorkspacePatchType) : RoadmapLaneReceipt where
  laneId := lane
  agentId := lane
  index
  status := .completed
  executionValidity := none
  claimId := none
  claimReleased := true
  evidenceCount := 1
  touchedFiles := []
  transcriptArtifactPath := none
  toolStepCount := none
  executionMode := .planningOnly
  lockRequired := false
  writeSet := none
  roadmapMutationLockRequired := none
  roadmapMutationClaimReleased := none
  roadmapItemId := none
  agentRoadmapId := none
  roadmapSnapshotId := none
  projectedItems := none
  proposedWorkspacePatch := some [examplePatch lane type]

/-- Two independent lanes with a patch each. -/
def twoLanes (first second : WorkspacePatchType) : Reconciliation where
  laneReceipts := [exampleLane (text "a") 0 first, exampleLane (text "b") 1 second]
  laneDag := []
  workspaceSnapshotIdAtAdmit := none
  currentWorkspaceSnapshotId := none
  mergePassed := true
  knownItemIds := none
  completedItemIds := none

theorem wellFormed_twoLanes (first second : WorkspacePatchType) :
    (twoLanes first second).WellFormed where
  acyclic := by
    intro index h
    obtain ⟨next, hedge, -⟩ := TransGen.head'_iff.mp h
    cases hedge
  laneIds := show [text "a", text "b"].Nodup by decide
  indices := show [0, 1].Nodup by decide
  patchIds := show [text "a", text "b"].Nodup by decide

theorem reconciled_evidence : (twoLanes .attachEvidence .attachEvidence).Reconciled :=
  (reconciled_iff (wellFormed_twoLanes _ _)).mpr (by
    have hpassing : ∀ patch ∈ (twoLanes .attachEvidence .attachEvidence).passing,
        patch.type = .attachEvidence := by decide +kernel
    intro a ha b _ hmisread
    rcases hmisread.2 with ⟨htype, -⟩ | ⟨htype, -⟩
    · cases (hpassing a ha).symm.trans htype
    · cases (hpassing a ha).symm.trans htype)

/-- A moved lane and a changed dependency are listed as compatible, and both are rejected. -/
theorem unsorted_pair_rejected : (twoLanes .moveLane .updateDependency).WellFormed ∧
    ¬(twoLanes .moveLane .updateDependency).Reconciled := by
  refine ⟨wellFormed_twoLanes _ _, fun h => ?_⟩
  have hpassing : normalizePatchSnapshotFields (examplePatch (text "a") .moveLane) ∈
      (twoLanes .moveLane .updateDependency).passing := by decide +kernel
  have hrejected : ∃ entry ∈ (twoLanes .moveLane .updateDependency).result.rejectedPatches,
      entry.patch = normalizePatchSnapshotFields (examplePatch (text "a") .moveLane) := by
    decide +kernel
  obtain ⟨other, hother, hclash⟩ := (h.rejects _ hpassing).mp hrejected
  have hothers : ∀ other ∈ (twoLanes .moveLane .updateDependency).passing,
      other = normalizePatchSnapshotFields (examplePatch (text "a") .moveLane) ∨
        other.type = .updateDependency := by decide +kernel
  rcases hothers other hother with rfl | htype
  · exact Overlapping.irrefl hclash.1
  · exact hclash.2.2 (listed_of_unsorted (Or.inl ⟨rfl, htype⟩))

end Reconciliation

end Lumi.Subagent
