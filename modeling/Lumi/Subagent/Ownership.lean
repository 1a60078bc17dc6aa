import Lumi.Subagent.MergeGate
import Mathlib.Data.List.Pairwise

/-!
# What a passed merge gate certifies

Three things are read off the verdict: no resource is ever held by two owners
(`auditDuplicateClaims`), no claim outlives the swarm in a lane that should have released it
(`auditOrphanedClaims`), and lanes that write one path are ordered by the lane plan
(`auditMutationWriteOverlaps`).

The audits know a claim by `claimIdentity`.  For a claim without an id this is a text in which the
resource, the owner and the token are only separated by colons, so two claims may share it; the
first two results are about histories in which no entry meets such a claim while it is held.
-/

namespace Lumi.Subagent

open Js Holding Relation List InsertionMap

/-! ## The claims of a history -/

/-- A claim is known by its id, or else by its resource, owner and token. -/
inductive ClaimName
  | id (claimId : Text)
  | composed (resourceKey ownerId : Text) (fencingToken : FencingToken)
  deriving DecidableEq

def ClaimHistoryEntry.claimName (entry : ClaimHistoryEntry) : ClaimName :=
  match entry.claimId.filter (· ≠ []) with
  | some claimId => .id claimId
  | none => .composed entry.resourceKey entry.ownerId entry.fencingToken

variable {laneReceipts : List LaneExecutionReceipt}

/-- The lane of the receipts with this id, where it has one and needs no lock. -/
theorem lane_of_not_orphaned {lifecycle : ClaimLifecycleState}
    (hlanes : (laneReceipts.map (·.laneId)).Nodup)
    (h : auditOrphanedClaims lifecycle laneReceipts = 0) {entry : ClaimHistoryEntry}
    (hentry : entry ∈ lifecycle.active.values) :
    (∃ lane ∈ laneReceipts, lane.laneId = entry.laneId) ∧
      ∀ lane ∈ laneReceipts, lane.laneId = entry.laneId → lane.requiresLock = false := by
  have hnot := filter_eq_nil_iff.mp (length_eq_zero_iff.mp h) entry hentry
  cases hfind : laneReceipts.find? (·.laneId = entry.laneId) with
  | none => exact absurd (by rw [hfind]; rfl) hnot
  | some found =>
    have hid : found.laneId = entry.laneId := by simpa using find?_some hfind
    have hmem : found ∈ laneReceipts := mem_of_find?_eq_some hfind
    refine ⟨⟨found, hmem, hid⟩, fun lane hlane hlaneId => ?_⟩
    have hsame : lane = found :=
      inj_on_of_nodup_map hlanes hlane hmem (hlaneId.trans hid.symm)
    rw [hsame]
    rw [hfind] at hnot
    simpa using hnot

section

variable [Host]

theorem claimIdentity_of_claimName {a b : ClaimHistoryEntry} (h : a.claimName = b.claimName) :
    claimIdentity a = claimIdentity b := by
  unfold ClaimHistoryEntry.claimName at h
  unfold claimIdentity
  split at h <;> rename_i ha <;> split at h <;> rename_i hb
  · obtain rfl := ClaimName.id.inj h
    rw [ha, hb]
    rfl
  · cases h
  · cases h
  · obtain ⟨hresource, howner, htoken⟩ := ClaimName.composed.inj h
    rw [ha, hb, hresource, howner, htoken]

/-- No entry of the history meets a different claim that is held under its identity. -/
abbrev IdentitiesApart (claimHistory : List ClaimHistoryEntry) : Prop :=
  Apart ClaimHistoryEntry.kind ClaimHistoryEntry.claimName claimIdentity claimHistory

variable {claimHistory : List ClaimHistoryEntry} {entry : ClaimHistoryEntry}

theorem holds_identity_iff (h : IdentitiesApart claimHistory) :
    Holds ClaimHistoryEntry.kind claimIdentity claimHistory entry ↔
      Holds ClaimHistoryEntry.kind ClaimHistoryEntry.claimName claimHistory entry :=
  holds_coarse_iff (fun _ _ => claimIdentity_of_claimName) h

/-! ## Claims that are left -/

theorem reconcileEntry_active (s : ClaimLifecycleState) (entry : ClaimHistoryEntry) :
    (reconcileEntry s entry).active.get? =
      hold ClaimHistoryEntry.kind claimIdentity s.active.get? entry := by
  unfold reconcileEntry hold ClaimHistoryEntry.kind
  cases entry.event with
  | acquired => exact s.active.get?_set_eq_update _ _
  | recovered => exact s.active.get?_set_eq_update _ _
  | released => exact s.active.get?_delete_eq_update _
  | rejected => rfl
  | staleDetected => rfl

/-- **The active claims are those that are held.** -/
theorem reconcileClaimLifecycle_active (claimHistory : List ClaimHistoryEntry) :
    (reconcileClaimLifecycle claimHistory).active.get? =
      held ClaimHistoryEntry.kind claimIdentity claimHistory := by
  induction claimHistory using List.reverseRecOn with
  | nil => rfl
  | append_singleton claimHistory entry ih =>
    rw [held_concat, ← ih, ← reconcileEntry_active, reconcileClaimLifecycle, foldl_append]
    rfl

theorem mem_active_of_holds (h : Holds ClaimHistoryEntry.kind claimIdentity claimHistory entry) :
    entry ∈ (reconcileClaimLifecycle claimHistory).active.values := by
  refine mem_map.mpr ⟨(claimIdentity entry, entry), ?_, rfl⟩
  apply mem_entries_iff.mpr
  rw [reconcileClaimLifecycle_active]
  exact h

/-! ## Two owners of one resource -/

/-- The holders and the violations after a history. -/
def auditedClaims (claimHistory : List ClaimHistoryEntry) : ResourceHolders × List Text :=
  claimHistory.foldl auditDuplicateClaim (.empty, [])

theorem auditedClaims_concat (claimHistory : List ClaimHistoryEntry) (entry : ClaimHistoryEntry) :
    auditedClaims (claimHistory ++ [entry]) =
      auditDuplicateClaim (auditedClaims claimHistory) entry :=
  foldl_append

theorem auditedClaims_of_concat (h : (auditedClaims (claimHistory ++ [entry])).2 = []) :
    (auditedClaims claimHistory).2 = [] := by
  rw [auditedClaims_concat, auditDuplicateClaim] at h
  split at h
  · exact (append_eq_nil_iff.mp h).1
  · exact h
  · exact h

theorem auditedClaims_of_append {front rest : List ClaimHistoryEntry}
    (h : (auditedClaims (front ++ rest)).2 = []) : (auditedClaims front).2 = [] := by
  induction rest using List.reverseRecOn with
  | nil => simpa using h
  | append_singleton rest entry ih =>
    rw [← append_assoc] at h
    exact ih (auditedClaims_of_concat h)

namespace ResourceHolders

theorem of_take (holders : ResourceHolders) (entry : ClaimHistoryEntry) (resourceKey : Text) :
    (holders.take entry).of resourceKey =
      if resourceKey = entry.resourceKey
      then (holders.of entry.resourceKey).set (claimIdentity entry) entry
      else holders.of resourceKey := by
  rw [take, of, get?_set]
  split_ifs <;> rfl

theorem get?_of_release (holders : ResourceHolders) (entry : ClaimHistoryEntry)
    (resourceKey identity : Text) :
    ((holders.release entry).of resourceKey).get? identity =
      if resourceKey = entry.resourceKey ∧ identity = claimIdentity entry then none
      else (holders.of resourceKey).get? identity := by
  by_cases hresource : resourceKey = entry.resourceKey
  · subst hresource
    unfold release
    cases hget : holders.get? entry.resourceKey with
    | none => simp [of, hget]
    | some owners =>
      have hdelete := owners.get?_delete (claimIdentity entry) identity
      simp only [of, hget, true_and, Option.getD_some]
      split_ifs with hsize hidentity hidentity
      · simp
      · -- the last holder has left, and it is not the one asked for
        rw [if_neg hidentity] at hdelete
        have hempty : owners.delete (claimIdentity entry) = .empty :=
          InsertionMap.ext (length_eq_zero_iff.mp hsize)
        rw [← hdelete, hempty, get?_delete_self]
        rfl
      · simp [hidentity]
      · simp [hdelete, hidentity]
  · simp only [hresource, false_and, if_false]
    unfold release of
    cases hget : holders.get? entry.resourceKey with
    | none => rfl
    | some owners =>
      dsimp only
      split_ifs with hsize
      · rw [get?_delete_of_ne _ hresource]
      · rw [get?_set_of_ne _ _ hresource]

end ResourceHolders

/-- The holders hold every claim that was not freed, under one owner. -/
structure HoldersSound (claimHistory : List ClaimHistoryEntry) (holders : ResourceHolders) :
    Prop where
  held : ∀ entry, Unfreed ClaimHistoryEntry.kind ClaimHistoryEntry.claimName claimHistory entry →
    ∃ holder, (holders.of entry.resourceKey).get? (claimIdentity entry) = some holder ∧
      holder.ownerId = entry.ownerId
  oneOwner : ∀ resourceKey identity identity' holder holder',
    (holders.of resourceKey).get? identity = some holder →
    (holders.of resourceKey).get? identity' = some holder' → holder.ownerId = holder'.ownerId

theorem HoldersSound.take {holders : ResourceHolders} (h : HoldersSound claimHistory holders)
    (hkind : entry.kind = .takes)
    (howner : (holders.of entry.resourceKey).values.find? (·.ownerId ≠ entry.ownerId) = none) :
    HoldersSound (claimHistory ++ [entry]) (holders.take entry) := by
  have howner : ∀ identity holder, (holders.of entry.resourceKey).get? identity = some holder →
      holder.ownerId = entry.ownerId := by
    intro identity holder hholder
    have hmem : holder ∈ (holders.of entry.resourceKey).values :=
      mem_map.mpr ⟨_, mem_entries_iff.mpr hholder, rfl⟩
    simpa using find?_eq_none.mp howner holder hmem
  constructor
  · intro other hother
    rw [ResourceHolders.of_take]
    rcases hother.of_concat with ⟨-, rfl⟩ | ⟨hother, -⟩
    · exact ⟨other, by simp, rfl⟩
    · obtain ⟨holder, hholder, hsame⟩ := h.held other hother
      split_ifs with hresource
      · rw [hresource] at hholder
        rw [get?_set]
        split_ifs with hidentity
        · exact ⟨entry, rfl, ((howner _ _ hholder).symm.trans hsame)⟩
        · exact ⟨holder, hholder, hsame⟩
      · exact ⟨holder, hholder, hsame⟩
  · intro resourceKey identity identity' holder holder' hholder hholder'
    rw [ResourceHolders.of_take] at hholder hholder'
    split_ifs at hholder hholder' with hresource
    · -- everyone at this resource has the owner of the entry
      have hentry : ∀ identity holder,
          ((holders.of entry.resourceKey).set (claimIdentity entry) entry).get? identity
            = some holder → holder.ownerId = entry.ownerId := by
        intro identity holder hget
        rw [get?_set] at hget
        split_ifs at hget
        · rw [Option.some.inj hget]
        · exact howner _ _ hget
      rw [hentry _ _ hholder, hentry _ _ hholder']
    · exact h.oneOwner _ _ _ _ _ hholder hholder'

theorem HoldersSound.release {holders : ResourceHolders} (h : HoldersSound claimHistory holders)
    (hkind : entry.kind = .frees) (happart : IdentitiesApart (claimHistory ++ [entry])) :
    HoldersSound (claimHistory ++ [entry]) (holders.release entry) := by
  constructor
  · intro other hother
    rcases hother.of_concat with ⟨htakes, -⟩ | ⟨hother, hname⟩
    · rw [hkind] at htakes
      cases htakes
    · obtain ⟨holder, hholder, hsame⟩ := h.held other hother
      refine ⟨holder, ?_, hsame⟩
      rw [ResourceHolders.get?_of_release, if_neg, hholder]
      -- the released claim is another one, so it has another identity
      rintro ⟨-, hidentity⟩
      obtain ⟨last, hlast, hlastName⟩ := hother.exists_holds
      refine happart claimHistory entry [] rfl (by rw [hkind]; decide) last hlast ?_ ?_
      · rw [hlastName]
        exact (hname hkind).symm
      · rw [claimIdentity_of_claimName hlastName, hidentity]
  · intro resourceKey identity identity' holder holder' hholder hholder'
    rw [ResourceHolders.get?_of_release] at hholder hholder'
    split_ifs at hholder hholder'
    exact h.oneOwner _ _ _ _ _ hholder hholder'

/-- **Without violations the holders are sound.** -/
theorem holdersSound_auditedClaims (happart : IdentitiesApart claimHistory)
    (h : (auditedClaims claimHistory).2 = []) :
    HoldersSound claimHistory (auditedClaims claimHistory).1 := by
  induction claimHistory using List.reverseRecOn with
  | nil =>
    constructor
    · rintro entry ⟨front, rest, heq, -⟩
      exact absurd heq (by simp)
    · intro resourceKey identity identity' holder holder' hholder
      cases hholder
  | append_singleton claimHistory entry ih =>
    have ih := ih happart.front (auditedClaims_of_concat h)
    rw [auditedClaims_concat, auditDuplicateClaim] at h ⊢
    cases hkind : entry.kind with
    | takes =>
      simp only [hkind, append_eq_nil_iff, Option.toList_eq_nil_iff,
        Option.map_eq_none_iff] at h
      exact ih.take hkind h.2
    | frees => exact ih.release hkind happart
    | neither =>
      refine ⟨fun other hother => ?_, ih.oneOwner⟩
      rcases hother.of_concat with ⟨htakes, -⟩ | ⟨hother, -⟩
      · rw [hkind] at htakes
        cases htakes
      · exact ih.held other hother

end

/-! ## Lanes that write one path -/

/-- The lane depends on the other, by a node of the plan. -/
def DependsOn (dag : List LaneDAGNode) (index ancestor : ℕ) : Prop :=
  ∃ node ∈ dag, node.index = index ∧ ancestor ∈ node.dependsOn

variable {dag : List LaneDAGNode}

theorem dependsOn_of_edge {index ancestor : ℕ} (h : Reach.Edge (dependencies dag) index ancestor) :
    DependsOn dag index ancestor := by
  unfold Reach.Edge dependencies at h
  cases hfind : dag.find? (·.index = index) with
  | none =>
    rw [hfind] at h
    cases h
  | some node =>
    rw [hfind] at h
    exact ⟨node, mem_of_find?_eq_some hfind, by simpa using find?_some hfind, h⟩

theorem transGen_of_laneDependsOn {ancestor descendant : ℕ}
    (h : laneDependsOn ancestor descendant dag = true) :
    TransGen (DependsOn dag) descendant ancestor :=
  TransGen.mono (fun _ _ hedge => dependsOn_of_edge hedge) _ _ (Reach.transGen_of_reaches h)

section

variable (hacyclic : ∀ index, ¬TransGen (Reach.Edge (dependencies dag)) index index)
include hacyclic

/-- In a plan without a cycle the rounds of the search are enough. -/
theorem laneDependsOn_iff {ancestor descendant : ℕ} :
    laneDependsOn ancestor descendant dag = true ↔
      TransGen (Reach.Edge (dependencies dag)) descendant ancestor := by
  refine @Reach.reaches_iff _ _ _ hacyclic (dag.map (·.index)) (fun index h => ?_) _ (by simp) _ _
  cases hfind : dag.find? (·.index = index) with
  | none => exact absurd (by rw [dependencies, hfind]; rfl) h
  | some node =>
    have hindex : node.index = index := by simpa using find?_some hfind
    exact mem_map.mpr ⟨node, mem_of_find?_eq_some hfind, hindex⟩

/-- In a plan without a cycle the search is the recursion of the source. -/
theorem laneDependsOn_eq (ancestor descendant : ℕ) :
    laneDependsOn ancestor descendant dag =
      if ancestor = descendant then false
      else match dag.find? (·.index = descendant) with
        | none => false
        | some node => node.dependsOn.contains ancestor ||
            node.dependsOn.any (laneDependsOn ancestor · dag) := by
  split_ifs with hself
  · rw [hself, Bool.eq_false_iff, Ne, laneDependsOn_iff hacyclic]
    exact hacyclic descendant
  · have hdependencies : dependencies dag descendant =
        ((dag.find? (·.index = descendant)).map (·.dependsOn)).getD [] := rfl
    rw [Bool.eq_iff_iff, laneDependsOn_iff hacyclic, TransGen.head'_iff]
    cases hfind : dag.find? (·.index = descendant) with
    | none =>
      rw [hfind] at hdependencies
      simp [Reach.Edge, hdependencies]
    | some node =>
      rw [hfind] at hdependencies
      simp only [Reach.Edge, hdependencies, Option.map_some, Option.getD_some, Bool.or_eq_true,
        contains_iff_mem, any_eq_true]
      constructor
      · rintro ⟨next, hnext, hrest⟩
        rcases reflTransGen_iff_eq_or_transGen.mp hrest with rfl | hrest
        · exact .inl hnext
        · exact .inr ⟨next, hnext, (laneDependsOn_iff hacyclic).mpr hrest⟩
      · rintro (hdirect | ⟨next, hnext, hrest⟩)
        · exact ⟨ancestor, hdirect, .refl⟩
        · exact ⟨next, hnext, ((laneDependsOn_iff hacyclic).mp hrest).to_reflTransGen⟩

end

/-- The holder is among those of the path. -/
def HoldsPath (paths : InsertionMap Text (List PathHolder)) (filePath : Text)
    (holder : PathHolder) : Prop :=
  holder ∈ (paths.get? filePath).getD []

theorem holdsPath_set {paths : InsertionMap Text (List PathHolder)} {written filePath : Text}
    {writer holder : PathHolder}
    (h : HoldsPath paths filePath holder ∨ (written = filePath ∧ writer = holder)) :
    HoldsPath (paths.set written ((paths.get? written).getD [] ++ [writer])) filePath holder := by
  rw [HoldsPath, get?_set]
  rcases h with hholds | ⟨rfl, rfl⟩
  · split_ifs with hpath
    · subst hpath
      exact mem_append_left _ hholds
    · exact hholds
  · simp

variable {filePath : Text}

theorem holdsPath_foldl_set {paths : InsertionMap Text (List PathHolder)} {writePaths : List Text}
    {writer holder : PathHolder}
    (h : HoldsPath paths filePath holder ∨ (filePath ∈ writePaths ∧ writer = holder)) :
    HoldsPath (writePaths.foldl (fun paths written =>
      paths.set written ((paths.get? written).getD [] ++ [writer])) paths) filePath holder := by
  induction writePaths generalizing paths with
  | nil => exact h.resolve_right fun hnil => absurd hnil.1 not_mem_nil
  | cons written rest ih =>
    apply ih
    rcases h with hholds | ⟨hmem, hwriter⟩
    · exact .inl (holdsPath_set (.inl hholds))
    · rcases mem_cons.mp hmem with rfl | hrest
      · exact .inl (holdsPath_set (.inr ⟨rfl, hwriter⟩))
      · exact .inr ⟨hrest, hwriter⟩

/-- The lane is among the holders of each path it writes. -/
theorem holdsPath_pathToLanes {lane : LaneExecutionReceipt} (hlane : lane ∈ laneReceipts)
    (hpath : filePath ∈ lane.writePaths) :
    HoldsPath (pathToLanes laneReceipts) filePath ⟨lane.agentId, lane.index⟩ := by
  unfold pathToLanes
  generalize InsertionMap.empty = paths
  suffices hholds : ∀ paths, HoldsPath paths filePath ⟨lane.agentId, lane.index⟩ ∨
      lane ∈ laneReceipts → HoldsPath (laneReceipts.foldl _ paths) filePath _ from
    hholds paths (.inr hlane)
  clear hlane paths
  induction laneReceipts with
  | nil => exact fun paths h => h.resolve_right not_mem_nil
  | cons first rest ih =>
    intro paths h
    apply ih
    rcases h with hholds | hmem
    · exact .inl (holdsPath_foldl_set (.inl hholds))
    · rcases mem_cons.mp hmem with rfl | hrest
      · exact .inl (holdsPath_foldl_set (.inr ⟨hpath, rfl⟩))
      · exact .inr hrest

variable {laneDag : List LaneDAGNode}

theorem overlapAllowed_iff {holders : List PathHolder} :
    overlapAllowed laneDag holders = true ↔
      holders.Pairwise fun a b => isOverlapAllowedByDag a.index b.index laneDag = true := by
  induction holders with
  | nil => simp [overlapAllowed]
  | cons holder rest ih => rw [overlapAllowed, Bool.and_eq_true, pairwise_cons, ih,
      all_eq_true]

theorem isOverlapAllowedByDag_symm {a b : ℕ} (h : isOverlapAllowedByDag a b laneDag = true) :
    isOverlapAllowedByDag b a laneDag = true := by
  simp only [isOverlapAllowedByDag, Bool.or_eq_true, decide_eq_true_eq] at h ⊢
  rcases h with (hsame | hab) | hba
  · exact .inl (.inl hsame.symm)
  · exact .inr hab
  · exact .inl (.inr hba)

/-- **Lanes that write one path depend on one another.** -/
theorem dependsOn_of_auditMutationWriteOverlaps
    (h : (auditMutationWriteOverlaps laneReceipts laneDag).violations = [])
    {lane lane' : LaneExecutionReceipt} (hlane : lane ∈ laneReceipts)
    (hlane' : lane' ∈ laneReceipts) (hindex : lane.index ≠ lane'.index)
    (hpath : filePath ∈ lane.writePaths) (hpath' : filePath ∈ lane'.writePaths) :
    TransGen (DependsOn laneDag) lane.index lane'.index ∨
      TransGen (DependsOn laneDag) lane'.index lane.index := by
  have hholds := holdsPath_pathToLanes hlane hpath
  have hholds' := holdsPath_pathToLanes hlane' hpath'
  cases hget : (pathToLanes laneReceipts).get? filePath with
  | none =>
    rw [HoldsPath, hget] at hholds
    cases hholds
  | some holders =>
    rw [HoldsPath, hget, Option.getD_some] at hholds hholds'
    have hne : (⟨lane.agentId, lane.index⟩ : PathHolder) ≠ ⟨lane'.agentId, lane'.index⟩ :=
      fun heq => hindex (congrArg PathHolder.index heq)
    have hlen : 2 ≤ holders.length := by
      by_contra hlt
      match holders, hlt with
      | [], _ => cases hholds
      | [only], _ =>
        exact hne ((mem_singleton.mp hholds).trans (mem_singleton.mp hholds').symm)
      | _ :: _ :: _, hlt => simp at hlt
    have hallowed : overlapAllowed laneDag holders = true := by
      have hentry := mem_entries_iff.mpr hget
      have hnil := filter_eq_nil_iff.mp (map_eq_nil_iff.mp h) (filePath, holders)
        (mem_filter.mpr ⟨hentry, decide_eq_true hlen⟩)
      simpa using hnil
    have : Std.Symm fun a b : PathHolder => isOverlapAllowedByDag a.index b.index laneDag = true :=
      ⟨fun _ _ => isOverlapAllowedByDag_symm⟩
    have hpair := (overlapAllowed_iff.mp hallowed).forall hholds hholds' hne
    simp only [isOverlapAllowedByDag, Bool.or_eq_true, decide_eq_true_eq, hindex, false_or]
      at hpair
    rcases hpair with hab | hba
    · exact .inr (transGen_of_laneDependsOn hab)
    · exact .inl (transGen_of_laneDependsOn hba)

/-! ## The verdict -/

section

variable {χ : Type} [Host]

/-- Ownership is exclusive in what the gate was given. -/
structure OwnershipExclusive (input : MergeGateInput χ) : Prop where
  /-- In every prefix of the history the claims on a resource have one owner. -/
  oneOwner : ∀ front rest, input.claimHistory = front ++ rest → ∀ entry entry',
    Unfreed ClaimHistoryEntry.kind ClaimHistoryEntry.claimName front entry →
    Unfreed ClaimHistoryEntry.kind ClaimHistoryEntry.claimName front entry' →
    entry.resourceKey = entry'.resourceKey → entry.ownerId = entry'.ownerId
  /-- What is still held at the end, is held by a known lane that needs no lock. -/
  noneLeft : ∀ entry,
    Holds ClaimHistoryEntry.kind ClaimHistoryEntry.claimName input.claimHistory entry →
    (∃ lane ∈ input.laneReceipts, lane.laneId = entry.laneId) ∧
      ∀ lane ∈ input.laneReceipts, lane.laneId = entry.laneId → lane.requiresLock = false
  /-- Two lanes that write one path are ordered by the plan. -/
  writesOrdered : ∀ lane ∈ input.laneReceipts, ∀ lane' ∈ input.laneReceipts, lane ≠ lane' →
    ∀ filePath, filePath ∈ lane.writePaths → filePath ∈ lane'.writePaths →
    TransGen (DependsOn input.laneDag) lane.index lane'.index ∨
      TransGen (DependsOn input.laneDag) lane'.index lane.index

/-- **A passed gate certifies exclusive ownership**, where no claim meets another one that is held
under its identity. -/
theorem ownershipExclusive_of_passed {audits : OtherAudits χ} {input : MergeGateInput χ}
    (hlaneIds : (input.laneReceipts.map (·.laneId)).Nodup)
    (hindexes : (input.laneReceipts.map (·.index)).Nodup)
    (happart : IdentitiesApart input.claimHistory)
    (hpassed : (runMergeGate audits input).passed = true) : OwnershipExclusive input := by
  have hfound := auditSwarm_violations_of_passed hpassed
  simp only [auditSwarm, GateFindings.violations_addBlocking, GateFindings.violations_addAdvisory,
    append_eq_nil_iff] at hfound
  -- the audits in the order in which they are run
  obtain ⟨⟨⟨⟨⟨⟨⟨⟨⟨⟨⟨-, hoverlaps⟩, -⟩, -⟩, -⟩, -⟩, -⟩, hduplicates⟩, -⟩, -⟩, horphaned⟩, -⟩ := hfound
  constructor
  · rintro front rest hhistory entry entry' hentry hentry' hresource
    rw [hhistory] at happart hduplicates
    have hsound := holdersSound_auditedClaims happart.front (auditedClaims_of_append hduplicates)
    obtain ⟨holder, hholder, howner⟩ := hsound.held entry hentry
    obtain ⟨holder', hholder', howner'⟩ := hsound.held entry' hentry'
    rw [← hresource] at hholder'
    calc entry.ownerId = holder.ownerId := howner.symm
      _ = holder'.ownerId := hsound.oneOwner _ _ _ _ _ hholder hholder'
      _ = entry'.ownerId := howner'
  · intro entry hentry
    have hzero : auditOrphanedClaims (reconcileClaimLifecycle input.claimHistory)
        input.laneReceipts = 0 := by
      by_contra hne
      simp [counted, hne] at horphaned
    exact lane_of_not_orphaned hlaneIds hzero
      (mem_active_of_holds ((holds_identity_iff happart).mpr hentry))
  · intro lane hlane lane' hlane' hne filePath hpath hpath'
    have hindex : lane.index ≠ lane'.index :=
      fun heq => hne (inj_on_of_nodup_map hindexes hlane hlane' heq)
    exact dependsOn_of_auditMutationWriteOverlaps hoverlaps hlane hlane' hindex hpath hpath'

end

/-! ## Histories -/

namespace OwnershipSample

open scoped Js.Ascii

/-- Nothing is found in other places. -/
def quietAudits : OtherAudits Unit where
  verifyReplayArtifact _ := ⟨true, []⟩
  validateDeterministicReplay _ _ _ _ := ⟨true, []⟩
  explainReplayMismatch _ := []
  runRoadmapMergeAudit _ _ _ := ⟨true, []⟩
  evaluateConfidenceAwareConvergence _ _ := ⟨.converge, none⟩

def claim (event : ClaimHistoryEvent) (laneId ownerId fencingToken : String) : ClaimHistoryEntry :=
  ⟨none, text laneId, text "mutex:1", text ownerId, .string (text fencingToken), event, none⟩

def gateInput (laneReceipts : List LaneExecutionReceipt) (claimHistory : List ClaimHistoryEntry)
    (laneDag : List LaneDAGNode) : MergeGateInput Unit :=
  ⟨[], laneReceipts, claimHistory, laneDag, none, none, none, none, none, ()⟩

/-- `a:b` with token `c` releases what is held by `a` with token `b:c`. -/
def sharedIdentity : List ClaimHistoryEntry :=
  [claim .acquired "first" "a" "b:c", claim .released "first" "a:b" "c",
    claim .acquired "second" "z" "t", claim .released "second" "z" "t"]

/-- The gate passes a history in which two owners hold one resource. -/
theorem sharedIdentity_passed :
    ¬∀ (audits : OtherAudits Unit) (input : MergeGateInput Unit),
      (input.laneReceipts.map (·.laneId)).Nodup → (input.laneReceipts.map (·.index)).Nodup →
      (∀ index, ¬TransGen (DependsOn input.laneDag) index index) →
      (runMergeGate audits input).passed = true → OwnershipExclusive input := by
  intro hcertifies
  have hacyclic : ∀ index, ¬TransGen (DependsOn []) index index := by
    intro index hcycle
    obtain ⟨_, ⟨node, hnode, -⟩, -⟩ := TransGen.head'_iff.mp hcycle
    cases hnode
  have h := hcertifies quietAudits (gateInput [] sharedIdentity []) nodup_nil nodup_nil
    hacyclic (by decide +kernel)
  have hfirst : Unfreed ClaimHistoryEntry.kind ClaimHistoryEntry.claimName
      (sharedIdentity.take 3) (claim .acquired "first" "a" "b:c") :=
    ⟨[], (sharedIdentity.take 3).tail, rfl, rfl, by decide +kernel⟩
  have hsecond : Unfreed ClaimHistoryEntry.kind ClaimHistoryEntry.claimName
      (sharedIdentity.take 3) (claim .acquired "second" "z" "t") :=
    ⟨sharedIdentity.take 2, [], rfl, rfl, by decide +kernel⟩
  have howner := h.oneOwner _ (sharedIdentity.drop 3) rfl _ _ hfirst hsecond rfl
  exact absurd howner (by decide +kernel)

def mutationLane (laneId : String) (index : ℕ) : LaneExecutionReceipt where
  laneId := text laneId
  agentId := text laneId
  index := index
  status := .completed
  executionValidity := some .valid
  claimId := some (text "claim")
  claimReleased := true
  evidenceCount := 1
  touchedFiles := []
  transcriptArtifactPath := some (text "log")
  toolStepCount := some 1
  executionMode := .mutation
  lockRequired := true
  writeSet := some [text "src/a.ts"]
  roadmapMutationLockRequired := none
  roadmapMutationClaimReleased := none

/-- One lane after the other, on one resource and one file. -/
def laneAfterLane : MergeGateInput Unit :=
  gateInput [mutationLane "first" 0, mutationLane "second" 1]
    [claim .acquired "first" "first" "1", claim .staleDetected "first" "first" "1",
      claim .recovered "first" "first" "1", claim .released "first" "first" "1",
      claim .acquired "second" "second" "2", claim .released "second" "second" "2"]
    [⟨0, text "first", [], .sealed⟩, ⟨1, text "second", [0], .sealed⟩]

theorem laneAfterLane_exclusive : OwnershipExclusive laneAfterLane :=
  @ownershipExclusive_of_passed _ _ quietAudits _ (by decide +kernel) (by decide +kernel)
    (Apart.of_separated (by decide +kernel)) (by decide +kernel)

end OwnershipSample

end Lumi.Subagent
