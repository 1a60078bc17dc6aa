import Lumi.Cas.Calls

/-!
# HEAD and the active branch

`createCommit` moves HEAD and the branch that it is given, whether that is the active one
or not.  So HEAD leaves the active branch with every commit that is made on another one:
by a cherry-pick onto it, a rebase of it, a squash of its commits.  And it stays behind
where a ref is moved without a commit: by a rebase that has nothing to replay, by a switch
to a branch that was made before the first commit, or by the creation of the active
branch.  In all other runs it follows.
-/

namespace Lumi.Cas

open Js Option

/-- The calls that move HEAD and the refs by commits and branches. -/
def CasCall.OfBranches : CasCall → Prop
  | .setHead _ | .importGitBundle _ => False
  | _ => True

section

variable [Runtime] {s s' : CasStore}

namespace CasStore

/-- If the active branch has a ref, then HEAD is the commit of that ref. -/
def FollowsBranch (s : CasStore) : Prop :=
  ∀ ref ∈ s.getBranch s.getActiveBranch, s.getHead = s.findCommit (some ref.commitId)

instance (s : CasStore) : Decidable s.FollowsBranch :=
  inferInstanceAs (Decidable (∀ ref ∈ s.getBranch s.getActiveBranch,
    s.getHead = s.findCommit (some ref.commitId)))

/-- A cherry-pick onto, or a rebase of, a branch that is not active leaves HEAD alone. -/
def KeepsHead (s : CasStore) : CasCall → Prop
  | .cherryPick draw commitId targetBranchName =>
    targetBranchName ≠ s.getActiveBranch →
      (s.step (.cherryPick draw commitId targetBranchName)).getHead = s.getHead
  | .rebase clock sourceBranchName ontoBranchName =>
    sourceBranchName ≠ s.getActiveBranch →
      (s.step (.rebase clock sourceBranchName ontoBranchName)).getHead = s.getHead
  | _ => True

/-- A commit on the branch does not take HEAD away from the active one. -/
def CommitsTo (s : CasStore) (branch : Text) : Prop :=
  branch = s.getActiveBranch ∨ s.getBranch s.getActiveBranch = none

/-- The call moves HEAD and the ref of the active branch together, or neither. -/
def HeadSafe (s : CasStore) : CasCall → Prop
  | .createCommit _ _ _ _ _ branchName _ => s.CommitsTo (branchName.getD s.getActiveBranch)
  | .squash _ commitIds _ =>
    ∀ latestCommit ∈ commitIds.getLast?.bind s.getCommit,
      commitIds.head?.bind s.getCommit ≠ none →
        s.CommitsTo (latestCommit.branchName.getD s.getActiveBranch)
  | .cherryPick _ commitId targetBranchName =>
    s.getCommit commitId ≠ none → s.getBranch targetBranchName ≠ none →
      targetBranchName = s.getActiveBranch
  | .rebase _ sourceBranchName ontoBranchName =>
    ∀ sourceBranch ∈ s.getBranch sourceBranchName, ∀ ontoBranch ∈ s.getBranch ontoBranchName,
      ∀ commits ∈ s.commitsToReplay sourceBranch.commitId ontoBranch.commitId,
        if sourceBranchName = s.getActiveBranch then
          commits = [] → s.getHead = s.findCommit (some ontoBranch.commitId)
        else commits = []
  | .switchBranch name =>
    ∀ ref ∈ s.getBranch name, ref.commitId = text "root" →
      s.getHead = s.findCommit (some ref.commitId)
  | .createBranch name commitId _ =>
    name = s.getActiveBranch →
      s.getHead = s.findCommit (some ((commitId.or s.headId).getD (text "root")))
  | _ => True

/-! ## What keeps HEAD -/

omit [Runtime] in
theorem FollowsBranch.congr (h : s.FollowsBranch) (hhead : s'.headId = s.headId)
    (hactive : s'.activeBranch = s.activeBranch) (hbranches : s'.branches = s.branches)
    (hcommits : s'.commits = s.commits) : s'.FollowsBranch := by
  have hfind (id : Option Text) : s'.findCommit id = s.findCommit id := by
    unfold findCommit getCommit
    rw [hcommits]
  intro ref href
  rw [getHead, hfind, hfind, hhead]
  refine h ref ?_
  rwa [getBranch, getActiveBranch, ← hactive, ← hbranches]

omit [Runtime] in
/-- A ref that is moved is that of another branch, or it is moved to HEAD. -/
theorem followsBranch_setRef {name : Text} {ref : BranchRef}
    (hother : name ≠ s.activeBranch → s.FollowsBranch)
    (hself : name = s.activeBranch → s.getHead = s.findCommit (some ref.commitId)) :
    ({ s with branches := s.branches.set name ref } : CasStore).FollowsBranch := by
  intro ref' href
  have hget : (s.branches.set name ref).get? s.activeBranch = some ref' := href
  rw [InsertionMap.get?_set] at hget
  split at hget
  · next hname =>
    obtain rfl := Option.some.inj hget
    exact hself hname.symm
  · next hname => exact hother (Ne.symm hname) ref' hget

/-- A commit on the active branch moves its ref along with HEAD. -/
theorem followsBranch_createCommit (draw : Draw) (message : Text) (files : List FileInput)
    (frameIndex : ℕ) (parentId branchName existingChangeId : Option Text)
    (hbranch : s.CommitsTo (branchName.getD s.activeBranch)) :
    (s.createCommit draw message files frameIndex parentId branchName
      existingChangeId).2.FollowsBranch := by
  obtain ⟨hhead, hactive, createdAt, hbranches⟩ := s.createCommit_refs draw message files
    frameIndex parentId branchName existingChangeId
  intro ref href
  rw [getBranch, getActiveBranch, hactive, hbranches, mem_def, InsertionMap.get?_set] at href
  split at href
  · obtain rfl := Option.some.inj href
    rw [getHead, hhead]
  · next hne =>
    rw [← getActiveBranch, ← getBranch, hbranch.resolve_left (Ne.symm hne)] at href
    cases href

/-- The replayed commits move HEAD to the last of them. -/
theorem replay_refs (s : CasStore) (sourceBranchName : Text) (clock : ℕ → Draw) (i : ℕ)
    (newParentId : Text) (commits : List CheckpointNode) :
    let r := replay sourceBranchName clock i newParentId s commits
    r.2.activeBranch = s.activeBranch ∧ (commits ≠ [] → r.2.headId = some r.1) := by
  induction commits generalizing s i newParentId with
  | nil => exact ⟨rfl, fun h => absurd rfl h⟩
  | cons c rest ih =>
    obtain ⟨hhead, hactive, -⟩ := s.createCommit_refs (clock i) c.message
      (s.filesOf (s.treeOf (some c))) c.frameIndex (some newParentId) (some sourceBranchName)
      (some c.changeId)
    obtain ⟨hactive', hhead'⟩ := ih (s.createCommit (clock i) c.message
      (s.filesOf (s.treeOf (some c))) c.frameIndex (some newParentId) (some sourceBranchName)
      (some c.changeId)).2 (i + 1) (s.createCommit (clock i) c.message
      (s.filesOf (s.treeOf (some c))) c.frameIndex (some newParentId) (some sourceBranchName)
      (some c.changeId)).1
    refine ⟨hactive'.trans hactive, fun _ => ?_⟩
    cases rest with
    | nil => exact hhead
    | cons c' rest => exact hhead' (List.cons_ne_nil _ _)

omit [Runtime] in
/-- A commit that is written again stays where it is found. -/
theorem findCommit_overwrite {commitId : Text} {commit : CheckpointNode}
    (hcommit : s.getCommit commitId ≠ none) (hset : s'.commits = s.commits.set commitId commit)
    (id : Option Text) :
    s'.findCommit id
      = (s.findCommit id).map fun e => if e.1 = commitId then (e.1, commit) else e := by
  unfold findCommit
  cases truthy id with
  | none => rfl
  | some id =>
    show (s'.getCommit id).map _ = ((s.getCommit id).map _).map _
    rw [getCommit, hset, InsertionMap.get?_set]
    by_cases hid : id = commitId
    · obtain ⟨old, hold⟩ := ne_none_iff_exists'.mp hcommit
      rw [if_pos hid, hid, hold, map_some, map_some, map_some, if_pos rfl]
    · rw [if_neg hid, getCommit]
      cases s.commits.get? id with
      | none => rfl
      | some old => rw [map_some, map_some, if_neg hid]

theorem FollowsBranch.signCommit (h : s.FollowsBranch) (commitId : Text)
    (privateKeyHex publicKeyHex : Option Text) (now : ℕ) :
    ((s.signCommit commitId privateKeyHex publicKeyHex now).getD s).FollowsBranch := by
  unfold CasStore.signCommit
  cases hcommit : s.getCommit commitId with
  | none => exact h
  | some commit =>
    have hne : s.getCommit commitId ≠ none := by simp [hcommit]
    intro ref href
    exact (findCommit_overwrite hne rfl s.headId).trans
      ((congrArg (Option.map _) (h ref href)).trans
        (findCommit_overwrite hne rfl (some ref.commitId)).symm)

theorem followsBranch_rebase (h : s.FollowsBranch) (clock : ℕ → Draw)
    (sourceBranchName ontoBranchName : Text)
    (hsafe : s.HeadSafe (.rebase clock sourceBranchName ontoBranchName)) :
    (s.step (.rebase clock sourceBranchName ontoBranchName)).FollowsBranch ∧
      s.KeepsHead (.rebase clock sourceBranchName ontoBranchName) := by
  rcases s.step_rebase clock sourceBranchName ontoBranchName with
    hstep | ⟨sourceBranch, ontoBranch, commits, now, hsource, honto, hcommits, hstep⟩
  · refine ⟨by rwa [hstep], fun _ => ?_⟩
    rw [hstep]
  · have hsafe := hsafe sourceBranch hsource ontoBranch honto commits hcommits
    obtain ⟨hactive, hhead⟩ := s.replay_refs sourceBranchName clock 0 ontoBranch.commitId commits
    rw [KeepsHead, hstep]
    by_cases hname : sourceBranchName = s.getActiveBranch
    · rw [if_pos hname] at hsafe
      refine ⟨followsBranch_setRef ?_ fun _ => ?_, fun hne => absurd hname hne⟩
      · rw [hactive]
        exact fun hne => absurd hname hne
      · by_cases hnil : commits = []
        · -- nothing is replayed, and only the ref is moved
          subst hnil
          exact hsafe rfl
        · exact congrArg _ (hhead hnil)
    · rw [if_neg hname] at hsafe
      subst hsafe
      exact ⟨followsBranch_setRef (fun _ => h) fun heq => absurd heq hname, fun _ => rfl⟩

/-- **Step lemma.**  A safe call keeps HEAD with the active branch. -/
theorem FollowsBranch.step (h : s.FollowsBranch) (call : CasCall) (hcall : call.OfBranches)
    (hsafe : s.HeadSafe call) : (s.step call).FollowsBranch ∧ s.KeepsHead call := by
  cases call with
  | rebase clock sourceBranchName ontoBranchName =>
    exact followsBranch_rebase h clock sourceBranchName ontoBranchName hsafe
  | cherryPick draw commitId targetBranchName =>
    rw [KeepsHead]
    rcases s.step_cherryPick draw commitId targetBranchName with
      hstep | ⟨_, _, _, _, _, hcommit, hbranch, hstep⟩
    · rw [hstep]
      exact ⟨h, fun _ => rfl⟩
    · have hactive := hsafe hcommit hbranch
      rw [hstep]
      exact ⟨followsBranch_createCommit _ _ _ _ _ _ _ (.inl hactive),
        fun hne => absurd hactive hne⟩
  | setHead _ | importGitBundle _ => exact hcall.elim
  | putBlob data mimeType =>
    have hframe := s.putBlob_frame data mimeType
    refine ⟨?_, trivial⟩
    show (s.putBlob data mimeType).2.FollowsBranch
    rw [hframe]
    exact h.congr rfl rfl rfl rfl
  | putTree files =>
    have hframe := s.putFiles_frame files
    refine ⟨?_, trivial⟩
    show ({ (s.putFiles files).2 with trees := _ } : CasStore).FollowsBranch
    rw [hframe]
    exact h.congr rfl rfl rfl rfl
  | createCommit draw message files frameIndex parentId branchName existingChangeId =>
    exact ⟨followsBranch_createCommit _ _ _ _ _ _ _ hsafe, trivial⟩
  | commitStaged draw message frameIndex =>
    refine ⟨?_, trivial⟩
    rcases s.step_commitStaged draw message frameIndex with hstep | hstep
    · rwa [hstep]
    · rw [hstep]
      exact (followsBranch_createCommit draw message s.stagedFiles frameIndex none none none
        (.inl rfl)).congr rfl rfl rfl rfl
  | mergeCheckpoints draw oursId theirsId baseId =>
    refine ⟨?_, trivial⟩
    rcases s.step_mergeCheckpoints draw oursId theirsId baseId with hstep | ⟨_, _, _, hstep⟩
    · rwa [hstep]
    · rw [hstep]
      exact followsBranch_createCommit _ _ _ _ _ _ _ (.inl rfl)
  | revert draw commitId =>
    refine ⟨?_, trivial⟩
    rcases s.step_revert draw commitId with hstep | ⟨_, _, _, hstep⟩
    · rwa [hstep]
    · rw [hstep]
      exact followsBranch_createCommit _ _ _ _ _ _ _ (.inl rfl)
  | squash draw commitIds message =>
    refine ⟨?_, trivial⟩
    rcases s.step_squash draw commitIds message with
      hstep | ⟨_, _, _, _, latestCommit, hlatest, holdest, hstep⟩
    · rwa [hstep]
    · rw [hstep]
      exact followsBranch_createCommit _ _ _ _ _ _ _ (hsafe latestCommit hlatest holdest)
  | switchBranch name =>
    refine ⟨?_, trivial⟩
    show (s.switchBranch name).2.FollowsBranch
    unfold CasStore.switchBranch
    split
    · exact h
    · next branch hbranch =>
      intro ref href
      obtain rfl : branch = ref := Option.some.inj (hbranch.symm.trans href)
      by_cases hroot : branch.commitId = text "root"
      · have hsame := hsafe branch hbranch hroot
        rw [getHead]
        show CasStore.findCommit _ (if branch.commitId ≠ text "root" then _ else _) = _
        rw [if_neg (not_not_intro hroot)]
        exact hsame
      · rw [getHead]
        show CasStore.findCommit _ (if branch.commitId ≠ text "root" then _ else _) = _
        rw [if_pos hroot]
  | createBranch name commitId now =>
    exact ⟨followsBranch_setRef (fun _ => h) fun hname => hsafe hname, trivial⟩
  | signCommit commitId privateKeyHex publicKeyHex now =>
    exact ⟨h.signCommit commitId privateKeyHex publicKeyHex now, trivial⟩
  | clear =>
    refine ⟨fun ref href => ?_, trivial⟩
    cases href
  | stageFile _ _ _ _ | unstageFile _ | clearStaging | createTag _ _ _ _ | pruneOrphanBlobs =>
    exact ⟨h.congr rfl rfl rfl rfl, trivial⟩

omit [Runtime] in
theorem followsBranch_new : CasStore.new.FollowsBranch := by
  intro ref href
  cases href

end CasStore

/-- HEAD follows the active branch in every run of calls that are safe. -/
theorem head_follows_branch {calls : List CasCall} (hcalls : ∀ call ∈ calls, call.OfBranches)
    (hsafe : Run.Guarded CasStore.step CasStore.HeadSafe CasStore.new calls) :
    Run.Always CasStore.step CasStore.FollowsBranch CasStore.new calls ∧
      Run.Guarded CasStore.step CasStore.KeepsHead CasStore.new calls := by
  have hgen : ∀ (calls : List CasCall) (s : CasStore), s.FollowsBranch →
      (∀ call ∈ calls, call.OfBranches) → Run.Guarded CasStore.step CasStore.HeadSafe s calls →
        Run.Always CasStore.step CasStore.FollowsBranch s calls ∧
          Run.Guarded CasStore.step CasStore.KeepsHead s calls := by
    intro calls
    induction calls with
    | nil => exact fun s h _ _ => ⟨h, trivial⟩
    | cons call rest ih =>
      intro s h hcalls hsafe
      obtain ⟨hnext, hkeeps⟩ := h.step call (hcalls call List.mem_cons_self) hsafe.1
      obtain ⟨halways, hrest⟩ := ih _ hnext
        (fun call hcall => hcalls call (List.mem_cons_of_mem _ hcall)) hsafe.2
      exact ⟨⟨h, halways⟩, hkeeps, hrest⟩
  exact hgen calls CasStore.new CasStore.followsBranch_new hcalls hsafe

end

section

open Plain

/-- A branch is made, a commit is made on it, and both are left again. -/
theorem head_follows_switch :
    let calls : List CasCall := [.createCommit ⟨1, text "f"⟩ (text "m") [] 1 none none none,
      .createBranch (text "dev") none 2, .switchBranch (text "dev"),
      .createCommit ⟨3, text "f"⟩ (text "n") [] 1 none none none, .switchBranch (text "main")]
    Run.Always CasStore.step CasStore.FollowsBranch CasStore.new calls ∧
      Run.Guarded CasStore.step CasStore.KeepsHead CasStore.new calls := by
  intro calls
  refine head_follows_branch (fun call hcall => ?_) ?_
  · simp only [calls, List.mem_cons, List.not_mem_nil, or_false] at hcall
    rcases hcall with rfl | rfl | rfl | rfl | rfl <;> trivial
  · have hdev : ∀ ref ∈ (Run.run CasStore.step CasStore.new (calls.take 2)).getBranch (text "dev"),
        ref.commitId ≠ text "root" := by decide
    have hmain :
        ∀ ref ∈ (Run.run CasStore.step CasStore.new (calls.take 4)).getBranch (text "main"),
          ref.commitId ≠ text "root" := by decide
    exact ⟨.inl rfl, fun hactive => absurd hactive (by decide),
      fun ref href hroot => absurd hroot (hdev ref href), .inl rfl,
      fun ref href hroot => absurd hroot (hmain ref href), trivial⟩

/-- A commit on another branch takes HEAD along. -/
theorem commit_elsewhere_moves_head :
    ¬ Run.Always CasStore.step CasStore.FollowsBranch CasStore.new
      [.createCommit ⟨1, text "f"⟩ (text "m") [] 1 none none none,
        .createCommit ⟨2, text "f"⟩ (text "n") [] 1 none (some (text "dev")) none] := by
  rintro ⟨-, -, hfollows⟩
  have hapart : CasStore.FollowsBranch _ := hfollows
  exact absurd hapart (by decide)

end

end Lumi.Cas
