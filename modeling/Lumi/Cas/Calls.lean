import Lumi.Lib.Run
import Lumi.Cas.History

/-!
# What the calls do

Merges, picks, reverts, squashes and commits of the staging area all end in one
`createCommit`, and a rebase in one for each commit that it replays.  They differ in the
files they gather and in the branch they name; here it is said once for each call, so that
no proof about runs has to go through its branches again.
-/

namespace Lumi.Cas

open Js

section

variable [Runtime] (s : CasStore)

namespace CasStore

/-! ## Commits -/

/-- Putting a blob touches the blobs and the chunks. -/
theorem putBlob_frame (data : Bytes) (mimeType : Option Text) :
    (s.putBlob data mimeType).2 = { s with
      blobs := (s.putBlob data mimeType).2.blobs
      chunks := (s.putBlob data mimeType).2.chunks } := by
  unfold putBlob
  split
  · rfl
  · split
    · rfl
    · rfl

theorem putFiles_frame (files : List FileInput) :
    (s.putFiles files).2 = { s with
      blobs := (s.putFiles files).2.blobs
      chunks := (s.putFiles files).2.chunks } := by
  induction files generalizing s with
  | nil => rfl
  | cons file rest ih =>
    show ((s.putBlob file.data none).2.putFiles rest).2 = { s with
      blobs := ((s.putBlob file.data none).2.putFiles rest).2.blobs
      chunks := ((s.putBlob file.data none).2.putFiles rest).2.chunks }
    rw [ih, s.putBlob_frame file.data none]

section

variable (draw : Draw) (message : Text) (files : List FileInput) (frameIndex : ℕ)
  (parentId branchName existingChangeId : Option Text)

/-- The id of the commit, and the branch on which it is made. -/
theorem createCommit_refs :
    let r := s.createCommit draw message files frameIndex parentId branchName existingChangeId
    r.2.headId = some r.1 ∧ r.2.activeBranch = s.activeBranch ∧
      ∃ createdAt, r.2.branches
        = s.branches.set (branchName.getD s.activeBranch) ⟨r.1, createdAt, draw.now⟩ := by
  have hframe := s.putFiles_frame files
  have hactive : (s.putFiles files).2.activeBranch = s.activeBranch := by rw [hframe]
  have hbranches : (s.putFiles files).2.branches = s.branches := by rw [hframe]
  refine ⟨rfl, hactive, ?_⟩
  simp only [createCommit, putTree, hactive, hbranches]
  exact ⟨_, rfl⟩

/-- The commits are those there were, and the new one, whose parent is HEAD if none is named. -/
theorem createCommit_commits :
    let r := s.createCommit draw message files frameIndex parentId branchName existingChangeId
    ∃ commit, r.2.commits = s.commits.set r.1 commit ∧ commit.parentId = parentId.or s.headId := by
  have hframe := s.putFiles_frame files
  have hcommits : (s.putFiles files).2.commits = s.commits := by rw [hframe]
  have hhead : (s.putFiles files).2.headId = s.headId := by rw [hframe]
  simp only [createCommit, putTree, hcommits, hhead]
  exact ⟨_, rfl, rfl⟩

end

/-! ## The other calls -/

section

variable (draw : Draw)

theorem step_commitStaged (message : Text) (frameIndex : ℕ) :
    s.step (.commitStaged draw message frameIndex) = s ∨
      s.step (.commitStaged draw message frameIndex)
        = (s.createCommit draw message s.stagedFiles frameIndex none none none).2.clearStaging := by
  show (s.commitStaged draw message frameIndex).2 = s ∨ _
  by_cases hsize : s.stagingArea.size = 0
  · rw [commitStaged, if_pos hsize]
    exact .inl rfl
  · refine .inr ?_
    show (s.commitStaged draw message frameIndex).2 = _
    rw [commitStaged, if_neg hsize]

theorem step_mergeCheckpoints (oursId theirsId : Text) (baseId : Option Text) :
    s.step (.mergeCheckpoints draw oursId theirsId baseId) = s ∨
      ∃ message files frameIndex, s.step (.mergeCheckpoints draw oursId theirsId baseId)
        = (s.createCommit draw message files frameIndex (some oursId) none none).2 := by
  have hwith (commitOurs commitTheirs : CheckpointNode) (ancestorId : Option Text) :
      (s.mergeWith draw oursId theirsId commitOurs commitTheirs ancestorId).2 = s ∨
        ∃ message files frameIndex,
          (s.mergeWith draw oursId theirsId commitOurs commitTheirs ancestorId).2
            = (s.createCommit draw message files frameIndex (some oursId) none none).2 := by
    by_cases hconflict : (MergeSides.mk (s.treeOf (some commitOurs)) (s.treeOf (some commitTheirs))
        (s.baseTree ancestorId)).conflicts.length > 0
    · left
      simp only [mergeWith, if_pos hconflict]
    · right
      simp only [mergeWith, if_neg hconflict]
      exact ⟨_, _, _, rfl⟩
  show ((s.mergeCheckpoints draw oursId theirsId baseId).map Prod.snd).getD s = s ∨
    ∃ message files frameIndex,
      ((s.mergeCheckpoints draw oursId theirsId baseId).map Prod.snd).getD s = _
  unfold mergeCheckpoints
  split
  · next commitOurs commitTheirs _ _ =>
    cases s.mergeAncestor oursId theirsId baseId with
    | none => exact .inl rfl
    | some ancestorId => exact hwith commitOurs commitTheirs ancestorId
  · exact .inl rfl

theorem step_cherryPick (commitId targetBranchName : Text) :
    s.step (.cherryPick draw commitId targetBranchName) = s ∨
      ∃ message files frameIndex parentId changeId,
        s.getCommit commitId ≠ none ∧ s.branches.get? targetBranchName ≠ none ∧
        s.step (.cherryPick draw commitId targetBranchName)
          = (s.createCommit draw message files frameIndex parentId (some targetBranchName)
              changeId).2 := by
  show (s.cherryPick draw commitId targetBranchName).2 = s ∨
    ∃ message files frameIndex parentId changeId, _ ∧ _ ∧
      (s.cherryPick draw commitId targetBranchName).2 = _
  unfold cherryPick
  split
  · next hcommit hbranch =>
    rw [hcommit, hbranch]
    exact .inr ⟨_, _, _, _, _, by simp, by simp, rfl⟩
  · exact .inl rfl

theorem step_revert (commitId : Text) :
    s.step (.revert draw commitId) = s ∨
      ∃ message files frameIndex, s.step (.revert draw commitId)
        = (s.createCommit draw message files frameIndex s.headId (some s.activeBranch) none).2 := by
  show (s.revert draw commitId).2 = s ∨ ∃ message files frameIndex,
    (s.revert draw commitId).2 = _
  unfold revert
  split
  · exact .inl rfl
  · exact .inr ⟨_, _, _, rfl⟩

theorem step_squash (commitIds : List Text) (message : Text) :
    s.step (.squash draw commitIds message) = s ∨
      ∃ files frameIndex parentId changeId, ∃ latestCommit : CheckpointNode,
        commitIds.getLast?.bind s.getCommit = some latestCommit ∧
        commitIds.head?.bind s.getCommit ≠ none ∧
        s.step (.squash draw commitIds message)
          = (s.createCommit draw message files frameIndex parentId latestCommit.branchName
              changeId).2 := by
  show (s.squash draw commitIds message).2 = s ∨
    ∃ files frameIndex parentId changeId, ∃ latestCommit : CheckpointNode, _ ∧ _ ∧
      (s.squash draw commitIds message).2 = _
  unfold squash
  split
  · next latestCommit _ hlatest holdest =>
    rw [holdest]
    exact .inr ⟨_, _, _, _, latestCommit, hlatest, by simp, rfl⟩
  · exact .inl rfl

end

theorem step_rebase (clock : ℕ → Draw) (sourceBranchName ontoBranchName : Text) :
    s.step (.rebase clock sourceBranchName ontoBranchName) = s ∨
      ∃ sourceBranch ontoBranch commits now,
        s.branches.get? sourceBranchName = some sourceBranch ∧
        s.branches.get? ontoBranchName = some ontoBranch ∧
        s.commitsToReplay sourceBranch.commitId ontoBranch.commitId = some commits ∧
        s.step (.rebase clock sourceBranchName ontoBranchName)
          = { (replay sourceBranchName clock 0 ontoBranch.commitId s commits).2 with
              branches := (replay sourceBranchName clock 0 ontoBranch.commitId s
                commits).2.branches.set sourceBranchName
                  ⟨(replay sourceBranchName clock 0 ontoBranch.commitId s commits).1,
                    sourceBranch.createdAt, now⟩ } := by
  show ((s.rebase clock sourceBranchName ontoBranchName).map Prod.snd).getD s = s ∨
    ∃ sourceBranch ontoBranch commits now, _ ∧ _ ∧ _ ∧
      ((s.rebase clock sourceBranchName ontoBranchName).map Prod.snd).getD s = _
  unfold rebase
  split
  · next sourceBranch ontoBranch hsource honto =>
    cases hcommits : s.commitsToReplay sourceBranch.commitId ontoBranch.commitId with
    | none => exact .inl rfl
    | some commits => exact .inr ⟨_, _, _, _, hsource, honto, hcommits, rfl⟩
  · exact .inl rfl

end CasStore

end

end Lumi.Cas
