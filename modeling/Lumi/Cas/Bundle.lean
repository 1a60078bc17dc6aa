import Lumi.Cas.Calls

/-!
# Bundles

A bundle has the commits, trees, blobs, branches and tags of a store, and the name of the
active branch, but neither HEAD nor the map of the change ids nor the chunks.  The import
sets no HEAD, rebuilds the map from the order of the commits, and makes every blob whole.
So a new store that imports the bundle of another answers as that one exactly if the
other one has no HEAD, and if what is rebuilt is what it had.
-/

namespace Lumi.Cas

open Js InsertionMap Option

namespace CasStore

/-! ## The imported store -/

theorem get?_importBlobs_eq (blobs : InsertionMap Text CasBlob)
    (imported : InsertionMap Text BundleBlob) (hash : Text) :
    (imported.entries.foldl importBlob blobs).get? hash = (blobs.get? hash).or
      ((imported.get? hash).map fun b => ⟨b.size, b.data, b.mimeType, none⟩) := by
  obtain ⟨entries, hnodup⟩ := imported
  induction entries generalizing blobs with
  | nil =>
    show blobs.get? hash = (blobs.get? hash).or none
    rw [or_none]
  | cons e rest ih =>
    rw [List.foldl_cons, ih _ (List.nodup_cons.mp hnodup).2, get?_cons]
    unfold importBlob
    by_cases hk : hash = e.1
    · subst hk
      cases hblob : blobs.get? e.1 with
      | some blob => simp only [isSome_some, if_true, hblob, some_or]
      | none => simp
    · rw [if_neg hk]
      split
      · rfl
      · rw [get?_set_of_ne _ _ hk]

/-- Commits that are not there yet are imported one after the other. -/
theorem importCommits_of_fresh (s : CasStore) {commits : List (Text × CheckpointNode)}
    (hnodup : (commits.map Prod.fst).Nodup) (hfresh : ∀ e ∈ commits, s.commits.get? e.1 = none) :
    commits.foldl importCommit s = { s with
      commits := commits.foldl (fun m e => m.set e.1 e.2) s.commits
      changeIdToCommitMap :=
        (commits.map fun e => (e.2.changeId, e.1)).foldl (fun m e => m.set e.1 e.2)
          s.changeIdToCommitMap } := by
  induction commits generalizing s with
  | nil => rfl
  | cons e rest ih =>
    rw [List.map_cons, List.nodup_cons] at hnodup
    have hone : s.importCommit e = { s with
        commits := s.commits.set e.1 e.2
        changeIdToCommitMap := s.changeIdToCommitMap.set e.2.changeId e.1 } := by
      rw [importCommit, hfresh e List.mem_cons_self]
      rfl
    rw [List.foldl_cons, hone, ih _ hnodup.2]
    · rfl
    · intro e' he'
      show (s.commits.set e.1 e.2).get? e'.1 = none
      rw [get?_set_of_ne]
      · exact hfresh e' (List.mem_cons_of_mem _ he')
      · intro heq
        exact hnodup.1 (List.mem_map.mpr ⟨e', he', heq⟩)

/-- A new store that has imported the bundle of a store. -/
def migrated (s : CasStore) : CasStore := CasStore.new.importGitBundle s.exportGitBundle

variable (s : CasStore)

theorem migrated_eq : s.migrated =
    { blobs := s.exportGitBundle.blobs.entries.foldl importBlob .empty
      chunks := .empty
      trees := s.exportGitBundle.trees
      commits := s.commits
      changeIdToCommitMap := .ofList (s.commits.entries.map fun e => (e.2.changeId, e.1))
      branches := s.branches
      tags := s.tags
      stagingArea := .empty
      activeBranch := if s.activeBranch ≠ [] then s.activeBranch else text "main"
      headId := none } := by
  have hcommits := importCommits_of_fresh
    { CasStore.new with
      blobs := s.exportGitBundle.blobs.entries.foldl importBlob .empty
      trees := s.exportGitBundle.trees.entries.foldl (fun trees e => trees.set e.1 e.2) .empty }
    s.commits.nodup fun _ _ => rfl
  refine Eq.trans (congrArg (fun t : CasStore => { t with
    branches := s.branches.entries.foldl
      (fun branches (e : Text × BranchRef) => branches.set e.1 e.2) t.branches
    tags := s.tags.entries.foldl (fun tags (e : Text × TagRef) => tags.set e.1 e.2) t.tags
    activeBranch := if s.activeBranch ≠ [] then s.activeBranch else t.activeBranch }) hcommits) ?_
  have htrees := s.exportGitBundle.trees.ofList_entries
  have hcommits' := s.commits.ofList_entries
  have hbranches := s.branches.ofList_entries
  have htags := s.tags.ofList_entries
  unfold InsertionMap.ofList at htrees hcommits' hbranches htags
  simp only [CasStore.new, htrees, hcommits', hbranches, htags]
  rfl

/-! ## What it answers -/

/-- The last commit, in the order of the commits, that has the change id. -/
def latestWith (changeId : Text) : Option Text :=
  (s.commits.entries.reverse.find? fun e => e.2.changeId = changeId).map Prod.fst

theorem getTree_migrated (treeHash : Text) :
    s.migrated.getTree treeHash
      = if treeHash = text "__proto__" then none else s.getTree treeHash := by
  rw [getTree, migrated_eq, exportGitBundle, get?_filterMap, getTree]
  unfold ownProperty
  cases s.trees.get? treeHash with
  | none => simp
  | some tree => rfl

theorem rehydrateBlob_migrated (hash : Text) :
    s.migrated.rehydrateBlob hash
      = if hash = text "__proto__" then none else (s.getBlob hash).map CasBlob.data := by
  have hblob : s.migrated.getBlob hash = if hash = text "__proto__" then none
      else (s.getBlob hash).map fun b => ⟨b.size, b.data, b.mimeType, none⟩ := by
    rw [getBlob, migrated_eq, get?_importBlobs_eq, get?_empty, none_or]
    rw [exportGitBundle, get?_filterMap, getBlob]
    unfold ownProperty
    cases s.blobs.get? hash with
    | none => simp
    | some blob =>
      by_cases hproto : hash = text "__proto__"
      · simp [hproto]
      · simp [hproto]
  rw [rehydrateBlob, hblob]
  by_cases hproto : hash = text "__proto__"
  · simp only [hproto, if_true]
  · simp only [hproto, if_false]
    cases s.getBlob hash with
    | none => rfl
    | some blob => rfl

theorem getCommitByChangeId_migrated (changeId : Text) :
    s.migrated.getCommitByChangeId changeId = s.findCommit (s.latestWith changeId) := by
  have hmap : s.migrated.changeIdToCommitMap.get? changeId = s.latestWith changeId := by
    rw [migrated_eq, get?_ofList_eq_find?, latestWith]
  have hcommits : s.migrated.commits = s.commits := by rw [migrated_eq]
  rw [getCommitByChangeId, hmap, findCommit, findCommit]
  unfold getCommit
  rw [hcommits]

variable [Runtime] {s}

/-- The one store answers as the other, and its next commit has the same parent. -/
structure AnswersAs (t s : CasStore) : Prop where
  head : t.getHead = s.getHead
  activeBranch : t.getActiveBranch = s.getActiveBranch
  commit : ∀ commitId, t.getCommit commitId = s.getCommit commitId
  commitByChangeId : ∀ changeId, t.getCommitByChangeId changeId = s.getCommitByChangeId changeId
  tree : ∀ treeHash, t.getTree treeHash = s.getTree treeHash
  blob : ∀ hash, t.rehydrateBlob hash = s.rehydrateBlob hash
  branch : ∀ name, t.getBranch name = s.getBranch name
  tags : t.listTags = s.listTags
  nextParent : ∀ draw message files frameIndex branchName existingChangeId,
    let r := t.createCommit draw message files frameIndex none branchName existingChangeId
    let r' := s.createCommit draw message files frameIndex none branchName existingChangeId
    (r.2.getCommit r.1).map CheckpointNode.parentId
      = (r'.2.getCommit r'.1).map CheckpointNode.parentId

/-- A bundle can hold the store: it has no HEAD, its active branch has a name, no tree and no
blob has the key `__proto__`, no blob misses a chunk, and each change id belongs to the last
commit that has it. -/
structure Portable (s : CasStore) : Prop where
  noHead : s.headId = none
  named : s.activeBranch ≠ []
  noTree : s.getTree (text "__proto__") = none
  noBlob : s.rehydrateBlob (text "__proto__") = none
  whole : ∀ hash, hash ≠ text "__proto__" → ∀ blob, s.getBlob hash = some blob →
    s.rehydrateBlob hash = some blob.data
  latest : ∀ changeId, s.getCommitByChangeId changeId = s.findCommit (s.latestWith changeId)

/-- The parent of the next commit is HEAD. -/
theorem parentId_createCommit (s : CasStore) (draw : Draw) (message : Text)
    (files : List FileInput) (frameIndex : ℕ) (branchName existingChangeId : Option Text) :
    let r := s.createCommit draw message files frameIndex none branchName existingChangeId
    (r.2.getCommit r.1).map CheckpointNode.parentId = some s.headId := by
  obtain ⟨commit, hcommits, hparent⟩ := s.createCommit_commits draw message files frameIndex none
    branchName existingChangeId
  intro r
  rw [getCommit, hcommits, get?_set_self, map_some, hparent, none_or]

/-- A new store that imports the bundle of a store answers as that one exactly if a bundle can
hold it. -/
theorem bundle_round_trip_iff (s : CasStore) : AnswersAs s.migrated s ↔ Portable s := by
  constructor
  · intro h
    have hparent : some s.migrated.headId = some s.headId := by
      rw [← s.migrated.parentId_createCommit ⟨0, []⟩ [] [] 0 none none,
        ← s.parentId_createCommit ⟨0, []⟩ [] [] 0 none none]
      exact h.nextParent ⟨0, []⟩ [] [] 0 none none
    have hnone : s.migrated.headId = none := by rw [migrated_eq]
    rw [hnone] at hparent
    refine ⟨(Option.some.inj hparent).symm, ?_, ?_, ?_, ?_, ?_⟩
    · intro hempty
      have hbranch := h.activeBranch
      have hmain : s.migrated.activeBranch = text "main" := by
        rw [migrated_eq]
        exact if_neg (not_not_intro hempty)
      rw [getActiveBranch, getActiveBranch, hmain, hempty] at hbranch
      exact absurd hbranch (by decide)
    · have htree := h.tree (text "__proto__")
      rw [getTree_migrated, if_pos rfl] at htree
      exact htree.symm
    · have hblob := h.blob (text "__proto__")
      rw [rehydrateBlob_migrated, if_pos rfl] at hblob
      exact hblob.symm
    · intro hash hproto blob hget
      have hblob := h.blob hash
      rw [rehydrateBlob_migrated, if_neg hproto, hget] at hblob
      exact hblob.symm
    · intro changeId
      rw [← getCommitByChangeId_migrated]
      exact (h.commitByChangeId changeId).symm
  · intro h
    have hhead : s.migrated.headId = s.headId := by
      rw [migrated_eq, h.noHead]
    refine ⟨?_, ?_, ?_, ?_, ?_, ?_, ?_, ?_, ?_⟩
    · rw [getHead, getHead, hhead, h.noHead]
      rfl
    · rw [getActiveBranch, getActiveBranch, migrated_eq]
      exact if_pos h.named
    · intro commitId
      rw [getCommit, getCommit, migrated_eq]
    · intro changeId
      rw [getCommitByChangeId_migrated, h.latest]
    · intro treeHash
      rw [getTree_migrated]
      split
      · next hproto => rw [hproto, h.noTree]
      · rfl
    · intro hash
      rw [rehydrateBlob_migrated]
      split
      · next hproto => rw [hproto, h.noBlob]
      · next hproto =>
        cases hblob : s.getBlob hash with
        | none =>
          rw [rehydrateBlob, hblob]
          rfl
        | some blob => exact (h.whole hash hproto blob hblob).symm
    · intro name
      rw [getBranch, getBranch, migrated_eq]
    · rw [listTags, listTags, migrated_eq]
    · intro draw message files frameIndex branchName existingChangeId r r'
      rw [s.migrated.parentId_createCommit draw message files frameIndex branchName
        existingChangeId, s.parentId_createCommit draw message files frameIndex branchName
        existingChangeId, hhead]

end CasStore

section

open Plain

/-- The next commit on the migrated branch is made without a parent. -/
theorem head_is_not_migrated :
    let s := CasStore.new.step (.createCommit ⟨1, text "f"⟩ (text "m") [] 1 none none none)
    ¬ s.migrated.AnswersAs s := by
  intro s h
  exact absurd h.head (by decide)

end

end Lumi.Cas
