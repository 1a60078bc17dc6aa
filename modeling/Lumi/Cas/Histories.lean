import Lumi.Cas.Picks

/-!
# Histories that the calls make

As long as every list of files that is passed in has distinct paths, and no bundle is imported, the
trees of all commits are kept (`tidy_run`): merges, picks, reverts, rebases, squashes and commits of
the staging area make trees of files of trees that are, and a collection leaves what commits list.
-/

namespace Lumi.Cas

open Js List InsertionMap

/-- The files that are passed in have distinct paths, and no bundle is imported. -/
def CasCall.Distinct : CasCall → Prop
  | .putTree files | .createCommit _ _ files _ _ _ _ =>
    (files.map fun f => cleanPath f.path).Nodup
  | .importGitBundle _ => False
  | _ => True

section

variable [Runtime] {s s' : CasStore} {tree : List TreeEntry}

/-- Blobs are under the hashes of their data, staged files and those in trees under clean paths, and
the trees of the commits are kept. -/
structure Tidy (s : CasStore) : Prop where
  hashed : ∀ {hash blob}, s.getBlob hash = some blob → sha256 blob.data = hash
  staged : ∀ path ∈ s.stagingArea.keys, cleanPath path = path
  listed : ∀ {treeHash tree}, s.getTree treeHash = some tree → ∀ e ∈ tree, cleanPath e.path = e.path
  kept : WellKept s

theorem Tidy.congr (h : Tidy s) (hblobs : s'.blobs = s.blobs) (htrees : s'.trees = s.trees)
    (hcommits : s'.commits = s.commits)
    (hstaged : ∀ path ∈ s'.stagingArea.keys, cleanPath path = path) : Tidy s' where
  hashed := by
    intro hash blob hblob
    rw [CasStore.getBlob, hblobs] at hblob
    exact h.hashed hblob
  staged := hstaged
  listed := by
    intro treeHash tree htree
    rw [CasStore.getTree, htrees] at htree
    exact h.listed htree
  kept := by
    intro commitId commit hcommit
    rw [CasStore.getCommit, hcommits] at hcommit
    have htree := h.kept commitId commit hcommit
    have hsame : s'.treeOf (some commit) = s.treeOf (some commit) := by
      rw [CasStore.treeOf, CasStore.treeOf, Option.bind_some, Option.bind_some, CasStore.getTree,
        CasStore.getTree, htrees]
    rw [hsame]
    refine ⟨htree.nodup, htree.clean, fun e he => ?_⟩
    rw [CasStore.getBlob, hblobs]
    exact htree.stored e he

/-! ## Putting files -/

section

variable (h : ∀ {hash blob}, s.getBlob hash = some blob → sha256 blob.data = hash)
include h

theorem hashed_putBlob (data : Bytes) (mimeType : Option Text) {hash : Text} {blob : CasBlob}
    (hblob : (s.putBlob data mimeType).2.getBlob hash = some blob) : sha256 blob.data = hash := by
  by_cases hhash : hash = sha256 data
  · obtain ⟨blob', -, hput, hold | hdata⟩ := getBlob_putBlob s data mimeType
    · rw [hhash, hput] at hblob
      exact h (hhash ▸ hold.trans hblob)
    · rw [hhash, hput] at hblob
      rw [hhash, ← Option.some.inj hblob, hdata]
  · rw [getBlob_putBlob_of_ne s mimeType hhash] at hblob
    exact h hblob

theorem hashed_putFiles (files : List FileInput) {hash : Text} {blob : CasBlob}
    (hblob : (s.putFiles files).2.getBlob hash = some blob) : sha256 blob.data = hash := by
  induction files generalizing s with
  | nil => exact h hblob
  | cons file rest ih =>
    rw [putFiles_cons] at hblob
    exact ih (fun hblob => hashed_putBlob h file.data none hblob) hblob

end

variable {files : List FileInput}

/-- Every file that is put is in the store. -/
theorem getBlob_putFiles {f : FileInput} (hf : f ∈ files) :
    ∃ blob, (s.putFiles files).2.getBlob (sha256 f.data) = some blob := by
  induction files generalizing s with
  | nil => cases hf
  | cons file rest ih =>
    rw [putFiles_cons]
    rcases mem_cons.mp hf with rfl | hf
    · obtain ⟨blob, -, hblob, -⟩ := getBlob_putBlob s f.data none
      exact ⟨blob, (extends_putFiles _ rest).blob hblob⟩
    · exact ih hf

/-- What is put is kept. -/
theorem Tidy.kept_putTree (h : Tidy s) (hnodup : (files.map fun f => cleanPath f.path).Nodup)
    (hblobs : s'.blobs = (s.putFiles files).2.blobs) : Kept s' (s.putTree files).1 := by
  refine Cas.kept_putTree (fun f hf => ?_) hnodup
  obtain ⟨blob, hblob⟩ := getBlob_putFiles (s := s) hf
  have hget : s'.getBlob (sha256 f.data) = some blob := by
    rw [CasStore.getBlob, hblobs]
    exact hblob
  exact ⟨blob, hget, hashed_putFiles h.hashed files hblob⟩

/-- Where trees are added that are kept, those that are kept stay so. -/
theorem Kept.treeOf_set {commit : Option CheckpointNode} (h : Kept s (s.treeOf commit))
    (hs : Extends s s') {treeHash : Text} {entries : List TreeEntry} (hput : Kept s' entries)
    (htrees : s'.trees = s.trees.set treeHash entries) : Kept s' (s'.treeOf commit) := by
  cases commit with
  | none => exact kept_nil s'
  | some commit =>
    rw [CasStore.treeOf, Option.bind_some, CasStore.getTree] at h ⊢
    rw [htrees, get?_set]
    split
    · exact hput
    · exact h.extends hs

section

variable (draw : Draw) (message : Text) (files : List FileInput) (frameIndex : ℕ)
  (parentId branchName existingChangeId : Option Text)

/-- A commit adds its tree and itself. -/
theorem createCommit_trees :
    let r := s.createCommit draw message files frameIndex parentId branchName existingChangeId
    r.2.blobs = (s.putFiles files).2.blobs ∧ r.2.stagingArea = s.stagingArea ∧
      ∃ commit, r.2.commits = s.commits.set r.1 commit ∧
        r.2.trees = s.trees.set commit.treeHash (s.putTree files).1 := by
  have hframe := s.putFiles_frame files
  have hcommits : (s.putFiles files).2.commits = s.commits := by rw [hframe]
  have htrees : (s.putFiles files).2.trees = s.trees := by rw [hframe]
  have hstaging : (s.putFiles files).2.stagingArea = s.stagingArea := by rw [hframe]
  simp only [CasStore.createCommit, CasStore.putTree, hcommits, htrees, hstaging, true_and]
  exact ⟨_, rfl, rfl⟩

variable {files}

/-- A tree that is kept stays so with a commit of files with distinct paths. -/
theorem Tidy.treeOf_createCommit (h : Tidy s) (hnodup : (files.map fun f => cleanPath f.path).Nodup)
    {commit : Option CheckpointNode} (hkept : Kept s (s.treeOf commit)) :
    let s' := (s.createCommit draw message files frameIndex parentId branchName
      existingChangeId).2
    Kept s' (s'.treeOf commit) := by
  obtain ⟨hblobs, -, _, -, htrees⟩ := createCommit_trees (s := s) draw message files frameIndex
    parentId branchName existingChangeId
  exact hkept.treeOf_set (extends_createCommit s _ _ _ _ _ _ _) (h.kept_putTree hnodup hblobs)
    htrees

theorem Tidy.createCommit (h : Tidy s) (hnodup : (files.map fun f => cleanPath f.path).Nodup) :
    Tidy (s.createCommit draw message files frameIndex parentId branchName
      existingChangeId).2 := by
  obtain ⟨hblobs, hstaging, new, hcommits, htrees⟩ := createCommit_trees (s := s) draw message
    files frameIndex parentId branchName existingChangeId
  constructor
  · intro hash blob hblob
    rw [CasStore.getBlob, hblobs] at hblob
    exact hashed_putFiles h.hashed files hblob
  · rw [hstaging]
    exact h.staged
  · intro treeHash tree htree
    rw [CasStore.getTree, htrees, get?_set] at htree
    split at htree
    · obtain rfl := Option.some.inj htree
      exact (h.kept_putTree hnodup hblobs).clean
    · exact h.listed htree
  · intro commitId commit hcommit
    rw [CasStore.getCommit, hcommits, get?_set] at hcommit
    split at hcommit
    · -- the new commit has the tree that is put
      obtain rfl := Option.some.inj hcommit
      rw [CasStore.treeOf, Option.bind_some, CasStore.getTree, htrees, get?_set_self,
        Option.getD_some]
      exact h.kept_putTree hnodup hblobs
    · exact h.treeOf_createCommit draw message frameIndex parentId branchName existingChangeId
        hnodup (h.kept commitId commit hcommit)

end

/-! ## Files that are gathered -/

theorem Kept.nodup_cleanPath (h : Kept s tree) :
    ((s.filesOf tree).map fun f => cleanPath f.path).Nodup :=
  Cas.nodup_cleanPath (fun _ hf => (h.storedFile_filesOf hf).clean) h.nodup_filesOf

theorem WellKept.findCommit (h : WellKept s) (id : Option Text) :
    Kept s (s.treeOf ((s.findCommit id).map Prod.snd)) := by
  cases hfind : s.findCommit id with
  | none => exact kept_nil s
  | some e =>
    obtain ⟨commitId, -, hget⟩ := Option.bind_eq_some_iff.mp hfind
    obtain ⟨commit, hcommit, rfl⟩ := Option.map_eq_some_iff.mp hget
    exact h commitId commit hcommit

omit [Runtime] in
/-- A file is under its own path. -/
theorem mem_of_get?_byPath {path : Text} {f : FileInput}
    (hf : (CasStore.byPath files).get? path = some f) : f ∈ files ∧ f.path = path := by
  have hfind := get?_ofList_eq_find? FileInput.path id files path
  rw [Option.map_id, id] at hfind
  have hfound := hfind.symm.trans hf
  refine ⟨mem_reverse.mp (mem_of_find?_eq_some hfound), ?_⟩
  simpa using find?_some hfound

/-- A commit of the staging area has the paths of HEAD and those that are staged. -/
theorem Tidy.nodup_stagedFiles (h : Tidy s) :
    (s.stagedFiles.map fun f => cleanPath f.path).Nodup := by
  refine Cas.nodup_cleanPath (fun f hf => ?_) (nodup_values fun _ _ hf => (mem_of_get?_byPath hf).2)
  obtain ⟨⟨path, f⟩, he, rfl⟩ := mem_map.mp hf
  obtain ⟨hmem, -⟩ := mem_of_get?_byPath (mem_entries_iff.mp he)
  rcases mem_append.mp hmem with hhead | hstaged
  · exact ((h.kept.findCommit s.headId).storedFile_filesOf hhead).clean
  · obtain ⟨staged, hstaged, hfile⟩ := mem_map.mp hstaged
    have hclean := h.staged staged.1 (mem_map_of_mem hstaged)
    rw [← hfile]
    exact hclean

omit [Runtime] in
theorem mem_keys_entriesByPath {path : Text} :
    path ∈ (entriesByPath tree).keys ↔ ∃ e ∈ tree, e.path = path := by
  rw [entriesByPath, mem_keys_ofList, map_map, mem_map]
  rfl

/-- The paths of a merge are those of its sides. -/
theorem Tidy.clean_mergedFiles (h : Tidy s) (commitOurs commitTheirs : CheckpointNode)
    (ancestorId : Option Text) : ∀ f ∈ s.mergedFiles ⟨s.treeOf (some commitOurs),
      s.treeOf (some commitTheirs), s.baseTree ancestorId⟩, cleanPath f.path = f.path := by
  have hlisted (treeHash : Text) :
      ∀ e ∈ (s.getTree treeHash).getD [], cleanPath e.path = e.path := by
    cases htree : s.getTree treeHash with
    | none => exact nofun
    | some tree => exact h.listed htree
  have hbase : ∀ e ∈ s.baseTree ancestorId, cleanPath e.path = e.path := by
    rw [CasStore.baseTree]
    split
    · exact hlisted _
    · exact nofun
  intro f hf
  obtain ⟨e, blob, hmerged, -⟩ := mem_mergedFiles.mp hf
  have hmem : f.path ∈ MergeSides.allPaths ⟨s.treeOf (some commitOurs),
      s.treeOf (some commitTheirs), s.baseTree ancestorId⟩ := by
    by_contra hnot
    rw [MergeSides.merged_of_not_mem hnot] at hmerged
    cases hmerged
  rw [MergeSides.mem_allPaths, mem_keys_entriesByPath, mem_keys_entriesByPath,
    mem_keys_entriesByPath] at hmem
  rcases hmem with ⟨e, he, hpath⟩ | ⟨e, he, hpath⟩ | ⟨e, he, hpath⟩
  · exact hpath ▸ hlisted commitOurs.treeHash e he
  · exact hpath ▸ hlisted commitTheirs.treeHash e he
  · exact hpath ▸ hbase e he

/-! ## Calls -/

theorem tidy_new : Tidy CasStore.new where
  hashed hblob := by cases hblob
  staged := nofun
  listed htree := by cases htree
  kept := nofun

theorem Tidy.replay (h : Tidy s) (sourceBranchName : Text) (clock : ℕ → Draw) (i : ℕ)
    (newParentId : Text) {commits : List CheckpointNode}
    (hcommits : ∀ c ∈ commits, Kept s (s.treeOf (some c))) :
    Tidy (CasStore.replay sourceBranchName clock i newParentId s commits).2 := by
  induction commits generalizing s i newParentId with
  | nil => exact h
  | cons c rest ih =>
    have hnodup := (hcommits c mem_cons_self).nodup_cleanPath
    exact ih (h.createCommit _ _ _ _ _ _ hnodup) _ _ fun c' hc' =>
      h.treeOf_createCommit _ _ _ _ _ _ hnodup (hcommits c' (mem_cons_of_mem _ hc'))

/-- A collection leaves what the commits list. -/
theorem Tidy.pruneOrphanBlobs (h : Tidy s) : Tidy s.pruneOrphanBlobs where
  hashed := by
    intro hash blob hblob
    rw [getBlob_pruneOrphanBlobs] at hblob
    split at hblob
    · exact h.hashed hblob
    · cases hblob
  staged := h.staged
  listed := h.listed
  kept := by
    intro commitId commit hcommit
    have htree := h.kept commitId commit hcommit
    refine ⟨htree.nodup, htree.clean, fun e he => ?_⟩
    have hreach : e.hash ∈ s.reachableBlobs := by
      have hentry : e ∈ s.committedEntries :=
        mem_flatMap.mpr ⟨commit, mem_map.mpr
          ⟨(commitId, commit), mem_entries_iff.mpr hcommit, rfl⟩, he⟩
      exact mem_append_left _ (mem_map_of_mem hentry)
    rw [getBlob_pruneOrphanBlobs, if_pos hreach]
    exact htree.stored e he

/-- What a rebase replays are commits of the store. -/
theorem WellKept.commitsToReplay (h : WellKept s) {sourceId ontoId : Text}
    {commits : List CheckpointNode} (hcommits : s.commitsToReplay sourceId ontoId = some commits) :
    ∀ c ∈ commits, Kept s (s.treeOf (some c)) := by
  rw [CasStore.commitsToReplay] at hcommits
  split at hcommits
  · cases hcommits
  · obtain ⟨r, -, rfl⟩ := Option.map_eq_some_iff.mp hcommits
    intro c hc
    obtain ⟨commitId, -, hcommit⟩ := mem_filterMap.mp (mem_reverse.mp hc)
    exact h commitId c hcommit

/-- A commit that is written again with its tree. -/
theorem Tidy.overwrite (h : Tidy s) {commitId : Text} {commit new : CheckpointNode}
    (hcommit : s.getCommit commitId = some commit) (htree : new.treeHash = commit.treeHash) :
    Tidy { s with commits := s.commits.set commitId new } := by
  refine ⟨h.hashed, h.staged, h.listed, fun commitId' commit' hcommit' => ?_⟩
  rw [CasStore.getCommit, get?_set] at hcommit'
  split at hcommit'
  · obtain rfl := Option.some.inj hcommit'
    have hextends : Extends s { s with commits := s.commits.set commitId new } := ⟨id, id⟩
    have hkept := (h.kept commitId commit hcommit).extends hextends
    rw [CasStore.treeOf, Option.bind_some] at hkept ⊢
    rw [htree]
    exact hkept
  · exact (h.kept commitId' commit' hcommit').extends ⟨id, id⟩

theorem Tidy.clearStaging (h : Tidy s) : Tidy s.clearStaging := by
  refine h.congr rfl rfl rfl fun path hpath => ?_
  cases hpath

/-- **Step lemma.**  A call keeps the store tidy. -/
theorem Tidy.step (h : Tidy s) (call : CasCall) (hcall : call.Distinct) : Tidy (s.step call) := by
  cases call with
  | putBlob data mimeType =>
    have hframe := s.putBlob_frame data mimeType
    have hextends := extends_putBlob s data mimeType
    show Tidy (s.putBlob data mimeType).2
    constructor
    · exact fun hblob => hashed_putBlob h.hashed data mimeType hblob
    · rw [hframe]
      exact h.staged
    · rw [hframe]
      exact h.listed
    · intro commitId commit hcommit
      have hsame : (s.putBlob data mimeType).2.treeOf (some commit) = s.treeOf (some commit) := by
        rw [hframe]
        rfl
      rw [hframe] at hcommit
      rw [hsame]
      exact (h.kept commitId commit hcommit).extends hextends
  | putTree files =>
    have hframe := s.putFiles_frame files
    have hblobs : (s.step (.putTree files)).blobs = (s.putFiles files).2.blobs := rfl
    have htrees : (s.step (.putTree files)).trees
        = s.trees.set (CasStore.treeHashOf (s.putTree files).1) (s.putTree files).1 := by
      show (s.putFiles files).2.trees.set _ _ = _
      rw [hframe]
      rfl
    have hput := h.kept_putTree hcall hblobs
    constructor
    · exact fun hblob => hashed_putFiles h.hashed files hblob
    · show ∀ path ∈ (s.putFiles files).2.stagingArea.keys, _
      rw [hframe]
      exact h.staged
    · intro treeHash tree htree
      rw [CasStore.getTree, htrees, get?_set] at htree
      split at htree
      · obtain rfl := Option.some.inj htree
        exact hput.clean
      · exact h.listed htree
    · intro commitId commit hcommit
      have hcommit : (s.putFiles files).2.getCommit commitId = some commit := hcommit
      rw [hframe] at hcommit
      have hextends := extends_putFiles s files
      exact (h.kept commitId commit hcommit).treeOf_set ⟨hextends.blob, hextends.chunk⟩ hput htrees
  | createCommit draw message files frameIndex parentId branchName existingChangeId =>
    exact h.createCommit _ _ _ _ _ _ hcall
  | commitStaged draw message frameIndex =>
    rcases s.step_commitStaged draw message frameIndex with hstep | hstep
    · rwa [hstep]
    · rw [hstep]
      exact (h.createCommit _ _ _ _ _ _ h.nodup_stagedFiles).clearStaging
  | mergeCheckpoints draw oursId theirsId baseId =>
    show Tidy (((s.mergeCheckpoints draw oursId theirsId baseId).map Prod.snd).getD s)
    unfold CasStore.mergeCheckpoints
    split
    · next commitOurs commitTheirs _ _ =>
      cases s.mergeAncestor oursId theirsId baseId with
      | none => exact h
      | some ancestorId =>
        show Tidy (s.mergeWith draw oursId theirsId commitOurs commitTheirs ancestorId).2
        rw [CasStore.mergeWith]
        split
        · exact h
        · exact h.createCommit _ _ _ _ _ _
            (Cas.nodup_cleanPath (h.clean_mergedFiles commitOurs commitTheirs ancestorId)
              nodup_mergedFiles)
    · exact h
  | cherryPick draw commitId targetBranchName =>
    show Tidy (s.cherryPick draw commitId targetBranchName).2
    unfold CasStore.cherryPick
    split
    · next sourceCommit targetBranch hcommit _ =>
      have hhead : Kept s (s.treeOf (s.getCommit targetBranch.commitId)) :=
        h.kept.commitTree targetBranch.commitId
      exact h.createCommit _ _ _ _ _ _
        (nodup_pickedFiles hhead (h.kept.commitTree commitId) hcommit)
    · exact h
  | revert draw commitId =>
    show Tidy (s.revert draw commitId).2
    unfold CasStore.revert
    split
    · exact h
    · exact h.createCommit _ _ _ _ _ _ (h.kept.findCommit _).nodup_cleanPath
  | rebase clock sourceBranchName ontoBranchName =>
    rcases s.step_rebase clock sourceBranchName ontoBranchName with
      hstep | ⟨_, ontoBranch, commits, _, _, _, hcommits, hstep⟩
    · rwa [hstep]
    · rw [hstep]
      have hreplay := h.replay sourceBranchName clock 0 ontoBranch.commitId
        (h.kept.commitsToReplay hcommits)
      exact hreplay.congr rfl rfl rfl hreplay.staged
  | squash draw commitIds message =>
    show Tidy (s.squash draw commitIds message).2
    unfold CasStore.squash
    split
    · next latestCommit _ hlatest _ =>
      obtain ⟨commitId, -, hcommit⟩ := Option.bind_eq_some_iff.mp hlatest
      exact h.createCommit _ _ _ _ _ _ (h.kept commitId latestCommit hcommit).nodup_cleanPath
    · exact h
  | importGitBundle payload => exact hcall.elim
  | pruneOrphanBlobs => exact h.pruneOrphanBlobs
  | clear => exact tidy_new
  | stageFile path data mode now =>
    refine h.congr rfl rfl rfl fun path' hpath => ?_
    obtain ⟨file, hfile⟩ := mem_keys_iff.mp hpath
    have hget : (s.stagingArea.set (cleanPath path) ⟨data, mode, now⟩).get? path' = some file :=
      hfile
    rw [get?_set] at hget
    split at hget
    · next hsame => rw [hsame, cleanPath_cleanPath]
    · exact h.staged path' (mem_keys_iff.mpr ⟨file, hget⟩)
  | unstageFile path =>
    refine h.congr rfl rfl rfl fun path' hpath => ?_
    obtain ⟨file, hfile⟩ := mem_keys_iff.mp hpath
    have hget : (s.stagingArea.delete (cleanPath path)).get? path' = some file := hfile
    rw [get?_delete] at hget
    split at hget
    · cases hget
    · exact h.staged path' (mem_keys_iff.mpr ⟨file, hget⟩)
  | clearStaging => exact h.clearStaging
  | setHead commitId =>
    show Tidy (s.setHead commitId).2
    unfold CasStore.setHead
    split
    · exact h.congr rfl rfl rfl h.staged
    · exact h
  | signCommit commitId privateKeyHex publicKeyHex now =>
    show Tidy ((s.signCommit commitId privateKeyHex publicKeyHex now).getD s)
    unfold CasStore.signCommit
    cases hcommit : s.getCommit commitId with
    | none => exact h
    | some commit =>
      exact h.overwrite hcommit rfl
  | switchBranch name =>
    show Tidy (s.switchBranch name).2
    unfold CasStore.switchBranch
    split
    · exact h
    · exact h.congr rfl rfl rfl h.staged
  | createBranch _ _ _ | createTag _ _ _ _ => exact h.congr rfl rfl rfl h.staged

/-- Every store that is reached by calls with distinct paths is tidy. -/
theorem tidy_run {calls : List CasCall} (hcalls : ∀ call ∈ calls, call.Distinct) :
    Tidy (Run.run CasStore.step CasStore.new calls) :=
  Run.run_preserves (fun _ call h hcall => h.step call hcall) tidy_new
    (Run.guarded_of_forall_mem fun call hcall _ => hcalls call hcall)

/-! ## Merges the other way round -/

section

omit [Runtime]

theorem CasStore.findLowestCommonAncestor_comm (s : CasStore) (a b : Text) :
    s.findLowestCommonAncestor a b = s.findLowestCommonAncestor b a := by
  have hswap {a b : Text} {base : Option Text} (h : s.findLowestCommonAncestor a b = some base) :
      s.findLowestCommonAncestor b a = some base := by
    obtain ⟨ha, hb, hbase⟩ := findLowestCommonAncestor_eq_some_iff.mp h
    refine findLowestCommonAncestor_eq_some_iff.mpr ⟨hb, ha, ?_⟩
    cases base with
    | none => exact fun d hd hd' => hbase d hd' hd
    | some c => exact ⟨hbase.2.1, hbase.1, fun d hd hd' => hbase.2.2 d hd' hd⟩
  exact Option.ext fun base => ⟨hswap, hswap⟩

theorem MergeSides.state_swap (m : MergeSides) (path : Text) :
    ((MergeSides.mk m.theirs m.ours m.base).merged path).state.map (Option.map Prod.fst)
      = (m.merged path).state.map (Option.map Prod.fst) := by
  rw [state_merged, state_merged]
  exact ThreeWay.mergeBy_swap

theorem MergeSides.mem_conflicts_swap (m : MergeSides) (path : Text) :
    path ∈ (MergeSides.mk m.theirs m.ours m.base).conflicts ↔ path ∈ m.conflicts := by
  rw [mem_conflicts, mem_conflicts, merged_eq_conflict_iff, merged_eq_conflict_iff,
    ← Option.map_eq_none_iff (f := Option.map Prod.fst), state_swap, Option.map_eq_none_iff]

end

variable {m : MergeSides} {path : Text}

/-- What a merge puts at a path has the chosen hash. -/
theorem Tidy.content_merge (h : Tidy s)
    (hclean : ∀ f ∈ s.mergedFiles m, cleanPath f.path = f.path) {hash : Text} :
    (stateIn (s.putTree (s.mergedFiles m)).1 path).map Prod.fst = some hash ↔
      (m.merged path).state.map (Option.map Prod.fst) = some (some hash) ∧
        (s.getBlob hash).isSome := by
  constructor
  · intro hstate
    obtain ⟨⟨_, mode⟩, hfound, rfl⟩ := Option.map_eq_some_iff.mp hstate
    obtain ⟨e, blob, hmerged, hblob, rfl, -⟩ := (stateIn_merge hclean).mp hfound
    rw [hmerged, h.hashed hblob, hblob]
    exact ⟨rfl, rfl⟩
  · rintro ⟨hstate, hblob⟩
    obtain ⟨blob, hblob⟩ := Option.isSome_iff_exists.mp hblob
    cases hmerged : m.merged path with
    | conflict =>
      rw [hmerged] at hstate
      cases hstate
    | take entry =>
      rw [hmerged] at hstate
      cases entry with
      | none => cases hstate
      | some e =>
        obtain rfl : e.hash = hash := Option.some.inj (Option.some.inj hstate)
        rw [(stateIn_merge hclean).mpr ⟨e, blob, hmerged, hblob, h.hashed hblob, rfl⟩]
        rfl

/-- Two merges that differ in which side is which. -/
structure SameMerge (r r' : MergeResult × CasStore) : Prop where
  success : r.1.success = r'.1.success
  ancestor : r.1.ancestorCommitId = r'.1.ancestorCommitId
  conflicts : ∀ path, path ∈ r.1.conflicts ↔ path ∈ r'.1.conflicts
  content : ∀ path, (stateIn (r.2.treeOf (r.1.mergedCommitId.bind r.2.getCommit)) path).map Prod.fst
    = (stateIn (r'.2.treeOf (r'.1.mergedCommitId.bind r'.2.getCommit)) path).map Prod.fst

theorem Tidy.sameMerge_mergeWith (h : Tidy s) (draw draw' : Draw) (oursId theirsId : Text)
    (ours theirs : CheckpointNode) (base : Option Text) :
    SameMerge (s.mergeWith draw oursId theirsId ours theirs base)
      (s.mergeWith draw' theirsId oursId theirs ours base) := by
  have hsame := MergeSides.mem_conflicts_swap
    ⟨s.treeOf (some ours), s.treeOf (some theirs), s.baseTree base⟩
  by_cases hnone : MergeSides.conflicts
      ⟨s.treeOf (some ours), s.treeOf (some theirs), s.baseTree base⟩ = []
  · obtain ⟨id, t, commit, hmerge, hcommit, htree⟩ :=
      @mergeWith_of_no_conflicts _ _ _ draw oursId theirsId _ _ base rfl hnone
    simp only [eq_nil_iff_forall_not_mem, ← hsame] at hnone
    obtain ⟨id', t', commit', hmerge', hcommit', htree'⟩ := @mergeWith_of_no_conflicts _ _ _ draw'
      theirsId oursId _ _ base rfl (eq_nil_iff_forall_not_mem.mpr hnone)
    rw [hmerge, hmerge']
    refine ⟨rfl, rfl, fun _ => .rfl, fun path => Option.ext fun hash => ?_⟩
    rw [Option.bind_some, Option.bind_some, hcommit, hcommit',
      show t.treeOf (some commit) = _ from congrArg (Option.getD · []) htree,
      show t'.treeOf (some commit') = _ from congrArg (Option.getD · []) htree', Option.getD_some,
      Option.getD_some]
    rw [h.content_merge (h.clean_mergedFiles ours theirs base),
      h.content_merge (h.clean_mergedFiles theirs ours base), ← MergeSides.state_swap]
  · have hsome := hnone
    simp only [eq_nil_iff_forall_not_mem, ← hsame] at hsome
    rw [mergeWith_of_conflicts rfl hnone,
      mergeWith_of_conflicts rfl fun hnil => hsome (eq_nil_iff_forall_not_mem.mp hnil)]
    exact ⟨rfl, rfl, fun path => (hsame path).symm, fun _ => rfl⟩

/-- **Merging is symmetric.**  After any calls with distinct paths, merging theirs into ours comes
to an end if merging ours into theirs does, has the same conflicts, and otherwise makes a tree with
the same contents at the same paths. -/
theorem merge_symmetric {calls : List CasCall} (hcalls : ∀ call ∈ calls, call.Distinct)
    (draw draw' : Draw) (oursId theirsId : Text) (baseId : Option Text) :
    let s := Run.run CasStore.step CasStore.new calls
    Option.Rel SameMerge (s.mergeCheckpoints draw oursId theirsId baseId)
      (s.mergeCheckpoints draw' theirsId oursId baseId) := by
  intro s
  unfold CasStore.mergeCheckpoints
  cases s.getCommit oursId with
  | none => cases s.getCommit theirsId <;> exact .some ⟨rfl, rfl, fun _ => .rfl, fun _ => rfl⟩
  | some ours =>
    cases s.getCommit theirsId with
    | none => exact .some ⟨rfl, rfl, fun _ => .rfl, fun _ => rfl⟩
    | some theirs =>
      have hbase :
          s.mergeAncestor theirsId oursId baseId = s.mergeAncestor oursId theirsId baseId := by
        cases baseId with
        | none => exact s.findLowestCommonAncestor_comm theirsId oursId
        | some _ => rfl
      dsimp only
      rw [hbase]
      cases s.mergeAncestor oursId theirsId baseId with
      | none => exact .none
      | some base => exact .some ((tidy_run hcalls).sameMerge_mergeWith draw draw' ..)

end

section

open scoped Plain

/-- One file is changed on `main`, and another one on `dev`. -/
theorem fork_merges_both_ways :
    let s := Run.run CasStore.step CasStore.new
      [.createCommit draw [] [file "a" 1, file "b" 1] 1 none none none,
        .createBranch (text "dev") none 1,
        .createCommit draw [] [file "a" 2, file "b" 1] 1 none none none,
        .switchBranch (text "dev"),
        .createCommit draw [] [file "a" 1, file "b" 2] 1 none none none]
    let tip (name : String) : Text := ((s.branches.get? (text name)).map (·.commitId)).getD []
    Option.Rel SameMerge (s.mergeCheckpoints draw (tip "main") (tip "dev") none)
      (s.mergeCheckpoints draw (tip "dev") (tip "main") none) := by
  refine merge_symmetric ?_ draw draw _ _ none
  simp only [forall_mem_cons]
  exact ⟨(by decide : List.Nodup _), trivial, (by decide : List.Nodup _), trivial,
    (by decide : List.Nodup _), nofun⟩

end

end Lumi.Cas
