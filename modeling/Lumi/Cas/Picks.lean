import Mathlib.Data.List.Induction
import Lumi.Cas.Kept

/-!
# Cherry-picks, path by path

A cherry-pick takes the head of the branch and gives every path whose content the commit changed the
state that it has in the commit.  So after a number of picks a path is as in the last of the commits
that changed its content, or as it was on the branch (`stateIn_cherryPickAll`).
-/

namespace Lumi.Cas

open Js List InsertionMap Option

section

variable [Runtime] {s s' : CasStore}

/-! ## One pick -/

namespace CasStore

/-- The tree of the commit under an id. -/
def commitTree (s : CasStore) (commitId : Text) : List TreeEntry := s.treeOf (s.getCommit commitId)

/-- The id of the commit with which a commit is compared, or an empty one. -/
def parentKey (s : CasStore) (commitId : Text) : Text :=
  ((s.findCommit ((s.getCommit commitId).bind CheckpointNode.parentId)).map Prod.fst).getD []

/-- The tree with which a commit is compared. -/
def parentTree (s : CasStore) (commitId : Text) : List TreeEntry :=
  s.commitTree (s.parentKey commitId)

/-- The files of a commit that differ in their content from those of its parent. -/
def changedFiles (s : CasStore) (commitId : Text) : List FileInput :=
  let diff := s.diffCommits (s.parentKey commitId) commitId
  (diff.added ++ diff.modified).filterMap fun path =>
    ((s.commitTree commitId).find? fun e => e.path = path).bind fun srcEntry =>
      (s.getBlob srcEntry.hash).map fun blob => ⟨path, blob.data, some srcEntry.mode⟩

/-- The files of a branch after a pick, under their paths. -/
def pickedMap (s : CasStore) (commitId : Text) (head : Option CheckpointNode) :
    InsertionMap Text FileInput :=
  (s.diffCommits (s.parentKey commitId) commitId).deleted.foldl InsertionMap.delete
    (byPath (s.filesOf (s.treeOf head) ++ s.changedFiles commitId))

/-- The tree of HEAD. -/
def headTree (s : CasStore) : List TreeEntry := s.treeOf (s.getHead.map Prod.snd)

/-- The tree at the head of a branch. -/
def branchTree (s : CasStore) (name : Text) : List TreeEntry :=
  s.treeOf ((s.branches.get? name).bind fun branch => s.getCommit branch.commitId)

/-- The commit changes the content of the path. -/
def changes (s : CasStore) (path commitId : Text) : Prop :=
  (stateIn (s.parentTree commitId) path).map Prod.fst
    ≠ (stateIn (s.commitTree commitId) path).map Prod.fst

instance (s : CasStore) (path commitId : Text) : Decidable (s.changes path commitId) :=
  inferInstanceAs (Decidable (_ ≠ _))

end CasStore

theorem WellKept.commitTree (h : WellKept s) (commitId : Text) : Kept s (s.commitTree commitId) := by
  rw [CasStore.commitTree]
  cases hcommit : s.getCommit commitId with
  | none => exact kept_nil s
  | some commit => exact h commitId commit hcommit

omit [Runtime] in
theorem map_fst_stateIn (tree : List TreeEntry) (path : Text) :
    (stateIn tree path).map Prod.fst = ((entriesByPath tree).get? path).map TreeEntry.hash := by
  rw [stateIn, Option.map_map]
  rfl

section

variable {commitId : Text} {commit : CheckpointNode} {head : Option CheckpointNode}

section

omit [Runtime]

/-- What `diffCommits` finds of one path. -/
theorem mem_diffCommits (a b : Text) (path : Text) :
    let before := (entriesByPath (s.commitTree a)).get? path
    let after := (entriesByPath (s.commitTree b)).get? path
    (path ∈ (s.diffCommits a b).added ++ (s.diffCommits a b).modified ↔
      after ≠ none ∧ before.map TreeEntry.hash ≠ after.map TreeEntry.hash) ∧
    (path ∈ (s.diffCommits a b).deleted ↔ before ≠ none ∧ after = none) := by
  intro before after
  have hbefore : (entriesByPath (s.treeOf (s.getCommit a))).get? path = before := rfl
  have hafter : (entriesByPath (s.treeOf (s.getCommit b))).get? path = after := rfl
  have hkeys (tree : List TreeEntry) :
      path ∈ (entriesByPath tree).keys ↔ (entriesByPath tree).get? path ≠ none := by
    rw [ne_eq, get?_eq_none_iff, not_not]
  simp only [CasStore.diffCommits, mem_append, mem_filter, hkeys, hbefore, hafter]
  cases before <;> cases after <;> simp

theorem nodup_diffCommits (a b : Text) :
    ((s.diffCommits a b).added ++ (s.diffCommits a b).modified).Nodup := by
  have hkeys := (entriesByPath (s.treeOf (s.getCommit b))).nodup
  refine nodup_append'.mpr ⟨hkeys.filter _, hkeys.filter _, fun path hadded hmodified => ?_⟩
  have hnone := (mem_filter.mp hadded).2
  have hsome := (mem_filter.mp hmodified).2
  rw [isNone_iff_eq_none] at hnone
  rw [hnone] at hsome
  cases hsome

theorem pickedFiles_eq (hcommit : s.getCommit commitId = some commit) :
    s.pickedFiles commitId commit head =
      (s.pickedMap commitId head).values := by
  have hkey : s.parentKey commitId = ((s.findCommit commit.parentId).map Prod.fst).getD [] := by
    rw [CasStore.parentKey, hcommit, bind_some]
  rw [CasStore.pickedMap, CasStore.changedFiles, CasStore.commitTree, hkey, hcommit]
  rfl

end

theorem mem_changedFiles (hkept : Kept s (s.commitTree commitId)) (f : FileInput) :
    f ∈ s.changedFiles commitId ↔ f ∈ s.filesOf (s.commitTree commitId) ∧
      f.path ∈ (s.diffCommits (s.parentKey commitId) commitId).added ++
        (s.diffCommits (s.parentKey commitId) commitId).modified := by
  rw [CasStore.changedFiles, mem_filterMap, mem_filesOf]
  constructor
  · rintro ⟨path, hpath, hf⟩
    obtain ⟨e, he, hf⟩ := bind_eq_some_iff.mp hf
    obtain ⟨blob, hblob, rfl⟩ := map_eq_some_iff.mp hf
    have hsame : e.path = path := by simpa using find?_some he
    exact ⟨⟨e, mem_of_find?_eq_some he, blob, hblob, by rw [hsame]⟩, hpath⟩
  · rintro ⟨⟨e, he, blob, hblob, rfl⟩, hpath⟩
    refine ⟨e.path, hpath, ?_⟩
    rw [hkept.find?_path, hkept.get?_entriesByPath.mpr ⟨he, rfl⟩, bind_some, hblob,
      map_some]

omit [Runtime] in
theorem nodup_changedFiles : ((s.changedFiles commitId).map FileInput.path).Nodup := by
  have hsub : ∀ paths : List Text, ((paths.filterMap fun path =>
      ((s.commitTree commitId).find? fun e => e.path = path).bind fun srcEntry =>
        (s.getBlob srcEntry.hash).map fun blob =>
          (⟨path, blob.data, some srcEntry.mode⟩ : FileInput)).map FileInput.path).Sublist
      paths := by
    intro paths
    induction paths with
    | nil => exact .slnil
    | cons path rest ih =>
      rw [filterMap_cons]
      split
      · exact ih.cons _
      · next f hf =>
        obtain ⟨e, -, hf⟩ := bind_eq_some_iff.mp hf
        obtain ⟨blob, -, rfl⟩ := map_eq_some_iff.mp hf
        exact ih.cons_cons _
  exact (hsub _).nodup (nodup_diffCommits _ _)

/-- The changed files have the states that they have in the commit. -/
theorem get?_changedFiles (hkept : Kept s (s.commitTree commitId)) (path : Text) :
    (CasStore.byPath (s.changedFiles commitId)).get? path =
      if path ∈ (s.diffCommits (s.parentKey commitId) commitId).added ++
          (s.diffCommits (s.parentKey commitId) commitId).modified then
        (CasStore.byPath (s.filesOf (s.commitTree commitId))).get? path
      else none := by
  refine Option.ext fun f => ?_
  rw [get?_byPath nodup_changedFiles, mem_changedFiles hkept]
  split
  · next hpath =>
    rw [get?_byPath hkept.nodup_filesOf]
    constructor
    · exact fun ⟨⟨hf, _⟩, hsame⟩ => ⟨hf, hsame⟩
    · exact fun ⟨hf, hsame⟩ => ⟨⟨hf, hsame ▸ hpath⟩, hsame⟩
  · next hpath =>
    constructor
    · exact fun ⟨⟨_, hf⟩, hsame⟩ => absurd (hsame ▸ hf) hpath
    · exact fun hf => absurd hf (some_ne_none f).symm

omit [Runtime] in
/-- The content of a path is changed if the path is added, modified or deleted. -/
theorem changes_iff (path : Text) : s.changes path commitId ↔
    path ∈ (s.diffCommits (s.parentKey commitId) commitId).added ++
        (s.diffCommits (s.parentKey commitId) commitId).modified ∨
      path ∈ (s.diffCommits (s.parentKey commitId) commitId).deleted := by
  obtain ⟨hchanged, hdeleted⟩ := mem_diffCommits (s := s) (s.parentKey commitId) commitId path
  rw [hchanged, hdeleted, CasStore.changes, map_fst_stateIn, map_fst_stateIn, CasStore.parentTree]
  cases (entriesByPath (s.commitTree (s.parentKey commitId))).get? path <;>
    cases (entriesByPath (s.commitTree commitId)).get? path <;> simp

section

variable (hhead : Kept s (s.treeOf head))
include hhead

section

variable (hkept : Kept s (s.commitTree commitId))
include hkept

/-- What a pick makes of one path. -/
theorem get?_pickedMap (path : Text) :
    ((s.pickedMap commitId head).get? path).map
        fileState
      = if s.changes path commitId then stateIn (s.commitTree commitId) path
        else stateIn (s.treeOf head) path := by
  have hchanges : s.changes path commitId ↔ _ := changes_iff path
  obtain ⟨hchanged, hdeleted⟩ := mem_diffCommits (s := s) (s.parentKey commitId) commitId path
  rw [CasStore.pickedMap, get?_foldl_delete,
    get?_byPath_append _ nodup_changedFiles, get?_changedFiles hkept]
  by_cases hdel : path ∈ (s.diffCommits (s.parentKey commitId) commitId).deleted
  · rw [if_pos hdel, if_pos (hchanges.mpr (.inr hdel)), stateIn, (hdeleted.mp hdel).2]
    rfl
  · rw [if_neg hdel]
    by_cases hmem : path ∈ (s.diffCommits (s.parentKey commitId) commitId).added ++
        (s.diffCommits (s.parentKey commitId) commitId).modified
    · -- the commit has the path, and what it has there covers the file of the branch
      obtain ⟨e, he⟩ := ne_none_iff_exists'.mp (hchanged.mp hmem).1
      have hstate := hkept.map_byPath_filesOf path
      rw [stateIn, he, map_some] at hstate
      obtain ⟨f, hf, hfile⟩ := map_eq_some_iff.mp hstate
      rw [if_pos hmem, if_pos (hchanges.mpr (.inl hmem)), hf, some_or, map_some,
        hfile, stateIn, he, map_some]
    · have hsame : ¬ s.changes path commitId := fun h =>
        (hchanges.mp h).elim hmem hdel
      rw [if_neg hmem, if_neg hsame, none_or, hhead.map_byPath_filesOf]

/-- The files of the branch and those of the commit are the ones that are there to pick from. -/
theorem storedFile_pickedMap {path : Text} {f : FileInput}
    (hf : (s.pickedMap commitId head).get? path = some f) : StoredFile s f ∧ f.path = path := by
  rw [CasStore.pickedMap, get?_foldl_delete,
    get?_byPath_append _ nodup_changedFiles] at hf
  split at hf
  · cases hf
  · rcases or_eq_some_iff.mp hf with hchanged | ⟨-, hfiles⟩
    · obtain ⟨hmem, hpath⟩ := (get?_byPath nodup_changedFiles).mp hchanged
      exact ⟨hkept.storedFile_filesOf ((mem_changedFiles hkept f).mp hmem).1, hpath⟩
    · obtain ⟨hmem, hpath⟩ := (get?_byPath hhead.nodup_filesOf).mp hfiles
      exact ⟨hhead.storedFile_filesOf hmem, hpath⟩

section

variable (hcommit : s.getCommit commitId = some commit)
include hcommit

/-- The files of a pick are stored, each under a path of its own. -/
theorem storedFile_pickedFiles :
    (∀ f ∈ s.pickedFiles commitId commit head, StoredFile s f) ∧
      ((s.pickedFiles commitId commit head).map FileInput.path).Nodup := by
  rw [pickedFiles_eq hcommit]
  refine ⟨fun f hf => ?_, nodup_values fun _ _ hf => (storedFile_pickedMap hhead hkept hf).2⟩
  obtain ⟨⟨path, f⟩, he, rfl⟩ := mem_map.mp hf
  exact (storedFile_pickedMap hhead hkept (mem_entries_iff.mp he)).1

theorem nodup_pickedFiles :
    ((s.pickedFiles commitId commit head).map fun f => cleanPath f.path).Nodup :=
  have hfiles := storedFile_pickedFiles hhead hkept hcommit
  nodup_cleanPath (fun f hf => (hfiles.1 f hf).clean) hfiles.2

/-- What `createCommit` makes of the files of a pick. -/
theorem stateIn_putTree_pickedFiles (hs : Extends s s') :
    Kept s' (s.putTree (s.pickedFiles commitId commit head)).1 ∧
      ∀ path, stateIn (s.putTree (s.pickedFiles commitId commit head)).1 path
        = if s.changes path commitId then stateIn (s.commitTree commitId) path
          else stateIn (s.treeOf head) path := by
  obtain ⟨hstored, hnodup⟩ := storedFile_pickedFiles hhead hkept hcommit
  refine ⟨kept_putTree (fun f hf => ?_) (nodup_pickedFiles hhead hkept hcommit), fun path => ?_⟩
  · exact (hstored f hf).stored.imp fun _ hblob => ⟨hs.blob hblob.1, hblob.2⟩
  · have hpath : ∀ path f, (s.pickedMap commitId head).get? path = some f → f.path = path :=
      fun _ _ hf => (storedFile_pickedMap hhead hkept hf).2
    rw [stateIn_putTree_byPath hstored hnodup, pickedFiles_eq hcommit, get?_byPath_values hpath,
      get?_pickedMap hhead hkept]

end

end

end

omit [Runtime] in
theorem branchTree_of_get? {name : Text} {branch : BranchRef}
    (hbranch : s.branches.get? name = some branch) :
    s.branchTree name = s.commitTree branch.commitId := by
  rw [CasStore.branchTree, hbranch]
  rfl

/-- The branch on which a commit is made has its tree. -/
theorem branchTree_createCommit (draw : Draw) (message : Text) (files : List FileInput)
    (frameIndex : ℕ) (parentId existingChangeId : Option Text) (name : Text) :
    let r := s.createCommit draw message files frameIndex parentId (some name) existingChangeId
    (∃ createdAt, r.2.branches = s.branches.set name ⟨r.1, createdAt, draw.now⟩) ∧
      r.2.commitTree r.1 = (s.putTree files).1 ∧ r.2.branchTree name = (s.putTree files).1 := by
  intro r
  obtain ⟨-, -, hbranches⟩ := s.createCommit_refs draw message files frameIndex parentId
    (some name) existingChangeId
  obtain ⟨commit, hcommit, htree⟩ := s.getTree_createCommit draw message files frameIndex parentId
    (some name) existingChangeId
  have hcommitTree : r.2.commitTree r.1 = (s.putTree files).1 := by
    rw [CasStore.commitTree, hcommit, CasStore.treeOf, bind_some, htree, getD_some]
  obtain ⟨createdAt, hset⟩ := hbranches
  have hget : r.2.branches.get? name = some ⟨r.1, createdAt, draw.now⟩ := by
    rw [hset]
    exact get?_set_self _ _ _
  exact ⟨⟨createdAt, hset⟩, hcommitTree, (branchTree_of_get? hget).trans hcommitTree⟩

/-- **Step lemma.**  A pick gives the paths that the commit changed the state they have in it. -/
theorem stateIn_cherryPick {onto : Text} (hbranch : s.branches.get? onto ≠ none)
    (hcommit : s.getCommit commitId ≠ none) (hhead : Kept s (s.branchTree onto))
    (hkept : Kept s (s.commitTree commitId)) (draw : Draw) :
    let s' := (s.cherryPick draw commitId onto).2
    Extends s s' ∧ s'.branches.get? onto ≠ none ∧ Kept s' (s'.branchTree onto) ∧
      ∀ path, stateIn (s'.branchTree onto) path
        = if s.changes path commitId then stateIn (s.commitTree commitId) path
          else stateIn (s.branchTree onto) path := by
  obtain ⟨branch, hbranch⟩ := ne_none_iff_exists'.mp hbranch
  obtain ⟨commit, hcommit⟩ := ne_none_iff_exists'.mp hcommit
  intro s'
  have hs' : s' = (s.createCommit draw
      (text "[cherry-pick " ++ commitId.take 7 ++ text "] " ++ commit.message)
      (s.pickedFiles commitId commit (s.getCommit branch.commitId))
      (((s.getCommit branch.commitId).map CheckpointNode.frameIndex).getD 0 + 1)
      ((s.getCommit branch.commitId).map fun _ => branch.commitId) (some onto)
      (some commit.changeId)).2 := by
    show (s.cherryPick draw commitId onto).2 = _
    rw [CasStore.cherryPick, hcommit, hbranch]
  rw [branchTree_of_get? hbranch] at hhead ⊢
  obtain ⟨⟨createdAt, hset⟩, -, htree⟩ := branchTree_createCommit (s := s) draw
    (text "[cherry-pick " ++ commitId.take 7 ++ text "] " ++ commit.message)
    (s.pickedFiles commitId commit (s.getCommit branch.commitId))
    (((s.getCommit branch.commitId).map CheckpointNode.frameIndex).getD 0 + 1)
    ((s.getCommit branch.commitId).map fun _ => branch.commitId) (some commit.changeId) onto
  have hextends : Extends s s' := hs' ▸ extends_createCommit s _ _ _ _ _ _ _
  obtain ⟨hkept', hstates⟩ := stateIn_putTree_pickedFiles hhead hkept hcommit hextends
  rw [← hs'] at hset htree
  refine ⟨hextends, ?_, htree ▸ hkept', fun path => ?_⟩
  · rw [hset, get?_set_self]
    exact some_ne_none _
  · rw [htree]
    exact hstates path

end

/-! ## Histories that stay -/

namespace CasStore

/-- The ids that the commits have and name, and the empty one. -/
def namedIds (s : CasStore) : List Text :=
  [] :: s.commits.entries.flatMap fun e => e.1 :: e.2.parentId.toList

/-- The ids that are known stand for what they stood for: no digest that was made meanwhile is that
of something else. -/
def Keeps (s t : CasStore) : Prop :=
  (∀ id ∈ s.namedIds, (t.getCommit id).map (fun c => (c.parentId, c.treeHash))
    = (s.getCommit id).map fun c => (c.parentId, c.treeHash)) ∧
  ∀ e ∈ s.commits.entries,
    (t.getTree e.2.treeHash).map listing = (s.getTree e.2.treeHash).map listing

instance (s t : CasStore) : Decidable (s.Keeps t) := inferInstanceAs (Decidable (_ ∧ _))

/-- The picks onto a branch, one after the other. -/
def cherryPickAll (clock : Text → Draw) (onto : Text) (s : CasStore) (ids : List Text) : CasStore :=
  ids.foldl (fun s id => (s.cherryPick (clock id) id onto).2) s

/-- The last of the commits that changed the content of the path. -/
def lastChange (s : CasStore) (ids : List Text) (path : Text) : Option Text :=
  (ids.filter fun id => s.changes path id).getLast?

/-- The state of a path after the commits were picked onto the branch. -/
def pickedState (s : CasStore) (onto : Text) (ids : List Text) (path : Text) : Option (Text × ℕ) :=
  match s.lastChange ids path with
  | none => stateIn (s.branchTree onto) path
  | some id => stateIn (s.commitTree id) path

end CasStore

section

variable {t : CasStore} {commitId onto : Text} {ids : List Text}

omit [Runtime] in
theorem mem_namedIds {commit : CheckpointNode} (hcommit : s.getCommit commitId = some commit) :
    commitId ∈ s.namedIds ∧ ∀ parent ∈ commit.parentId, parent ∈ s.namedIds := by
  have he : (commitId, commit) ∈ s.commits.entries := mem_entries_iff.mpr hcommit
  have hmem {id : Text} (hid : id ∈ commitId :: commit.parentId.toList) : id ∈ s.namedIds :=
    mem_cons_of_mem _ (mem_flatMap.mpr ⟨_, he, hid⟩)
  exact ⟨hmem mem_cons_self, fun parent hparent =>
    hmem (mem_cons_of_mem _ (mem_toList.mpr hparent))⟩

namespace CasStore.Keeps

section

omit [Runtime]

/-- A commit that is kept has its parent and its tree. -/
theorem getCommit (h : s.Keeps t) {commit : CheckpointNode}
    (hcommit : s.getCommit commitId = some commit) :
    ∃ commit', t.getCommit commitId = some commit' ∧ commit'.parentId = commit.parentId ∧
      commit'.treeHash = commit.treeHash := by
  have hsame := h.1 commitId (mem_namedIds hcommit).1
  rw [hcommit, map_some] at hsame
  obtain ⟨commit', hcommit', heq⟩ := map_eq_some_iff.mp hsame
  exact ⟨commit', hcommit', Prod.mk.inj heq⟩

theorem listing_treeOf (h : s.Keeps t) {commit : CheckpointNode}
    (hcommit : s.getCommit commitId = some commit) :
    listing (t.treeOf (some commit)) = listing (s.treeOf (some commit)) := by
  have hget (tree : Option (List TreeEntry)) :
      listing (tree.getD []) = (tree.map listing).getD [] := by cases tree <;> rfl
  have htree := h.2 (commitId, commit) (mem_entries_iff.mpr hcommit)
  exact (hget _).trans ((congrArg (Option.getD · []) htree).trans (hget _).symm)

theorem listing_commitTree (h : s.Keeps t) (hid : commitId ∈ s.namedIds) :
    listing (t.commitTree commitId) = listing (s.commitTree commitId) := by
  rw [commitTree, commitTree]
  cases hcommit : s.getCommit commitId with
  | none =>
    have hsame := h.1 commitId hid
    rw [hcommit, map_none, map_eq_none_iff] at hsame
    rw [hsame]
    rfl
  | some commit =>
    obtain ⟨commit', hcommit', -, htree⟩ := h.getCommit hcommit
    rw [hcommit', ← h.listing_treeOf hcommit]
    show listing ((t.getTree commit'.treeHash).getD []) = _
    rw [htree]
    rfl

theorem parentKey (h : s.Keeps t) (hcommit : s.getCommit commitId ≠ none) :
    t.parentKey commitId = s.parentKey commitId ∧ s.parentKey commitId ∈ s.namedIds := by
  obtain ⟨commit, hcommit⟩ := ne_none_iff_exists'.mp hcommit
  obtain ⟨commit', hcommit', hparent, -⟩ := h.getCommit hcommit
  have hnamed := (mem_namedIds hcommit).2
  rw [CasStore.parentKey, CasStore.parentKey, hcommit, hcommit', bind_some,
    bind_some, hparent, findCommit, findCommit]
  cases hid : truthy commit.parentId with
  | none => exact ⟨rfl, mem_cons_self⟩
  | some parent =>
    have hmem := hnamed parent (filter_eq_some_iff.mp hid).1
    have hsame := h.1 parent hmem
    rw [bind_some, bind_some]
    cases hfound : s.getCommit parent with
    | none =>
      rw [hfound, map_none, map_eq_none_iff] at hsame
      rw [hsame]
      exact ⟨rfl, mem_cons_self⟩
    | some c =>
      obtain ⟨c', hfound', -⟩ := h.getCommit hfound
      rw [hfound']
      exact ⟨rfl, hmem⟩

/-- What a commit changes is what it changed. -/
theorem changes_iff (h : s.Keeps t) (hcommit : s.getCommit commitId ≠ none) (path : Text) :
    t.changes path commitId ↔ s.changes path commitId := by
  obtain ⟨hkey, hmem⟩ := h.parentKey hcommit
  obtain ⟨commit, hsome⟩ := ne_none_iff_exists'.mp hcommit
  rw [changes, changes, parentTree, parentTree, hkey,
    stateIn_congr (h.listing_commitTree hmem),
    stateIn_congr (h.listing_commitTree (mem_namedIds hsome).1)]

end

end CasStore.Keeps

theorem cherryPickAll_concat (clock : Text → Draw) (s : CasStore) (ids : List Text) (id : Text) :
    s.cherryPickAll clock onto (ids ++ [id])
      = ((s.cherryPickAll clock onto ids).cherryPick (clock id) id onto).2 := by
  rw [CasStore.cherryPickAll, foldl_append]
  rfl

omit [Runtime] in
theorem lastChange_concat (s : CasStore) (ids : List Text) (id path : Text) :
    s.lastChange (ids ++ [id]) path
      = if s.changes path id then some id else s.lastChange ids path := by
  rw [CasStore.lastChange, filter_append, filter_singleton]
  by_cases hchange : s.changes path id
  · rw [if_pos hchange, decide_eq_true hchange, cond_true, getLast?_concat]
  · rw [if_neg hchange, decide_eq_false hchange, cond_false, append_nil, CasStore.lastChange]

omit [Runtime] in
theorem pickedState_concat (s : CasStore) (ids : List Text) (id path : Text) :
    s.pickedState onto (ids ++ [id]) path = if s.changes path id then stateIn (s.commitTree id) path
      else s.pickedState onto ids path := by
  rw [CasStore.pickedState, lastChange_concat]
  by_cases hchange : s.changes path id
  · rw [if_pos hchange, if_pos hchange]
  · rw [if_neg hchange, if_neg hchange]
    rfl

/-- **Run lemma.**  After the picks every path is as in the last commit that changed its content,
or as it was on the branch. -/
theorem stateIn_cherryPickAll (hkept : WellKept s) (hbranch : s.branches.get? onto ≠ none)
    (hhead : Kept s (s.branchTree onto)) (clock : Text → Draw)
    (hcommits : ∀ id ∈ ids, s.getCommit id ≠ none)
    (hkeeps : ∀ ids', ids' <+: ids → s.Keeps (s.cherryPickAll clock onto ids')) :
    let t := s.cherryPickAll clock onto ids
    Extends s t ∧ t.branches.get? onto ≠ none ∧ Kept t (t.branchTree onto) ∧
      ∀ path, stateIn (t.branchTree onto) path = s.pickedState onto ids path := by
  induction ids using List.reverseRecOn with
  | nil => exact ⟨Extends.refl s, hbranch, hhead, fun _ => rfl⟩
  | append_singleton ids id ih =>
    obtain ⟨hextends, hbranch', hhead', hstates⟩ := ih
      (fun id hid => hcommits id (mem_append_left _ hid))
      fun ids' hids => hkeeps ids' (hids.trans (prefix_append _ _))
    have hkeep := hkeeps ids (prefix_append _ _)
    have hcommit := hcommits id (mem_append_right _ mem_cons_self)
    obtain ⟨commit, hsome⟩ := ne_none_iff_exists'.mp hcommit
    have hlisting := hkeep.listing_commitTree (mem_namedIds hsome).1
    have hcommit' : (s.cherryPickAll clock onto ids).getCommit id ≠ none := by
      obtain ⟨commit', hcommit', -⟩ := hkeep.getCommit hsome
      rw [hcommit']
      exact some_ne_none _
    obtain ⟨hextends', hnext, hheadNext, hstatesNext⟩ := stateIn_cherryPick hbranch' hcommit'
      hhead' (((hkept.commitTree id).extends hextends).of_listing hlisting) (clock id)
    intro t
    have ht : t = ((s.cherryPickAll clock onto ids).cherryPick (clock id) id onto).2 :=
      cherryPickAll_concat clock s ids id
    rw [ht]
    refine ⟨hextends.trans hextends', hnext, hheadNext, fun path => ?_⟩
    rw [hstatesNext, pickedState_concat, hstates, stateIn_congr hlisting]
    exact if_congr (hkeep.changes_iff hcommit path) rfl rfl

end

end

end Lumi.Cas
