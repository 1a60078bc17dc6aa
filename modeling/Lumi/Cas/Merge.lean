import Lumi.Lib.ThreeWay
import Lumi.Cas.History

/-!
# Three-way merges of checkpoints

`mergeCheckpoints` decides each path by the content hashes on the three sides and takes
the mode along with the content.  So it is `ThreeWay.mergeBy`, with the hash as the view
of the state of a path: it refuses a deletion on one side, overlooks a conflict with a
change of the mode, and loses a mode that theirs alone has changed.  Where none of this
occurs it follows the three-way rule, as long as the chosen contents are in the store.

The ancestor is found if the parents of both commits come to an end, and is then their
lowest common ancestor.
-/

namespace Lumi.Cas

open Js List InsertionMap

/-! ## Ancestors -/

namespace CasStore

variable {s : CasStore}

theorem mem_keys_of_parentOf (id : Text) (h : s.parentOf id ≠ none) : id ∈ s.commits.keys := by
  rw [mem_keys_iff]
  cases hcommit : s.commits.get? id with
  | some commit => exact ⟨commit, rfl⟩
  | none =>
    rw [parentOf, getCommit, hcommit] at h
    exact absurd rfl h

theorem walk_of_exists {stop : Text → Bool} {curr : Text} {steps : ℕ} {r : List Text × Option Text}
    (h : ParentChain.walk s.parentOf stop steps (truthy (some curr)) = some r) :
    s.walk stop curr = some r := by
  have hbound := ParentChain.walk_bound mem_keys_of_parentOf h
  rwa [InsertionMap.keys, length_map] at hbound

/-- `findLowestCommonAncestor` returns exactly if the parents of both commits come to an end,
and then it returns the lowest common ancestor. -/
theorem findLowestCommonAncestor_eq_some_iff {a b : Text} {base : Option Text} :
    s.findLowestCommonAncestor a b = some base ↔
      ParentChain.Ends s.parentOf (truthy (some a)) ∧
      ParentChain.Ends s.parentOf (truthy (some b)) ∧
      ParentChain.IsLowestCommonAncestor s.parentOf (truthy (some a)) (truthy (some b)) base := by
  have hreturns {base : Option Text} (h : s.findLowestCommonAncestor a b = some base) :
      ParentChain.Ends s.parentOf (truthy (some a)) ∧
      ParentChain.Ends s.parentOf (truthy (some b)) ∧
      ParentChain.IsLowestCommonAncestor s.parentOf (truthy (some a)) (truthy (some b)) base := by
    unfold findLowestCommonAncestor at h
    split at h
    · cases h
    · next ancestorsA last hwalk =>
      obtain ⟨⟨ids, last'⟩, hwalk', rfl⟩ := Option.map_eq_some_iff.mp h
      have hends := (ParentChain.ends_of_walk hwalk).1
      have hlowest := ParentChain.isLowest_walk hwalk (fun _ => decide_eq_true_iff) hwalk'
      refine ⟨hends, ParentChain.Ends.of_walk hwalk' ?_, hlowest⟩
      cases last' with
      | none => exact .done
      | some c => exact hends.of_ancestor hlowest.1
  refine ⟨hreturns, fun ⟨ha, hb, hbase⟩ => ?_⟩
  obtain ⟨steps, ⟨ancestorsA, last⟩, hwalk⟩ := ParentChain.walk_of_ends (fun _ => false) ha
  obtain ⟨steps', r, hwalk'⟩ := ParentChain.walk_of_ends (fun id => decide (id ∈ ancestorsA)) hb
  have hfound : s.findLowestCommonAncestor a b = some r.2 := by
    rw [findLowestCommonAncestor, walk_of_exists hwalk]
    show (s.walk (fun id => decide (id ∈ ancestorsA)) b).map Prod.snd = some r.2
    rw [walk_of_exists hwalk', Option.map_some]
  rw [hfound, ha.lowest_unique (hreturns hfound).2.2 hbase]

end CasStore

/-! ## What is put into a tree -/

/-- Content hash and mode of a path in a tree, or that it is absent. -/
def stateIn (tree : List TreeEntry) (path : Text) : Option (Text × ℕ) :=
  ((entriesByPath tree).get? path).map fun e => (e.hash, e.mode)

theorem stateIn_eq_get? (tree : List TreeEntry) (path : Text) :
    stateIn tree path
      = (InsertionMap.ofList (tree.map fun e => (e.path, e.hash, e.mode))).get? path := by
  rw [stateIn, entriesByPath, ← get?_ofList_map, map_map]
  rfl

theorem cleanPath_cleanPath (path : Text) : cleanPath (cleanPath path) = cleanPath path := by
  unfold cleanPath
  rw [map_map]
  refine map_congr_left fun c _ => ?_
  show (if (if c = 0x5C then 0x2F else c) = 0x5C then (0x2F : UInt16) else _) = _
  by_cases hc : c = 0x5C
  · rw [if_pos hc]
    rfl
  · rw [if_neg hc, if_neg hc]

section

variable [Runtime]

namespace CasStore

/-- What a tree shows of the files put into it. -/
theorem map_putFiles (s : CasStore) (files : List FileInput) :
    (s.putFiles files).1.map (fun e => (e.path, e.hash, e.mode))
      = files.map fun f => (cleanPath f.path, sha256 f.data, f.mode.getD 0o644) := by
  induction files generalizing s with
  | nil => rfl
  | cons file rest ih =>
    rw [map_cons, ← ih]
    rfl

theorem perm_putTree (s : CasStore) (files : List FileInput) :
    ((s.putTree files).1.map fun e => (e.path, e.hash, e.mode)).Perm
      (files.map fun f => (cleanPath f.path, sha256 f.data, f.mode.getD 0o644)) := by
  rw [← map_putFiles s files]
  exact (perm_insertionSort _ _).map _

/-- The commit that is made has just the tree that is put. -/
theorem getTree_createCommit (s : CasStore) (draw : Draw) (message : Text) (files : List FileInput)
    (frameIndex : ℕ) (parentId branchName existingChangeId : Option Text) :
    let r := s.createCommit draw message files frameIndex parentId branchName existingChangeId
    ∃ commit, r.2.getCommit r.1 = some commit ∧
      r.2.getTree commit.treeHash = some (s.putTree files).1 :=
  ⟨_, get?_set_self _ _ _, get?_set_self _ _ _⟩

end CasStore

/-- The states in a tree of files whose paths are clean and distinct. -/
theorem stateIn_putTree (s : CasStore) {files : List FileInput}
    (hclean : ∀ f ∈ files, cleanPath f.path = f.path) (hnodup : (files.map FileInput.path).Nodup)
    {path hash : Text} {mode : ℕ} :
    stateIn (s.putTree files).1 path = some (hash, mode) ↔
      ∃ f ∈ files, f.path = path ∧ sha256 f.data = hash ∧ f.mode.getD 0o644 = mode := by
  have hperm := s.perm_putTree files
  have hkeys : (files.map fun f => (cleanPath f.path, sha256 f.data, f.mode.getD 0o644)).map
      Prod.fst = files.map FileInput.path := by
    rw [map_map]
    exact map_congr_left hclean
  have hnodup' : (((s.putTree files).1.map fun e => (e.path, e.hash, e.mode)).map
      Prod.fst).Nodup := by
    rw [(hperm.map Prod.fst).nodup_iff, hkeys]
    exact hnodup
  rw [stateIn_eq_get?, get?_ofList_eq_some_iff hnodup', hperm.mem_iff, mem_map]
  constructor
  · rintro ⟨f, hf, heq⟩
    obtain ⟨hpath, hhash, hmode⟩ := Prod.mk.inj heq |>.imp_right Prod.mk.inj
    exact ⟨f, hf, (hclean f hf).symm.trans hpath, hhash, hmode⟩
  · rintro ⟨f, hf, rfl, rfl, rfl⟩
    exact ⟨f, hf, by rw [hclean f hf]⟩

/-- Every path of a tree is clean. -/
theorem cleanPath_of_stateIn_putTree (s : CasStore) (files : List FileInput) {path : Text}
    (h : stateIn (s.putTree files).1 path ≠ none) : cleanPath path = path := by
  obtain ⟨state, hstate⟩ := Option.ne_none_iff_exists'.mp h
  rw [stateIn_eq_get?] at hstate
  have hkey := mem_keys_iff.mpr ⟨_, hstate⟩
  rw [mem_keys_ofList, ((s.perm_putTree files).map Prod.fst).mem_iff,
    map_map] at hkey
  obtain ⟨f, -, rfl⟩ := mem_map.mp hkey
  exact cleanPath_cleanPath f.path

end

/-! ## One path -/

def stateOf (entry : Option TreeEntry) : Option (Text × ℕ) :=
  entry.map fun e => (e.hash, e.mode)

def PathMerge.state : PathMerge → Option (Option (Text × ℕ))
  | take entry => some (stateOf entry)
  | conflict => none

/-- A path is merged by its content hashes. -/
theorem state_mergePath (entryO entryT entryB : Option TreeEntry) :
    (mergePath entryO entryT entryB).state
      = ThreeWay.mergeBy (Option.map Prod.fst) Option.isSome (stateOf entryB) (stateOf entryO)
          (stateOf entryT) := by
  have hview (entry : Option TreeEntry) :
      (stateOf entry).map Prod.fst = entry.map TreeEntry.hash := by cases entry <;> rfl
  have hpresent (entry : Option TreeEntry) : (stateOf entry).isSome = entry.isSome := by
    cases entry <;> rfl
  unfold mergePath ThreeWay.mergeBy
  simp only [hview, hpresent]
  split_ifs <;> rfl

namespace MergeSides

variable (m : MergeSides) (path : Text)

/-- What the three-way rule makes of a path. -/
def rule : Option (Option (Text × ℕ)) :=
  ThreeWay.merge (stateIn m.base path) (stateIn m.ours path) (stateIn m.theirs path)

/-- One side has deleted the file, and the other has left it as it was. -/
def RefusesDeletion : Prop :=
  ThreeWay.Refuses (Option.map Prod.fst) Option.isSome (stateIn m.base path)
    (stateIn m.ours path) (stateIn m.theirs path)

/-- Both sides have changed the path, and differently; but at most one of them the content, or
both to the same content. -/
def OverlooksMode : Prop :=
  ThreeWay.Overlooks (Option.map Prod.fst) Option.isSome (stateIn m.base path)
    (stateIn m.ours path) (stateIn m.theirs path)

/-- Theirs alone has changed the path, and only its mode. -/
def LosesMode : Prop :=
  ThreeWay.Loses (Option.map Prod.fst) (stateIn m.base path) (stateIn m.ours path)
    (stateIn m.theirs path)

instance : Decidable (m.RefusesDeletion path) :=
  inferInstanceAs (Decidable (ThreeWay.Refuses ..))

instance : Decidable (m.OverlooksMode path) :=
  inferInstanceAs (Decidable (ThreeWay.Overlooks ..))

instance : Decidable (m.LosesMode path) := inferInstanceAs (Decidable (ThreeWay.Loses ..))

variable {m path}

theorem state_merged :
    (m.merged path).state = ThreeWay.mergeBy (Option.map Prod.fst) Option.isSome
      (stateIn m.base path) (stateIn m.ours path) (stateIn m.theirs path) :=
  state_mergePath _ _ _

theorem merged_eq_conflict_iff : m.merged path = .conflict ↔ (m.merged path).state = none := by
  cases m.merged path <;> simp [PathMerge.state]

theorem mem_allPaths : path ∈ m.allPaths ↔ path ∈ (entriesByPath m.ours).keys ∨
    path ∈ (entriesByPath m.theirs).keys ∨ path ∈ (entriesByPath m.base).keys := by
  rw [allPaths, distinct, mem_keys_ofList, map_map]
  simp only [Function.comp_def, map_id', mem_append, or_assoc]

theorem absent_of_not_mem (h : path ∉ m.allPaths) : (entriesByPath m.ours).get? path = none ∧
    (entriesByPath m.theirs).get? path = none ∧ (entriesByPath m.base).get? path = none := by
  rwa [mem_allPaths, not_or, not_or, ← get?_eq_none_iff,
    ← get?_eq_none_iff, ← get?_eq_none_iff] at h

/-- A path that is on none of the sides stays absent. -/
theorem merged_of_not_mem (h : path ∉ m.allPaths) : m.merged path = .take none := by
  obtain ⟨hours, htheirs, hbase⟩ := absent_of_not_mem h
  rw [merged, hours, htheirs, hbase]
  rfl

theorem mem_conflicts : path ∈ m.conflicts ↔ m.merged path = .conflict := by
  rw [conflicts, mem_filter, decide_eq_true_iff, and_iff_right_iff_imp]
  intro h
  by_contra hmem
  rw [merged_of_not_mem hmem] at h
  cases h

end MergeSides

/-! ## The whole merge -/

section

variable [Runtime] {s : CasStore} {m : MergeSides}

/-- The merge is the one of the three-way rule: in its conflicts, and if there are none in the
tree of the commit that it makes. -/
structure FollowsRule (s s' : CasStore) (m : MergeSides) (result : MergeResult) : Prop where
  conflicts : ∀ path, path ∈ result.conflicts ↔ m.rule path = none
  success : result.success = true ↔ ∀ path, m.rule path ≠ none
  tree : result.success = true → ∃ id commit tree, result.mergedCommitId = some id ∧
    s'.getCommit id = some commit ∧ s'.getTree commit.treeHash = some tree ∧
    ∀ path, m.rule path = some (stateIn tree path)
  unchanged : result.success = false →
    s'.commits = s.commits ∧ s'.branches = s.branches ∧ s'.headId = s.headId

/-- The content that is chosen for a path is in the store, under its hash, and the path is one
that a tree can have. -/
def ChosenStored (s : CasStore) (m : MergeSides) (path : Text) : Prop :=
  ∀ hash mode, m.rule path = some (some (hash, mode)) →
    cleanPath path = path ∧ ∃ blob, s.getBlob hash = some blob ∧ sha256 blob.data = hash

omit [Runtime] in
theorem mem_mergedFiles {f : FileInput} :
    f ∈ s.mergedFiles m ↔ ∃ e blob, m.merged f.path = .take (some e) ∧
      s.getBlob e.hash = some blob ∧ f = ⟨f.path, blob.data, some e.mode⟩ := by
  rw [CasStore.mergedFiles, mem_filterMap]
  constructor
  · rintro ⟨path, -, hf⟩
    split at hf
    · next e hmerged =>
      obtain ⟨blob, hblob, rfl⟩ := Option.map_eq_some_iff.mp hf
      exact ⟨e, blob, hmerged, hblob, rfl⟩
    · cases hf
  · rintro ⟨e, blob, hmerged, hblob, hf⟩
    refine ⟨f.path, ?_, ?_⟩
    · by_contra hmem
      rw [MergeSides.merged_of_not_mem hmem] at hmerged
      cases hmerged
    · rw [hmerged]
      show (s.getBlob e.hash).map _ = some f
      rw [hblob]
      exact congrArg some hf.symm

omit [Runtime] in
theorem nodup_mergedFiles : ((s.mergedFiles m).map FileInput.path).Nodup := by
  have hsub : ((s.mergedFiles m).map FileInput.path).Sublist m.allPaths := by
    unfold CasStore.mergedFiles
    induction m.allPaths with
    | nil => exact .slnil
    | cons path rest ih =>
      rw [filterMap_cons]
      split
      · exact ih.cons _
      · next f hf =>
        have hpath : f.path = path := by
          split at hf
          · obtain ⟨blob, -, rfl⟩ := Option.map_eq_some_iff.mp hf
            rfl
          · cases hf
        rw [map_cons, hpath]
        exact ih.cons_cons _
  exact hsub.nodup (InsertionMap.ofList _).nodup

/-- The states in the tree of the merge, where the paths are clean. -/
theorem stateIn_merge (hclean : ∀ f ∈ s.mergedFiles m, cleanPath f.path = f.path)
    {path hash : Text} {mode : ℕ} :
    stateIn (s.putTree (s.mergedFiles m)).1 path = some (hash, mode) ↔
      ∃ e blob, m.merged path = .take (some e) ∧ s.getBlob e.hash = some blob ∧
        sha256 blob.data = hash ∧ e.mode = mode := by
  rw [stateIn_putTree s hclean nodup_mergedFiles]
  constructor
  · rintro ⟨f, hf, rfl, rfl, rfl⟩
    obtain ⟨e, blob, hmerged, hblob, heq⟩ := mem_mergedFiles.mp hf
    rw [heq]
    exact ⟨e, blob, hmerged, hblob, rfl, rfl⟩
  · rintro ⟨e, blob, hmerged, hblob, rfl, rfl⟩
    exact ⟨⟨path, blob.data, some e.mode⟩, mem_mergedFiles.mpr ⟨e, blob, hmerged, hblob, rfl⟩,
      rfl, rfl, rfl⟩

omit [Runtime] in
/-- The conflicts are those of the rule exactly if no deletion is refused and no mode is
overlooked. -/
theorem conflicts_follow_iff :
    (∀ path, path ∈ m.conflicts ↔ m.rule path = none) ↔
      ∀ path, ¬ m.RefusesDeletion path ∧ ¬ m.OverlooksMode path := by
  have hconflict (path : Text) : path ∈ m.conflicts ↔ ThreeWay.mergeBy (Option.map Prod.fst)
      Option.isSome (stateIn m.base path) (stateIn m.ours path) (stateIn m.theirs path) = none := by
    rw [MergeSides.mem_conflicts, MergeSides.merged_eq_conflict_iff, MergeSides.state_merged]
  refine forall_congr' fun path => ?_
  rw [hconflict, MergeSides.RefusesDeletion, MergeSides.OverlooksMode, ThreeWay.refuses_iff,
    ThreeWay.overlooks_iff, MergeSides.rule]
  tauto

/-- The tree has the chosen states exactly if no mode is lost and the chosen contents are
there. -/
theorem tree_follows_iff (hrule : ∀ path, m.rule path ≠ none)
    (hmerged : ∀ path, m.merged path ≠ .conflict) :
    (∀ path, m.rule path = some (stateIn (s.putTree (s.mergedFiles m)).1 path)) ↔
      ∀ path, ¬ m.LosesMode path ∧ ChosenStored s m path := by
  -- an entry that is taken has the content that the rule chooses
  have htaken {path : Text} {e : TreeEntry} (he : m.merged path = .take (some e)) :
      ∃ mode, m.rule path = some (some (e.hash, mode)) := by
    obtain ⟨chosen, hchosen⟩ := Option.ne_none_iff_exists'.mp (hrule path)
    have hby := (@MergeSides.state_merged m path).symm
    rw [he] at hby
    have hview := ThreeWay.view_eq hby hchosen
    cases chosen with
    | none => cases hview
    | some state =>
      have hhash : e.hash = state.1 := Option.some.inj hview
      exact ⟨state.2, by rw [hchosen, hhash]⟩
  have hloses (path : Text) : m.LosesMode path ↔ ∃ entry, m.merged path = .take entry ∧
      m.rule path ≠ some (stateOf entry) := by
    rw [MergeSides.LosesMode, @ThreeWay.loses_iff _ _ _ _ _ Option.isSome]
    rw [← MergeSides.state_merged]
    constructor
    · rintro ⟨state, hstate, chosen, hchosen, hne⟩
      cases hm : m.merged path with
      | conflict => exact absurd hm (hmerged path)
      | take entry =>
        rw [hm] at hstate
        refine ⟨entry, rfl, fun h => hne ?_⟩
        rw [MergeSides.rule, hchosen] at h
        exact (Option.some.inj hstate).symm.trans (Option.some.inj h).symm
    · rintro ⟨entry, hentry, hne⟩
      obtain ⟨chosen, hchosen⟩ := Option.ne_none_iff_exists'.mp (hrule path)
      refine ⟨stateOf entry, by rw [hentry]; rfl, chosen, hchosen, fun h => hne ?_⟩
      rw [hchosen, h]
  constructor
  · intro htree
    have hclean : ∀ f ∈ s.mergedFiles m, cleanPath f.path = f.path := by
      intro f hf
      obtain ⟨e, blob, he, -, -⟩ := mem_mergedFiles.mp hf
      obtain ⟨mode, hmode⟩ := htaken he
      refine cleanPath_of_stateIn_putTree s (s.mergedFiles m) ?_
      rw [← Option.some.inj ((htree f.path).symm.trans hmode).symm]
      simp
    refine fun path => ⟨fun hlost => ?_, fun hash mode hchosen => ?_⟩
    · obtain ⟨entry, hentry, hne⟩ := (hloses path).mp hlost
      cases entry with
      | none =>
        refine hne ?_
        rw [htree path]
        cases hstate : stateIn (s.putTree (s.mergedFiles m)).1 path with
        | none => rfl
        | some state =>
          obtain ⟨e, blob, he, -⟩ := (stateIn_merge hclean).mp hstate
          rw [hentry] at he
          cases he
      | some e =>
        obtain ⟨mode, hmode⟩ := htaken hentry
        have hstate := Option.some.inj ((htree path).symm.trans hmode)
        obtain ⟨e', blob, he', -, -, hmode'⟩ := (stateIn_merge hclean).mp hstate
        rw [hentry] at he'
        obtain rfl := Option.some.inj (PathMerge.take.inj he')
        exact hne (by rw [hmode, ← hmode']; rfl)
    · have hstate := Option.some.inj ((htree path).symm.trans hchosen)
      obtain ⟨e, blob, he, hblob, hhash, -⟩ := (stateIn_merge hclean).mp hstate
      obtain ⟨mode', hmode'⟩ := htaken he
      rw [hchosen] at hmode'
      have heq : hash = e.hash := congrArg Prod.fst (Option.some.inj (Option.some.inj hmode'))
      refine ⟨cleanPath_of_stateIn_putTree s (s.mergedFiles m) (by rw [hstate]; simp), blob, ?_,
        hhash⟩
      rw [heq]
      exact hblob
  · intro hall path
    have hentry {path : Text} {entry : Option TreeEntry} (he : m.merged path = .take entry) :
        m.rule path = some (stateOf entry) := by
      by_contra hne
      exact (hall path).1 ((hloses path).mpr ⟨entry, he, hne⟩)
    have hclean : ∀ f ∈ s.mergedFiles m, cleanPath f.path = f.path := by
      intro f hf
      obtain ⟨e, blob, he, -, -⟩ := mem_mergedFiles.mp hf
      exact ((hall f.path).2 e.hash e.mode (hentry he)).1
    cases hm : m.merged path with
    | conflict => exact absurd hm (hmerged path)
    | take entry =>
      rw [hentry hm]
      cases entry with
      | none =>
        cases hstate : stateIn (s.putTree (s.mergedFiles m)).1 path with
        | none => rfl
        | some state =>
          obtain ⟨e, blob, he, -⟩ := (stateIn_merge hclean).mp hstate
          rw [hm] at he
          cases he
      | some e =>
        obtain ⟨-, blob, hblob, hhash⟩ := (hall path).2 e.hash e.mode (hentry hm)
        exact congrArg some
          ((stateIn_merge hclean).mpr ⟨e, blob, hm, hblob, hhash, rfl⟩).symm

/-- Nothing is misjudged where no side has anything. -/
theorem MergeSides.judged_of_not_mem (m : MergeSides) {path : Text} (h : path ∉ m.allPaths)
    (s : CasStore) :
    (¬ m.RefusesDeletion path ∧ ¬ m.OverlooksMode path) ∧ ¬ m.LosesMode path ∧
      ChosenStored s m path := by
  obtain ⟨hours, htheirs, hbase⟩ := absent_of_not_mem h
  have hstates : stateIn m.ours path = none ∧ stateIn m.theirs path = none ∧
      stateIn m.base path = none := by
    rw [stateIn, stateIn, stateIn, hours, htheirs, hbase]
    exact ⟨rfl, rfl, rfl⟩
  unfold RefusesDeletion OverlooksMode LosesMode ChosenStored rule
  rw [hstates.1, hstates.2.1, hstates.2.2]
  refine ⟨⟨by decide, by decide⟩, by decide, fun hash mode hchosen => ?_⟩
  cases hchosen

theorem mergeWith_of_conflicts {draw : Draw} {oursId theirsId : Text} {ours theirs : CheckpointNode}
    {base : Option Text} (hm : m = ⟨s.treeOf (some ours), s.treeOf (some theirs), s.baseTree base⟩)
    (h : m.conflicts ≠ []) :
    s.mergeWith draw oursId theirsId ours theirs base
      = (⟨false, none, m.conflicts, some m.conflictMarkers, base⟩, s) := by
  subst hm
  exact if_pos (length_pos_iff.mpr h)

/-- Without conflicts, a commit is made of the merged files. -/
theorem mergeWith_of_no_conflicts {draw : Draw} {oursId theirsId : Text}
    {ours theirs : CheckpointNode} {base : Option Text}
    (hm : m = ⟨s.treeOf (some ours), s.treeOf (some theirs), s.baseTree base⟩)
    (h : m.conflicts = []) :
    ∃ id s' commit, s.mergeWith draw oursId theirsId ours theirs base
        = (⟨true, some id, [], none, base⟩, s') ∧
      s'.getCommit id = some commit ∧
      s'.getTree commit.treeHash = some (s.putTree (s.mergedFiles m)).1 := by
  subst hm
  obtain ⟨commit, hcommit, htree⟩ := s.getTree_createCommit draw
    (text "Merge branch '" ++ (truthy theirs.branchName).getD (theirsId.take 8) ++
      text "' into '" ++ (truthy ours.branchName).getD (oursId.take 8) ++ text "'")
    (s.mergedFiles ⟨s.treeOf (some ours), s.treeOf (some theirs), s.baseTree base⟩)
    (max ours.frameIndex theirs.frameIndex + 1) (some oursId) none none
  refine ⟨_, _, commit, ?_, hcommit, htree⟩
  exact if_neg (by rw [h]; exact Nat.lt_irrefl 0)

theorem followsRule_mergeWith_iff {draw : Draw} {oursId theirsId : Text}
    {ours theirs : CheckpointNode} {base : Option Text}
    (hm : m = ⟨s.treeOf (some ours), s.treeOf (some theirs), s.baseTree base⟩) :
    FollowsRule s (s.mergeWith draw oursId theirsId ours theirs base).2 m
        (s.mergeWith draw oursId theirsId ours theirs base).1 ↔
      (∀ path, ¬ m.RefusesDeletion path ∧ ¬ m.OverlooksMode path) ∧
        ((∃ path, m.rule path = none) ∨ ∀ path, ¬ m.LosesMode path ∧ ChosenStored s m path) := by
  by_cases hconflicts : m.conflicts = []
  · obtain ⟨id, s', commit, hmerge, hcommit, htree⟩ :=
      @mergeWith_of_no_conflicts _ _ _ draw oursId theirsId _ _ _ hm hconflicts
    have hmerged (path : Text) : m.merged path ≠ .conflict := by
      intro h
      have hmem := MergeSides.mem_conflicts.mpr h
      rw [hconflicts] at hmem
      cases hmem
    rw [hmerge, ← conflicts_follow_iff, hconflicts]
    constructor
    · intro h
      have hrule (path : Text) : m.rule path ≠ none := h.success.mp rfl path
      refine ⟨h.conflicts, .inr ((tree_follows_iff hrule hmerged).mp fun path => ?_)⟩
      obtain ⟨id', commit', tree, hid, hcommit', htree', hfollows⟩ := h.tree rfl
      obtain rfl := Option.some.inj hid
      obtain rfl := Option.some.inj (hcommit.symm.trans hcommit')
      obtain rfl := Option.some.inj (htree.symm.trans htree')
      exact hfollows path
    · rintro ⟨hfollow, hchosen⟩
      have hrule (path : Text) : m.rule path ≠ none := by
        intro h
        cases (hfollow path).mpr h
      refine ⟨hfollow, ⟨fun _ => hrule, fun _ => rfl⟩, fun _ => ?_, fun h => (by cases h)⟩
      rcases hchosen with ⟨path, hpath⟩ | hchosen
      · exact absurd hpath (hrule path)
      · exact ⟨id, commit, _, rfl, hcommit, htree, (tree_follows_iff hrule hmerged).mpr hchosen⟩
  · rw [mergeWith_of_conflicts hm hconflicts, ← conflicts_follow_iff]
    constructor
    · intro h
      obtain ⟨path, hpath⟩ := exists_mem_of_ne_nil _ hconflicts
      exact ⟨h.conflicts, .inl ⟨path, (h.conflicts path).mp hpath⟩⟩
    · rintro ⟨hfollow, -⟩
      refine ⟨hfollow, ⟨fun h => (by cases h), fun h => ?_⟩, fun h => (by cases h),
        fun _ => ⟨rfl, rfl, rfl⟩⟩
      obtain ⟨path, hpath⟩ := exists_mem_of_ne_nil _ hconflicts
      exact absurd ((hfollow path).mp hpath) (h path)

/-- **Three-way merge.**  Take any store, two of its commits and their lowest common ancestor.
The merge returns and follows the three-way rule on every path, exactly if the parents of both
commits come to an end, no path is one where a deletion is refused or a change of the mode is
overlooked, and, unless some path is a conflict, no mode is lost and every chosen content is
in the store under its hash. -/
theorem merge_follows_rule_iff {oursId theirsId : Text} {ours theirs : CheckpointNode}
    (hours : s.getCommit oursId = some ours) (htheirs : s.getCommit theirsId = some theirs)
    {base : Option Text}
    (hbase : ParentChain.IsLowestCommonAncestor s.parentOf (truthy (some oursId))
      (truthy (some theirsId)) base)
    (hm : m = ⟨s.treeOf (some ours), s.treeOf (some theirs), s.baseTree base⟩) (draw : Draw) :
    (∃ result s', s.mergeCheckpoints draw oursId theirsId none = some (result, s') ∧
        FollowsRule s s' m result) ↔
      (ParentChain.Ends s.parentOf (truthy (some oursId)) ∧
        ParentChain.Ends s.parentOf (truthy (some theirsId))) ∧
      (∀ path, ¬ m.RefusesDeletion path ∧ ¬ m.OverlooksMode path) ∧
        ((∃ path, m.rule path = none) ∨ ∀ path, ¬ m.LosesMode path ∧ ChosenStored s m path) := by
  have hmerge : s.mergeCheckpoints draw oursId theirsId none
      = (s.findLowestCommonAncestor oursId theirsId).map
        (s.mergeWith draw oursId theirsId ours theirs) := by
    simp only [CasStore.mergeCheckpoints, hours, htheirs, CasStore.mergeAncestor]
  rw [hmerge, ← @followsRule_mergeWith_iff _ _ _ draw oursId theirsId _ _ _ hm]
  constructor
  · rintro ⟨result, s', hreturns, hfollows⟩
    obtain ⟨base', hbase', heq⟩ := Option.map_eq_some_iff.mp hreturns
    obtain ⟨hends, hends', hlowest⟩ := CasStore.findLowestCommonAncestor_eq_some_iff.mp hbase'
    obtain rfl := hends.lowest_unique hbase hlowest
    refine ⟨⟨hends, hends'⟩, ?_⟩
    rw [heq]
    exact hfollows
  · rintro ⟨⟨hends, hends'⟩, hfollows⟩
    have hfound := CasStore.findLowestCommonAncestor_eq_some_iff.mpr ⟨hends, hends', hbase⟩
    refine ⟨(s.mergeWith draw oursId theirsId ours theirs base).1, _, ?_, hfollows⟩
    rw [hfound, Option.map_some, Prod.mk.eta]

instance (path : Text) : Decidable (ChosenStored s m path) :=
  decidable_of_iff (∀ state ∈ (m.rule path).bind id, cleanPath path = path ∧
      ∃ blob ∈ s.getBlob state.1, sha256 blob.data = state.1) <| by
    unfold ChosenStored
    cases m.rule path with
    | none => simp
    | some state =>
      cases state with
      | none => simp
      | some state =>
        obtain ⟨hash, mode⟩ := state
        simp

end

/-! ## A deletion on one side -/

section

open scoped Plain

def draw : Draw := ⟨0, []⟩

/-- A file of one byte. -/
def file (path : String) (content : UInt8) : FileInput := ⟨text path, [content], none⟩

/-- Two commits on a common one: ours changes the file `b`, theirs has these files. -/
def forked (theirs : List FileInput) : (Text × Text) × CasStore :=
  let (base, s) := CasStore.new.createCommit draw [] [file "a" 1, file "b" 1] 1 none none none
  let (ours, s) := s.createCommit draw [] [file "a" 1, file "b" 2] 2 (some base) none none
  let (theirs, s) := s.createCommit draw [] theirs 2 (some base) none none
  ((ours, theirs), s)

/-- The trees of both and of their common parent. -/
def sides (theirs : List FileInput) : MergeSides :=
  let s := (forked theirs).2
  ⟨s.treeOf (s.getCommit (forked theirs).1.1), s.treeOf (s.getCommit (forked theirs).1.2),
    s.baseTree ((s.getCommit (forked theirs).1.1).bind CheckpointNode.parentId)⟩

/-- Theirs deletes a file that ours leaves as it was. -/
theorem deletion_is_refused :
    ((forked [file "b" 1]).2.mergeCheckpoints draw (forked [file "b" 1]).1.1
        (forked [file "b" 1]).1.2 none).map (fun r => (r.1.success, r.1.conflicts))
      = some (false, [text "a"]) ∧
    (sides [file "b" 1]).rule (text "a") = some none ∧
    ∀ path ∈ (sides [file "b" 1]).allPaths, (sides [file "b" 1]).rule path ≠ none := by
  decide

/-- The files of theirs, with one that is new. -/
def additions : List FileInput := [file "a" 1, file "b" 1, file "c" 3]

/-- What theirs adds and ours changes is both in the merge. -/
theorem addition_is_merged :
    ∃ result s', (forked additions).2.mergeCheckpoints draw (forked additions).1.1
        (forked additions).1.2 none = some (result, s') ∧
      FollowsRule (forked additions).2 s' (sides additions) result := by
  have hours : ((forked additions).2.getCommit (forked additions).1.1).isSome := by decide
  have htheirs : ((forked additions).2.getCommit (forked additions).1.2).isSome := by decide
  obtain ⟨ours, hours⟩ := Option.isSome_iff_exists.mp hours
  obtain ⟨other, htheirs⟩ := Option.isSome_iff_exists.mp htheirs
  have hfound : (forked additions).2.findLowestCommonAncestor (forked additions).1.1
      (forked additions).1.2 = some (((forked additions).2.getCommit (forked additions).1.1).bind
        CheckpointNode.parentId) := by decide
  obtain ⟨hends, hends', hbase⟩ := CasStore.findLowestCommonAncestor_eq_some_iff.mp hfound
  have hrows : ∀ path ∈ (sides additions).allPaths,
      (¬ (sides additions).RefusesDeletion path ∧ ¬ (sides additions).OverlooksMode path) ∧
        ¬ (sides additions).LosesMode path ∧
          ChosenStored (forked additions).2 (sides additions) path := by
    decide
  have hall (path : Text) :
      (¬ (sides additions).RefusesDeletion path ∧ ¬ (sides additions).OverlooksMode path) ∧
        ¬ (sides additions).LosesMode path ∧
          ChosenStored (forked additions).2 (sides additions) path := by
    by_cases hpath : path ∈ (sides additions).allPaths
    · exact hrows path hpath
    · exact (sides additions).judged_of_not_mem hpath _
  refine (merge_follows_rule_iff hours htheirs hbase ?_ draw).mpr
    ⟨⟨hends, hends'⟩, fun path => (hall path).1, .inr fun path => (hall path).2⟩
  rw [sides, hours, htheirs]

end

end Lumi.Cas
