import Mathlib.Data.List.Infix
import Lumi.Cas.Histories

/-!
# Rebases and reverts

A rebase commits the whole tree of each commit that it replays again, so it ends with the tree that
the source had, whatever is on the branch it goes onto.  Picked one after the other, the same commits
would leave every path that none of them changes as it is there.  The two agree if there is nothing
to replay, or if source and onto agree on all of these paths and no commit has changed the mode of
any other path after its content (`rebase_eq_picks_iff`).

A revert commits the whole tree of the parent again, so it takes back what was committed since, too
(`reverts_only_iff`).
-/

namespace Lumi.Cas

open Js List Option

section

variable [Runtime] {s : CasStore}

namespace CasStore

/-! ## The commits above an ancestor -/

/-- Those of the ids that are commits, the oldest first. -/
def oldestFirst (s : CasStore) (ids : List Text) : List Text :=
  ids.reverse.filter fun id => (s.getCommit id).isSome

/-- The commits from one on that are above the ancestor. -/
def commitsAbove (s : CasStore) (sourceId : Text) (lca : Option Text) : List Text :=
  s.oldestFirst (((s.walk (fun id => decide (some id = lca)) sourceId).map Prod.fst).getD [])

/-- The id, if it is that of a commit, or an empty one. -/
def keyOf (s : CasStore) (id : Option Text) : Text :=
  (id.filter fun id => (s.getCommit id).isSome).getD []

variable {stop : Text → Bool} {steps : ℕ} {curr : Option Text} {r : List Text × Option Text}

variable {lca : Option Text}

section

omit [Runtime]

theorem mem_commitsAbove {sourceId : Text} {id : Text} (hid : id ∈ s.commitsAbove sourceId lca) :
    s.getCommit id ≠ none := by
  have hsome := (mem_filter.mp hid).2
  rwa [isSome_iff_ne_none] at hsome

theorem oldestFirst_cons (id : Text) (ids : List Text) :
    s.oldestFirst (id :: ids)
      = s.oldestFirst ids ++ if (s.getCommit id).isSome then [id] else [] := by
  rw [oldestFirst, reverse_cons, filter_append, filter_singleton]
  cases (s.getCommit id).isSome <;> rfl

theorem filterMap_oldestFirst (ids : List Text) :
    (s.oldestFirst ids).filterMap s.getCommit = (ids.filterMap s.getCommit).reverse := by
  induction ids with
  | nil => rfl
  | cons id rest ih =>
    rw [oldestFirst_cons, filterMap_append, ih, filterMap_cons]
    cases hcommit : s.getCommit id with
    | none => rw [isSome_none, if_neg Bool.false_ne_true, filterMap_nil,
        append_nil]
    | some commit =>
      rw [isSome_some, if_pos rfl, filterMap_cons, hcommit, filterMap_nil,
        reverse_cons]

/-- That the loop of a rebase stops at `root` too makes no difference, if that is no commit. -/
theorem filterMap_walk_root (hroot : s.getCommit (text "root") = none)
    (h : ParentChain.walk s.parentOf stop steps curr = some r) :
    ∃ r', ParentChain.walk s.parentOf (fun id => stop id || decide (id = text "root")) steps curr
        = some r' ∧ r'.1.filterMap s.getCommit = r.1.filterMap s.getCommit := by
  induction steps generalizing curr r with
  | zero => cases h
  | succ steps ih =>
    cases curr with
    | none =>
      obtain rfl := Option.some.inj h
      exact ⟨_, rfl, rfl⟩
    | some id =>
      simp only [ParentChain.walk] at h ⊢
      by_cases hstop : stop id = true
      · rw [if_pos hstop] at h
        obtain rfl := Option.some.inj h
        exact ⟨_, if_pos (by rw [hstop, Bool.true_or]), rfl⟩
      · rw [if_neg hstop] at h
        obtain ⟨r', hwalk, rfl⟩ := map_eq_some_iff.mp h
        by_cases hid : id = text "root"
        · -- past `root` there is nothing
          subst hid
          have hparent : s.parentOf (text "root") = none := by
            rw [parentOf, hroot]
            rfl
          rw [hparent] at hwalk
          refine ⟨_, if_pos (by rw [decide_eq_true rfl, Bool.or_true]), ?_⟩
          rw [ParentChain.walk_none hwalk, filterMap_cons, hroot]
        · obtain ⟨r'', hwalk', hsame⟩ := ih hwalk
          rw [if_neg (by rwa [decide_eq_false hid, Bool.or_false]), hwalk']
          exact ⟨_, rfl, by rw [filterMap_cons, filterMap_cons, hsame]⟩

/-- The walk up to the ancestor, if there is one that ends. -/
theorem walk_of_lca {sourceId ontoId : Text}
    (hlca : s.findLowestCommonAncestor sourceId ontoId = some lca) :
    ∃ steps r, ParentChain.walk s.parentOf (fun id => decide (some id = lca)) steps
      (truthy (some sourceId)) = some r ∧
      s.commitsAbove sourceId lca = s.oldestFirst r.1 := by
  obtain ⟨hends, -, -⟩ := findLowestCommonAncestor_eq_some_iff.mp hlca
  obtain ⟨steps, r, hwalk⟩ := ParentChain.walk_of_ends (fun id => decide (some id = lca)) hends
  refine ⟨steps, r, hwalk, ?_⟩
  rw [commitsAbove, walk_of_exists hwalk, map_some, getD_some]

/-- A rebase replays the commits above the ancestor. -/
theorem commitsToReplay_eq (hroot : s.getCommit (text "root") = none) {sourceId ontoId : Text}
    (hlca : s.findLowestCommonAncestor sourceId ontoId = some lca) :
    s.commitsToReplay sourceId ontoId
      = some ((s.commitsAbove sourceId lca).filterMap s.getCommit) := by
  obtain ⟨steps, r, hwalk, habove⟩ := walk_of_lca hlca
  obtain ⟨r', hwalk', hsame⟩ := filterMap_walk_root hroot hwalk
  have hstop : (fun id => decide (some id = lca) || decide (id = text "root"))
      = fun id => decide (some id = lca ∨ id = text "root") :=
    funext fun id => (Bool.decide_or _ _).symm
  rw [hstop] at hwalk'
  rw [commitsToReplay, hlca, habove, filterMap_oldestFirst, ← hsame]
  show (s.walk _ sourceId).map _ = _
  rw [walk_of_exists hwalk', map_some]

end

/-! ## Contents on the way up -/

/-- The content of a path in the commit under an id. -/
def contentAt (s : CasStore) (id path : Text) : Option Text :=
  (stateIn (s.commitTree id) path).map Prod.fst

section

omit [Runtime]

theorem parentKey_eq_keyOf (id : Text) : s.parentKey id = s.keyOf (s.parentOf id) := by
  rw [parentKey, parentOf, keyOf, findCommit]
  cases truthy ((s.getCommit id).bind CheckpointNode.parentId) with
  | none => rfl
  | some parent =>
    rw [bind_some, filter_some]
    cases s.getCommit parent <;> rfl

theorem keyOf_eq {id : Text} (hcommit : s.getCommit id ≠ none) : s.keyOf (some id) = id := by
  obtain ⟨commit, hcommit⟩ := ne_none_iff_exists'.mp hcommit
  rw [keyOf, filter_some, hcommit]
  rfl

/-- Since the last commit that changed the content of a path it has been the same. -/
theorem contentAt_lastChange (h : ParentChain.walk s.parentOf stop steps curr = some r)
    {path id : Text} (hlast : s.lastChange (s.oldestFirst r.1) path = some id) :
    s.contentAt id path = s.contentAt (s.keyOf curr) path := by
  induction steps generalizing curr r with
  | zero => cases h
  | succ steps ih =>
    cases curr with
    | none =>
      obtain rfl := Option.some.inj h
      cases hlast
    | some start =>
      simp only [ParentChain.walk] at h
      split_ifs at h
      · obtain rfl := Option.some.inj h
        cases hlast
      · obtain ⟨r', hwalk, rfl⟩ := map_eq_some_iff.mp h
        rw [oldestFirst_cons] at hlast
        cases hcommit : s.getCommit start with
        | none =>
          rw [hcommit, isSome_none, if_neg Bool.false_ne_true,
            append_nil] at hlast
          have hkey : s.keyOf (some start) = s.keyOf (s.parentOf start) := by
            rw [parentOf, hcommit, keyOf, filter_some, hcommit]
            rfl
          rw [hkey]
          exact ih hwalk hlast
        | some commit =>
          have hsome : s.getCommit start ≠ none := by simp [hcommit]
          rw [hcommit, isSome_some, if_pos rfl, lastChange_concat] at hlast
          rw [keyOf_eq hsome]
          split at hlast
          · rw [Option.some.inj hlast]
          · next hsame =>
            rw [ih hwalk hlast, ← parentKey_eq_keyOf]
            exact not_not.mp hsame

/-- The last of the commits above is the one at which the walk began. -/
theorem commitsAbove_eq_concat {sourceId ontoId : Text}
    (hlca : s.findLowestCommonAncestor sourceId ontoId = some lca)
    (hne : s.commitsAbove sourceId lca ≠ []) :
    truthy (some sourceId) = some sourceId ∧ s.getCommit sourceId ≠ none ∧
      ∃ before, s.commitsAbove sourceId lca = before ++ [sourceId] := by
  obtain ⟨steps, r, hwalk, habove⟩ := walk_of_lca hlca
  rw [habove] at hne ⊢
  cases steps with
  | zero => cases hwalk
  | succ steps =>
    by_cases hempty : sourceId = []
    · subst hempty
      obtain rfl := Option.some.inj hwalk
      exact absurd rfl hne
    · have htruthy : truthy (some sourceId) = some sourceId := by
        rw [truthy, filter_some, if_pos (decide_eq_true hempty)]
      rw [htruthy] at hwalk
      simp only [ParentChain.walk] at hwalk
      split_ifs at hwalk
      · obtain rfl := Option.some.inj hwalk
        exact absurd rfl hne
      · obtain ⟨r', hwalk', rfl⟩ := map_eq_some_iff.mp hwalk
        rw [oldestFirst_cons] at hne ⊢
        cases hcommit : s.getCommit sourceId with
        | some commit =>
          rw [isSome_some, if_pos rfl]
          exact ⟨htruthy, some_ne_none _, _, rfl⟩
        | none =>
          -- what is no commit has no parent
          have hparent : s.parentOf sourceId = none := by
            rw [parentOf, hcommit]
            rfl
          rw [hparent] at hwalk'
          rw [hcommit, ParentChain.walk_none hwalk'] at hne
          exact absurd rfl hne

end

/-! ## What is replayed -/

theorem replay_concat (sourceBranchName : Text) (clock : ℕ → Draw) (i : ℕ) (newParentId : Text)
    (s : CasStore) (commits : List CheckpointNode) (c : CheckpointNode) :
    let t := replay sourceBranchName clock i newParentId s commits
    replay sourceBranchName clock i newParentId s (commits ++ [c])
      = t.2.createCommit (clock (i + commits.length)) c.message
          (t.2.filesOf (t.2.treeOf (some c))) c.frameIndex (some t.1) (some sourceBranchName)
          (some c.changeId) := by
  induction commits generalizing i newParentId s with
  | nil => rfl
  | cons c' rest ih =>
    rw [length_cons, Nat.add_comm rest.length, ← Nat.add_assoc]
    exact ih _ _ _

theorem extends_replay (s : CasStore) (sourceBranchName : Text) (clock : ℕ → Draw) (i : ℕ)
    (newParentId : Text) (commits : List CheckpointNode) :
    Extends s (replay sourceBranchName clock i newParentId s commits).2 := by
  induction commits generalizing s i newParentId with
  | nil => exact Extends.refl s
  | cons c rest ih => exact (extends_createCommit s _ _ _ _ _ _ _).trans (ih _ _ _)

/-- The commit that is made last has the states of the one that is replayed last. -/
theorem stateIn_replay (hkept : WellKept s) {sourceBranchName : Text} {clock : ℕ → Draw}
    {newParentId sourceId : Text} {commits : List CheckpointNode} {c : CheckpointNode}
    (hc : s.getCommit sourceId = some c)
    (hkeeps : s.Keeps (replay sourceBranchName clock 0 newParentId s commits).2) (path : Text) :
    let r := replay sourceBranchName clock 0 newParentId s (commits ++ [c])
    stateIn (r.2.commitTree r.1) path = stateIn (s.commitTree sourceId) path := by
  obtain ⟨t, ht⟩ : ∃ t, t = replay sourceBranchName clock 0 newParentId s commits := ⟨_, rfl⟩
  rw [← ht] at hkeeps
  have hextends : Extends s t.2 := ht ▸ extends_replay s _ _ _ _ _
  have hlisting := hkeeps.listing_treeOf hc
  have htree : Kept t.2 (t.2.treeOf (some c)) :=
    ((hkept sourceId c hc).extends hextends).of_listing hlisting
  have hput := (branchTree_createCommit (s := t.2) (clock (0 + commits.length)) c.message
    (t.2.filesOf (t.2.treeOf (some c))) c.frameIndex (some t.1) (some c.changeId)
    sourceBranchName).2.1
  intro r
  have hr : r = t.2.createCommit (clock (0 + commits.length)) c.message
      (t.2.filesOf (t.2.treeOf (some c))) c.frameIndex (some t.1) (some sourceBranchName)
      (some c.changeId) := by rw [ht]; exact replay_concat _ _ _ _ _ _ _
  calc stateIn (r.2.commitTree r.1) path
      = stateIn (t.2.putTree (t.2.filesOf (t.2.treeOf (some c)))).1 path := by rw [hr, hput]
    _ = stateIn (t.2.treeOf (some c)) path := by
        rw [stateIn_putTree_byPath (fun f hf => htree.storedFile_filesOf hf) htree.nodup_filesOf,
          htree.map_byPath_filesOf]
    _ = stateIn (s.treeOf (some c)) path := stateIn_congr hlisting path
    _ = stateIn (s.commitTree sourceId) path := by rw [commitTree, hc]

end CasStore

/-! ## Rebases and picks -/

namespace CasStore

/-- A rebase leaves the source with the states that its commits would leave on the other branch, if
they were picked onto it. -/
def RebasesAsPicked (s : CasStore) (clock : ℕ → Draw) (pickClock : Text → Draw)
    (source onto : Text) (ids : List Text) : Prop :=
  ∃ newHead count s', s.rebase clock source onto = some (some (newHead, count), s') ∧
    ∀ path, stateIn (s'.branchTree source) path
      = stateIn ((s.cherryPickAll pickClock onto ids).branchTree onto) path

theorem RebasesAsPicked.rebase_eq {clock : ℕ → Draw} {pickClock : Text → Draw} {source onto : Text}
    {ids : List Text} (h : s.RebasesAsPicked clock pickClock source onto ids) (path : Text) :
    (s.rebase clock source onto).map (fun r => stateIn (r.2.branchTree source) path)
      = some (stateIn ((s.cherryPickAll pickClock onto ids).branchTree onto) path) := by
  obtain ⟨_, _, s', hrebase, hsame⟩ := h
  rw [hrebase, map_some, hsame]

/-- A path that none of the commits changes is as on the other branch, and what is changed has its
mode with its last content. -/
def RebaseSafeAt (s : CasStore) (source onto : Text) (ids : List Text) (path : Text) : Prop :=
  match s.lastChange ids path with
  | none => stateIn (s.branchTree onto) path = stateIn (s.branchTree source) path
  | some id => (stateIn (s.commitTree id) path).map Prod.snd
      = (stateIn (s.branchTree source) path).map Prod.snd

instance (source onto : Text) (ids : List Text) (path : Text) :
    Decidable (s.RebaseSafeAt source onto ids path) := by
  unfold RebaseSafeAt
  split
  · exact inferInstance
  · exact inferInstance

def RebaseSafe (s : CasStore) (source onto : Text) (ids : List Text) : Prop :=
  ∀ path, s.RebaseSafeAt source onto ids path

/-- The paths that are in a tree. -/
def listedPaths (s : CasStore) : List Text :=
  s.trees.values.flatMap fun tree => tree.map TreeEntry.path

omit [Runtime] in
/-- A path that is in no tree is absent from each. -/
theorem stateIn_of_not_listed {path : Text} (h : path ∉ s.listedPaths)
    (commit : Option CheckpointNode) : stateIn (s.treeOf commit) path = none := by
  rw [stateIn, map_eq_none_iff, InsertionMap.get?_eq_none_iff, mem_keys_entriesByPath]
  rintro ⟨e, he, rfl⟩
  refine h ?_
  cases commit with
  | none => cases he
  | some c =>
    rw [treeOf, bind_some, getTree] at he
    cases htree : s.trees.get? c.treeHash with
    | none =>
      rw [htree] at he
      cases he
    | some tree =>
      rw [htree, getD_some] at he
      refine mem_flatMap.mpr ⟨tree, ?_, mem_map_of_mem he⟩
      exact mem_map.mpr ⟨_, InsertionMap.mem_entries_iff.mpr htree, rfl⟩

omit [Runtime] in
/-- Only the paths that are in a tree have to be looked at. -/
theorem rebaseSafe_iff_forall_listed (source onto : Text) (ids : List Text) :
    s.RebaseSafe source onto ids ↔ ∀ path ∈ s.listedPaths, s.RebaseSafeAt source onto ids path := by
  refine ⟨fun h path _ => h path, fun h path => ?_⟩
  by_cases hpath : path ∈ s.listedPaths
  · exact h path hpath
  · have hstate := stateIn_of_not_listed hpath
    have hnone : s.lastChange ids path = none := by
      rw [lastChange, getLast?_eq_none_iff, filter_eq_nil_iff]
      intro id _
      rw [decide_eq_true_iff, changes, parentTree, commitTree, commitTree, hstate, hstate]
      exact not_not.mpr rfl
    rw [RebaseSafeAt, hnone, branchTree, branchTree, hstate, hstate]

instance (source onto : Text) (ids : List Text) : Decidable (s.RebaseSafe source onto ids) :=
  decidable_of_iff _ (rebaseSafe_iff_forall_listed source onto ids).symm

variable {clock : ℕ → Draw} {pickClock : Text → Draw} {source onto : Text}
  {sourceBranch ontoBranch : BranchRef} {lca : Option Text}

omit [Runtime] in
theorem branchTree_setRef (t : CasStore) (name : Text) (ref : BranchRef) :
    CasStore.branchTree { t with branches := t.branches.set name ref } name
      = t.commitTree ref.commitId := by
  rw [branchTree, InsertionMap.get?_set_self]
  rfl

omit [Runtime] in
/-- The states of one content differ in the mode. -/
theorem state_eq_iff {a b : Option (Text × ℕ)} (h : a.map Prod.fst = b.map Prod.fst) :
    b = a ↔ a.map Prod.snd = b.map Prod.snd := by
  cases a with
  | none =>
    cases b with
    | none => simp
    | some state => cases h
  | some state =>
    cases b with
    | none => cases h
    | some state' =>
      have hcontent : state.1 = state'.1 := Option.some.inj h
      simp only [Option.some.injEq, map_some, Prod.ext_iff, hcontent, true_and]
      exact eq_comm

/-- What a rebase leaves on the source. -/
theorem stateIn_rebase (hkept : WellKept s) (hroot : s.getCommit (text "root") = none)
    (hsource : s.branches.get? source = some sourceBranch)
    (honto : s.branches.get? onto = some ontoBranch)
    (hlca : s.findLowestCommonAncestor sourceBranch.commitId ontoBranch.commitId = some lca)
    (hreplays : ∀ commits, commits <+: (s.commitsAbove sourceBranch.commitId lca).filterMap
      s.getCommit → s.Keeps (replay source clock 0 ontoBranch.commitId s commits).2) :
    ∃ newHead count s', s.rebase clock source onto = some (some (newHead, count), s') ∧
      ∀ path, stateIn (s'.branchTree source) path =
        if s.commitsAbove sourceBranch.commitId lca = [] then stateIn (s.branchTree onto) path
        else stateIn (s.branchTree source) path := by
  obtain ⟨commits, hcommits⟩ : ∃ commits,
      commits = (s.commitsAbove sourceBranch.commitId lca).filterMap s.getCommit := ⟨_, rfl⟩
  obtain ⟨r, hr⟩ : ∃ r, r = replay source clock 0 ontoBranch.commitId s commits := ⟨_, rfl⟩
  have hrebase : s.rebase clock source onto = some (some (r.1, commits.length), { r.2 with
      branches := r.2.branches.set source
        ⟨r.1, sourceBranch.createdAt, (clock commits.length).now⟩ }) := by
    rw [rebase, hsource, honto]
    show (s.commitsToReplay sourceBranch.commitId ontoBranch.commitId).map _ = _
    rw [commitsToReplay_eq hroot hlca, ← hcommits, hr]
    rfl
  refine ⟨_, _, _, hrebase, fun path => ?_⟩
  rw [branchTree_setRef, branchTree_of_get? hsource, branchTree_of_get? honto]
  by_cases hnil : s.commitsAbove sourceBranch.commitId lca = []
  · rw [hnil] at hcommits
    rw [if_pos hnil, hr, hcommits]
    rfl
  · obtain ⟨-, hcommit, before, habove⟩ := commitsAbove_eq_concat hlca hnil
    obtain ⟨c, hc⟩ := ne_none_iff_exists'.mp hcommit
    have hlast : commits = before.filterMap s.getCommit ++ [c] := by
      rw [hcommits, habove, filterMap_append, filterMap_cons, hc, filterMap_nil]
    rw [← hcommits, hlast] at hreplays
    rw [if_neg hnil, hr, hlast]
    exact stateIn_replay hkept hc (hreplays _ (prefix_append _ _)) path

/-- **When a rebase is a sequence of picks.**  If and only if there is nothing to replay, or the
paths that are not changed agree on the two branches and the others keep the mode that they have
with their last content. -/
theorem rebase_eq_picks_iff (hkept : WellKept s) (hroot : s.getCommit (text "root") = none)
    (hsource : s.branches.get? source = some sourceBranch)
    (honto : s.branches.get? onto = some ontoBranch)
    (hlca : s.findLowestCommonAncestor sourceBranch.commitId ontoBranch.commitId = some lca)
    (hreplays : ∀ commits, commits <+: (s.commitsAbove sourceBranch.commitId lca).filterMap
      s.getCommit → s.Keeps (replay source clock 0 ontoBranch.commitId s commits).2)
    (hpicks : ∀ ids, ids <+: s.commitsAbove sourceBranch.commitId lca →
      s.Keeps (s.cherryPickAll pickClock onto ids)) :
    s.RebasesAsPicked clock pickClock source onto (s.commitsAbove sourceBranch.commitId lca) ↔
      s.commitsAbove sourceBranch.commitId lca = [] ∨
        s.RebaseSafe source onto (s.commitsAbove sourceBranch.commitId lca) := by
  obtain ⟨newHead, count, s', hrebase, hstates⟩ :=
    stateIn_rebase hkept hroot hsource honto hlca hreplays
  have hbranch : s.branches.get? onto ≠ none := by simp [honto]
  have hhead : Kept s (s.branchTree onto) := branchTree_of_get? honto ▸ hkept.commitTree _
  obtain ⟨-, -, -, hpicked⟩ := stateIn_cherryPickAll hkept hbranch hhead pickClock
    (fun id hid => mem_commitsAbove hid) hpicks
  have hiff : s.RebasesAsPicked clock pickClock source onto
        (s.commitsAbove sourceBranch.commitId lca) ↔
      ∀ path, (if s.commitsAbove sourceBranch.commitId lca = [] then
          stateIn (s.branchTree onto) path else stateIn (s.branchTree source) path)
        = s.pickedState onto (s.commitsAbove sourceBranch.commitId lca) path := by
    constructor
    · rintro ⟨_, _, s'', hrebase', hsame⟩ path
      obtain rfl := (Prod.mk.inj (Option.some.inj (hrebase.symm.trans hrebase'))).2
      rw [← hstates, ← hpicked]
      exact hsame path
    · intro hsame
      refine ⟨newHead, count, s', hrebase, fun path => ?_⟩
      rw [hstates, hpicked]
      exact hsame path
  rw [hiff]
  by_cases hnil : s.commitsAbove sourceBranch.commitId lca = []
  · rw [or_iff_left_of_imp fun _ => hnil, hnil]
    exact iff_of_true (fun path => rfl) rfl
  · rw [or_iff_right hnil]
    refine forall_congr' fun path => ?_
    rw [if_neg hnil, pickedState, RebaseSafeAt]
    cases hlast : s.lastChange (s.commitsAbove sourceBranch.commitId lca) path with
    | none => exact eq_comm
    | some id =>
      -- the content is that of the commit, so only the mode can differ
      obtain ⟨htruthy, hcommit, -⟩ := commitsAbove_eq_concat hlca hnil
      obtain ⟨steps, r, hwalk, habove⟩ := walk_of_lca hlca
      rw [habove] at hlast
      have hcontent := contentAt_lastChange hwalk hlast
      rw [htruthy, keyOf_eq hcommit, contentAt, contentAt,
        ← branchTree_of_get? hsource] at hcontent
      exact state_eq_iff hcontent

/-! ## Reverts -/

/-- The tree of the parent of a commit, if it has one. -/
def treeBefore (s : CasStore) (commitId : Text) : List TreeEntry :=
  s.treeOf
    ((s.findCommit ((s.getCommit commitId).bind CheckpointNode.parentId)).map Prod.snd)

/-- A revert leaves what the commit did not change as it is at HEAD, and takes back what it changed
and HEAD still has from it. -/
def RevertsOnly (s : CasStore) (draw : Draw) (commitId : Text) : Prop :=
  ∃ revertId s', s.revert draw commitId = (some revertId, s') ∧ ∀ path,
    (stateIn (s.commitTree commitId) path = stateIn (s.treeBefore commitId) path →
      stateIn (s'.commitTree revertId) path = stateIn s.headTree path) ∧
    (stateIn (s.commitTree commitId) path ≠ stateIn (s.treeBefore commitId) path →
      stateIn s.headTree path = stateIn (s.commitTree commitId) path →
        stateIn (s'.commitTree revertId) path = stateIn (s.treeBefore commitId) path)

/-- Nothing that the commit did not change has been changed since. -/
def RevertSafe (s : CasStore) (commitId : Text) : Prop :=
  ∀ path, stateIn (s.commitTree commitId) path = stateIn (s.treeBefore commitId) path →
    stateIn s.headTree path = stateIn (s.treeBefore commitId) path

/-- A revert makes a commit with the states of the parent. -/
theorem stateIn_revert (hkept : WellKept s) (draw : Draw) {commitId : Text}
    (hcommit : s.getCommit commitId ≠ none) :
    ∃ revertId s', s.revert draw commitId = (some revertId, s') ∧
      ∀ path, stateIn (s'.commitTree revertId) path = stateIn (s.treeBefore commitId) path := by
  obtain ⟨commit, hcommit⟩ := ne_none_iff_exists'.mp hcommit
  have hbefore : s.treeBefore commitId
      = s.treeOf ((s.findCommit commit.parentId).map Prod.snd) := by
    rw [treeBefore, hcommit, bind_some]
  have htree : Kept s (s.treeBefore commitId) := hbefore ▸ hkept.findCommit commit.parentId
  refine ⟨_, _, by rw [revert, hcommit], fun path => ?_⟩
  rw [(branchTree_createCommit (s := s) _ _ _ _ _ _ _).2.1, ← hbefore,
    stateIn_putTree_byPath (fun f hf => htree.storedFile_filesOf hf) htree.nodup_filesOf,
    htree.map_byPath_filesOf]

/-- **When a revert undoes only its commit.**  If and only if nothing that the commit did not change
has been changed since. -/
theorem reverts_only_iff (hkept : WellKept s) (draw : Draw) {commitId : Text}
    (hcommit : s.getCommit commitId ≠ none) :
    s.RevertsOnly draw commitId ↔ s.RevertSafe commitId := by
  obtain ⟨revertId, s', hrevert, hstates⟩ := stateIn_revert hkept draw hcommit
  constructor
  · rintro ⟨revertId', s'', hrevert', honly⟩ path hsame
    obtain ⟨hid, rfl⟩ := Prod.mk.inj (hrevert.symm.trans hrevert')
    obtain rfl := Option.some.inj hid
    rw [← (honly path).1 hsame, hstates]
  · intro hsafe
    refine ⟨revertId, s', hrevert, fun path => ⟨fun hsame => ?_, fun _ _ => hstates path⟩⟩
    rw [hstates, hsafe path hsame]

end CasStore

end

section

open Plain

namespace CasStore

/-- A file with one byte. -/
def oneByte (path : String) (byte : UInt8) : FileInput := ⟨text path, [byte], none⟩

/-- A commit, one on `main` that follows it, and one on `dev` that follows it too. -/
def twoBranches (base main dev : List FileInput) : List CasCall :=
  [.createCommit ⟨1, []⟩ [] base 1 none none none, .createBranch (text "dev") none 2,
    .createCommit ⟨3, []⟩ [] main 1 none none none, .switchBranch (text "dev"),
    .createCommit ⟨4, []⟩ [] dev 1 none none none]

def refOf (s : CasStore) (name : String) : BranchRef :=
  (s.branches.get? (text name)).getD ⟨[], 0, 0⟩

/-- The commits of `dev` that a rebase onto `main` replays. -/
def devCommits (s : CasStore) : List Text :=
  s.commitsAbove (s.refOf "dev").commitId
    ((s.findLowestCommonAncestor (s.refOf "dev").commitId (s.refOf "main").commitId).getD none)

/-- Both branches have changed one file, and `dev` is rebased onto `main`. -/
theorem rebase_of_one_file :
    let s := Run.run CasStore.step CasStore.new (twoBranches [oneByte "a" 1, oneByte "b" 1]
      [oneByte "a" 2, oneByte "b" 1] [oneByte "a" 3, oneByte "b" 1])
    s.RebasesAsPicked (fun _ => ⟨5, []⟩) (fun _ => ⟨6, []⟩) (text "dev") (text "main")
      s.devCommits := by
  intro s
  have hcalls : ∀ call ∈ twoBranches [oneByte "a" 1, oneByte "b" 1]
      [oneByte "a" 2, oneByte "b" 1] [oneByte "a" 3, oneByte "b" 1], call.Distinct := by
    simp only [twoBranches, forall_mem_cons]
    exact ⟨(by decide : List.Nodup _), trivial, (by decide : List.Nodup _), trivial,
      (by decide : List.Nodup _), nofun⟩
  have hdev : s.branches.get? (text "dev") = some (s.refOf "dev") := by decide +kernel
  have hmain : s.branches.get? (text "main") = some (s.refOf "main") := by decide +kernel
  have hreplays : ∀ commits ∈ (s.devCommits.filterMap s.getCommit).inits,
      s.Keeps (replay (text "dev") (fun _ => ⟨5, []⟩) 0 (s.refOf "main").commitId s commits).2 := by
    decide +kernel
  have hpicks : ∀ ids ∈ s.devCommits.inits,
      s.Keeps (s.cherryPickAll (fun _ => ⟨6, []⟩) (text "main") ids) := by
    decide +kernel
  exact (rebase_eq_picks_iff (tidy_run hcalls).kept (by decide +kernel) hdev hmain
    (by decide +kernel) (fun commits h => hreplays commits ((mem_inits _ _).mpr h))
    fun ids h => hpicks ids ((mem_inits _ _).mpr h)).mpr (.inr (by decide +kernel))

/-- What `main` has changed is lost when `dev`, which has changed another file, is rebased. -/
theorem rebase_loses_main :
    let s := Run.run CasStore.step CasStore.new (twoBranches [oneByte "a" 1, oneByte "b" 1]
      [oneByte "a" 1, oneByte "b" 2] [oneByte "a" 2, oneByte "b" 1])
    ¬ s.RebasesAsPicked (fun _ => ⟨5, []⟩) (fun _ => ⟨6, []⟩) (text "dev") (text "main")
      s.devCommits := by
  intro s hsame
  have hb := hsame.rebase_eq (text "b")
  revert hb
  decide +kernel

/-- Three commits, one after the other, on one branch. -/
def threeCommits : List CasCall :=
  [.createCommit ⟨1, []⟩ [] [oneByte "a" 1] 1 none none none,
    .createCommit ⟨2, []⟩ [] [oneByte "a" 2] 1 none none none,
    .createCommit ⟨3, []⟩ [] [oneByte "a" 2, oneByte "b" 1] 1 none none none]

/-- The commit at HEAD is reverted. -/
theorem revert_of_head :
    let s := Run.run CasStore.step CasStore.new threeCommits
    s.RevertsOnly ⟨4, []⟩ (s.headId.getD []) := by
  intro s
  have hcalls : ∀ call ∈ threeCommits, call.Distinct := by
    simp only [threeCommits, forall_mem_cons]
    exact ⟨(by decide : List.Nodup _), (by decide : List.Nodup _), (by decide : List.Nodup _),
      nofun⟩
  have hhead : s.headTree = s.commitTree (s.headId.getD []) := by decide +kernel
  refine (reverts_only_iff (tidy_run hcalls).kept ⟨4, []⟩ (by decide +kernel)).mpr ?_
  intro path hsame
  rw [hhead, hsame]

/-- What was committed since is lost when an earlier commit is reverted. -/
theorem revert_loses_later :
    let s := Run.run CasStore.step CasStore.new threeCommits
    ∃ commitId, s.parentOf (s.headId.getD []) = some commitId ∧ ¬ s.RevertsOnly ⟨4, []⟩ commitId := by
  intro s
  refine ⟨(s.parentOf (s.headId.getD [])).getD [], by decide +kernel, ?_⟩
  rintro ⟨revertId, s', hrevert, honly⟩
  have hb := (honly (text "b")).1 (by decide +kernel)
  have hlost : stateIn ((s.revert ⟨4, []⟩ ((s.parentOf (s.headId.getD [])).getD [])).2.commitTree
      ((s.revert ⟨4, []⟩ ((s.parentOf (s.headId.getD [])).getD [])).1.getD [])) (text "b")
      ≠ stateIn s.headTree (text "b") := by decide +kernel
  rw [hrevert, getD_some] at hlost
  exact hlost hb

end CasStore

end

end Lumi.Cas
