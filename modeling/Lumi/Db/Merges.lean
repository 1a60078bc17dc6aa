import Lumi.Db.Coherence

/-!
# What a merge does to the target

A merge goes through the records of the source branch.  A record that the target lacks is taken, a
record whose JSON text differs is a conflict, and no record of the target is ever dropped.  So a
merge that fails on its conflicts has still taken the new records, and a branch whose records were
deleted does not delete them in the branch that it was forked from.
-/

namespace Lumi.Db

open Js InsertionMap Option

variable {ρ : Type*} [Record ρ]

/-! ## Merges that fail -/

section

variable [Host] (t : DbTable ρ) (branchName : Text)

/-- The records of every branch, and of the table, are the same. -/
def SameRecords (t t' : DbTable ρ) : Prop :=
  t'.records = t.records ∧
    ∀ name, (t'.branching.branches.get? name).map (·.records) =
      (t.branching.branches.get? name).map (·.records)

omit [Record ρ] [Host] in
/-- Writing the records of the active branch changes some branch if it changes these. -/
theorem get?_setActiveRecords_records (e : BranchingEngine ρ) (records : InsertionMap Text ρ) :
    (∀ name, ((e.setActiveRecords records).branches.get? name).map (·.records) =
      (e.branches.get? name).map (·.records)) ↔ records = e.getActiveRecords := by
  have hhead : e.branches.get? e.currentBranchName = some e.head := (some_get _).symm
  constructor
  · intro h
    have hactive := h e.currentBranchName
    rw [hhead] at hactive
    simp only [BranchingEngine.setActiveRecords, get?_set_self, map_some,
      Option.some.injEq] at hactive
    exact hactive
  · rintro rfl name
    by_cases hname : name = e.currentBranchName
    · subst hname
      simp only [BranchingEngine.setActiveRecords, get?_set_self, hhead, map_some]
      rfl
    · simp only [BranchingEngine.setActiveRecords, get?_set_of_ne _ _ hname]

/-- **A merge that fails changes nothing if and only if it fails for want of the branch, or the
source has no record that the target lacks.** -/
theorem failed_merge_untouched_iff :
    ((t.mergeBranch branchName .failOnConflict).1.success = false →
        SameRecords t (t.mergeBranch branchName .failOnConflict).2) ↔
      ∀ source ∈ t.branching.branches.get? (BranchingEngine.cleanName branchName),
        Conflicting source.records t.branching.getActiveRecords →
          ∀ id ∈ source.records.keys, id ∈ t.branching.getActiveRecords.keys := by
  cases hsource : t.branching.branches.get? (BranchingEngine.cleanName branchName) with
  | none =>
    refine iff_of_true (fun _ => ?_) (by simp)
    have hmerge : (t.branching.mergeBranch branchName .failOnConflict).2 = t.branching := by
      simp only [BranchingEngine.mergeBranch, hsource]
    have hfail : (t.branching.mergeBranch branchName .failOnConflict).1.success = false := by
      simp only [BranchingEngine.mergeBranch, hsource]
    rw [DbTable.mergeBranch_snd, hfail, hmerge]
    exact ⟨rfl, fun _ => rfl⟩
  | some source =>
    obtain ⟨hsuccess, -⟩ := DbTable.mergeBranch_of_source hsource .failOnConflict
    have hresult : (t.mergeBranch branchName .failOnConflict).1 =
        (t.branching.mergeBranch branchName .failOnConflict).1 := rfl
    simp only [mem_def, Option.some.injEq, forall_eq']
    by_cases hconflict : Conflicting source.records t.branching.getActiveRecords
    · have hfail : (t.branching.mergeBranch branchName .failOnConflict).1.success = false := by
        rw [Bool.eq_false_iff, Ne, hsuccess]
        exact fun hno => hno ⟨rfl, hconflict⟩
      have hbranching : (t.branching.mergeBranch branchName .failOnConflict).2 =
          t.branching.setActiveRecords (source.records.entries.foldl
            (mergeRecord .failOnConflict) ⟨t.branching.getActiveRecords, [], 0⟩).records := by
        simp only [BranchingEngine.mergeBranch, hsource]
        split_ifs <;> rfl
      have hsame : SameRecords t (t.mergeBranch branchName .failOnConflict).2 ↔
          ∀ e ∈ source.records.entries, e.1 ∈ t.branching.getActiveRecords.keys := by
        rw [← @records_merge_failOnConflict_eq_iff ρ _ source.records.entries
          ⟨t.branching.getActiveRecords, [], 0⟩, ← get?_setActiveRecords_records, SameRecords,
          DbTable.mergeBranch_snd, hfail, hbranching]
        exact ⟨fun h => h.2, fun h => ⟨rfl, h⟩⟩
      rw [hresult, hfail, hsame]
      simp only [hconflict, keys, List.forall_mem_map, forall_const]
    · refine iff_of_true (fun hfail => ?_) fun h => absurd h hconflict
      rw [hresult, Bool.eq_false_iff, Ne, hsuccess] at hfail
      exact absurd (fun h => hconflict h.2) hfail

end

/-! ## Merges that take the branch -/

/-- The record of an id after a merge that settles conflicts for the source: that of the source,
unless the target has one of the same text. -/
def takenRecord : Option ρ → Option ρ → Option ρ
  | some theirs, some mine =>
    if Record.stringify theirs = Record.stringify mine then some mine else some theirs
  | some theirs, none => some theirs
  | none, mine => mine

def MergeResolutionStrategy.TakesBranch (strategy : MergeResolutionStrategy) : Prop :=
  strategy = .takeBranch ∨ strategy = .lastWriteWins

section

variable {strategy : MergeResolutionStrategy} (hstrategy : strategy.TakesBranch)
include hstrategy

/-- **Step lemma.**  One record of the source is merged. -/
theorem records_mergeRecord_taking (m : MergeState ρ) (id : Text) (theirs : ρ) :
    (mergeRecord strategy m (id, theirs)).records = m.records ∧
        (∃ mine, m.records.get? id = some mine ∧
          Record.stringify theirs = Record.stringify mine) ∨
      (mergeRecord strategy m (id, theirs)).records = m.records.set id theirs ∧
        ∀ mine, m.records.get? id = some mine →
          Record.stringify theirs ≠ Record.stringify mine := by
  simp only [mergeRecord]
  cases hget : m.records.get? id with
  | none => exact .inr ⟨rfl, fun _ hno => by cases hno⟩
  | some mine =>
    by_cases heq : Record.stringify theirs = Record.stringify mine
    · refine .inl ⟨?_, mine, rfl, heq⟩
      simp only [heq, ne_eq, not_true_eq_false, if_false]
    · refine .inr ⟨?_, fun mine' hmine' => by rwa [← Option.some.inj hmine']⟩
      rcases hstrategy with rfl | rfl <;> simp only [ne_eq, heq, not_false_eq_true, if_true]

/-- **Run lemma.** -/
theorem get?_merge_taking {l : List (Text × ρ)} (hnodup : (l.map Prod.fst).Nodup)
    (m : MergeState ρ) (id : Text) :
    (l.foldl (mergeRecord strategy) m).records.get? id =
      takenRecord ((⟨l, hnodup⟩ : InsertionMap Text ρ).get? id) (m.records.get? id) := by
  induction l generalizing m with
  | nil => rfl
  | cons e rest ih =>
    obtain ⟨first, theirs⟩ := e
    obtain ⟨hfirst, hrest⟩ := List.nodup_cons.mp hnodup
    rw [List.foldl_cons, ih hrest, get?_cons hnodup]
    by_cases hid : id = first
    · subst hid
      have hnone : (⟨rest, hrest⟩ : InsertionMap Text ρ).get? id = none :=
        get?_eq_none_iff.mpr hfirst
      rw [hnone, if_pos rfl]
      rcases records_mergeRecord_taking hstrategy m id theirs with ⟨hsame, mine, hmine, heq⟩ |
        ⟨hset, hdiffer⟩
      · rw [hsame, hmine]
        exact (if_pos heq).symm
      · rw [hset, get?_set_self]
        cases hmine : m.records.get? id with
        | none => rfl
        | some mine => exact (if_neg (hdiffer mine hmine)).symm
    · have hother : (mergeRecord strategy m (first, theirs)).records.get? id =
          m.records.get? id := by
        rcases records_mergeRecord_taking hstrategy m first theirs with ⟨hsame, -⟩ | ⟨hset, -⟩
        · rw [hsame]
        · rw [hset, get?_set_of_ne _ _ hid]
      rw [hother, if_neg hid]

theorem get?_merged [Host] {e : BranchingEngine ρ} {branchName : Text} {source : BranchDescriptor ρ}
    (hsource : e.branches.get? (BranchingEngine.cleanName branchName) = some source) (id : Text) :
    (e.mergeBranch branchName strategy).1.success = true ∧
      (e.mergeBranch branchName strategy).2.getActiveRecords.get? id =
        takenRecord (source.records.get? id) (e.getActiveRecords.get? id) := by
  obtain ⟨hsuccess, hactive⟩ := DbTable.mergeBranch_of_source hsource strategy
  refine ⟨hsuccess.mpr ?_, ?_⟩
  · rintro ⟨rfl, -⟩
    rcases hstrategy with hno | hno <;> cases hno
  · rw [hactive, get?_merge_taking hstrategy source.records.nodup]

end

/-- The merge gives the records of the source exactly if the target has no others, and no two of
one id that differ have the same text. -/
theorem takenRecord_eq_source_iff {source target : InsertionMap Text ρ} :
    (∀ id, takenRecord (source.get? id) (target.get? id) = source.get? id) ↔
      (∀ id ∈ target.keys, id ∈ source.keys) ∧
        ∀ id mine theirs, target.get? id = some mine → source.get? id = some theirs →
          Record.stringify theirs = Record.stringify mine → mine = theirs := by
  constructor
  · intro h
    refine ⟨fun id hid => ?_, fun id mine theirs hmine htheirs heq => ?_⟩
    · obtain ⟨mine, hmine⟩ := mem_keys_iff.mp hid
      by_contra hno
      have htaken := h id
      rw [get?_eq_none_iff.mpr hno, hmine] at htaken
      cases htaken
    · have htaken := h id
      rw [htheirs, hmine] at htaken
      exact Option.some.inj ((if_pos heq).symm.trans htaken)
  · rintro ⟨hkeys, htexts⟩ id
    cases htheirs : source.get? id with
    | none =>
      have hnone : target.get? id = none :=
        get?_eq_none_iff.mpr fun hid => get?_eq_none_iff.mp htheirs (hkeys id hid)
      rw [hnone]
      rfl
    | some theirs =>
      cases hmine : target.get? id with
      | none => rfl
      | some mine =>
        by_cases heq : Record.stringify theirs = Record.stringify mine
        · exact (if_pos heq).trans
            (congrArg some (htexts id mine theirs hmine htheirs heq))
        · exact if_neg heq

/-! ## Fast-forward -/

/-- A change that is made on a branch. -/
inductive BranchEdit (ρ : Type*)
  | put (id : Text) (record : ρ) (ttlMs : Option Number)
  | delete (id : Text)

section

variable [Host]

def BranchEdit.apply (t : DbTable ρ) : BranchEdit ρ → DbTable ρ
  | put id record ttlMs => (t.put id record ttlMs).2
  | delete id => (t.delete id).2

/-- The records after a change. -/
def BranchEdit.records (records : InsertionMap Text ρ) : BranchEdit ρ → InsertionMap Text ρ
  | put id record _ => records.set id record
  | delete id => records.delete id

/-- Nothing but the records of the active branch is changed. -/
structure Edited (t t' : DbTable ρ) : Prop where
  coherent : t'.Coherent
  currentBranchName : t'.branching.currentBranchName = t.branching.currentBranchName
  branches : ∀ name, name ≠ t.branching.currentBranchName →
    t'.branching.branches.get? name = t.branching.branches.get? name

omit [Record ρ] [Host] in
theorem edited_of_setActiveRecords {t t' : DbTable ρ} {records : InsertionMap Text ρ}
    (hcoherent : t'.Coherent)
    (hname : t'.branching.currentBranchName = t.branching.currentBranchName)
    (hbranches : t'.branching.branches = (t.branching.setActiveRecords records).branches) :
    Edited t t' := by
  refine ⟨hcoherent, hname, fun name hne => ?_⟩
  rw [hbranches]
  exact get?_set_of_ne _ _ hne

variable {t : DbTable ρ}

/-- **Step lemma.**  A change on a branch changes its records, and those of the table alike. -/
theorem BranchEdit.edited_apply (ht : t.Coherent) (edit : BranchEdit ρ) :
    Edited t (edit.apply t) ∧
      (edit.apply t).branching.getActiveRecords = edit.records t.branching.getActiveRecords := by
  cases edit with
  | put id record ttlMs =>
    refine ⟨edited_of_setActiveRecords (ht.put id record ttlMs) rfl rfl, ?_⟩
    have hrecords : (t.put id record ttlMs).2.records = t.records.set id record := rfl
    exact (ht.put id record ttlMs).symm.trans (hrecords.trans (congrArg (·.set id record) ht))
  | delete id =>
    have hcoherent := ht.delete id
    have hrecords : (t.delete id).2.records = t.records.delete id := by
      unfold DbTable.delete
      cases hget : t.records.get? id with
      | none => exact (delete_eq_self_of_get?_eq_none hget).symm
      | some existing => exact DbTable.records_deleteInternal t id
    refine ⟨?_, hcoherent.symm.trans (hrecords.trans (congrArg (·.delete id) ht))⟩
    cases hget : t.records.get? id with
    | none =>
      have hsame : (t.delete id).2 = t := by simp only [DbTable.delete, hget]
      refine ⟨hcoherent, ?_, fun name _ => ?_⟩
      · show (t.delete id).2.branching.currentBranchName = _
        rw [hsame]
      · show (t.delete id).2.branching.branches.get? name = _
        rw [hsame]
    | some existing =>
      have hbranching : (t.delete id).2.branching =
          (t.branching.setActiveRecords (t.branching.getActiveRecords.delete id)).recordAction
            .delete id (some existing) none := by
        simp only [DbTable.delete, hget, DbTable.callWalHook, DbTable.emitChangeEvent,
          DbTable.branching_deleteInternal]
      refine edited_of_setActiveRecords hcoherent ?_ (congrArg (·.branches) hbranching)
      show (t.delete id).2.branching.currentBranchName = _
      rw [hbranching]
      rfl

/-- **Run lemma.** -/
theorem BranchEdit.edited_foldl (ht : t.Coherent) (edits : List (BranchEdit ρ)) :
    Edited t (edits.foldl BranchEdit.apply t) ∧
      (edits.foldl BranchEdit.apply t).branching.getActiveRecords =
        edits.foldl BranchEdit.records t.branching.getActiveRecords := by
  induction edits generalizing t with
  | nil => exact ⟨⟨ht, rfl, fun _ _ => rfl⟩, rfl⟩
  | cons edit rest ih =>
    obtain ⟨hfirst, hrecords⟩ := edit.edited_apply ht
    obtain ⟨hrest, hactive⟩ := ih hfirst.coherent
    refine ⟨⟨hrest.coherent, hrest.currentBranchName.trans hfirst.currentBranchName,
      fun name hne => ?_⟩, ?_⟩
    · exact (hrest.branches name (hfirst.currentBranchName ▸ hne)).trans (hfirst.branches name hne)
    · rw [List.foldl_cons, hactive, hrecords]
      rfl

/-- The table while the new branch is edited. -/
def DbTable.onBranch (t : DbTable ρ) (branchName : Text) (edits : List (BranchEdit ρ)) :
    DbTable ρ :=
  edits.foldl BranchEdit.apply ((t.forkBranch branchName).2.checkoutBranch branchName).2

/-- The edited branch is merged back. -/
def DbTable.mergedBack (t : DbTable ρ) (mainName branchName : Text)
    (strategy : MergeResolutionStrategy) : DbTable ρ :=
  ((t.checkoutBranch mainName).2.mergeBranch branchName strategy).2

omit [Record ρ] [Host] in
theorem getActiveRecords_eq {e : BranchingEngine ρ} {branch : BranchDescriptor ρ}
    (h : e.branches.get? e.currentBranchName = some branch) :
    e.getActiveRecords = branch.records := by
  have hhead : e.branches.get? e.currentBranchName = some e.head := (some_get _).symm
  exact congrArg (·.records) (Option.some.inj (hhead.symm.trans h))

/-- A branch that exists is checked out, and no branch changes. -/
theorem checkoutBranch_of_exists {branchName : Text} {branch : BranchDescriptor ρ}
    (h : t.branching.branches.get? (BranchingEngine.cleanName branchName) = some branch) :
    (t.checkoutBranch branchName).2.Coherent ∧
      (t.checkoutBranch branchName).2.branching.currentBranchName =
        BranchingEngine.cleanName branchName ∧
      (t.checkoutBranch branchName).2.branching.branches = t.branching.branches ∧
      (t.checkoutBranch branchName).2.branching.getActiveRecords = branch.records := by
  have hexists : (t.branching.branches.get? (BranchingEngine.cleanName branchName)).isSome := by
    rw [h]
    rfl
  have hengine : t.branching.checkoutBranch branchName = (true,
      { t.branching with
        currentBranchName := BranchingEngine.cleanName branchName
        undoStack := []
        redoStack := []
        headExists := hexists }) := dif_pos hexists
  have hbranching : (t.checkoutBranch branchName).2.branching =
      (t.branching.checkoutBranch branchName).2 := by
    rw [DbTable.checkoutBranch_snd, hengine]
    exact DbTable.branching_loadActiveRecords _
  refine ⟨?_, ?_, ?_, ?_⟩
  · rw [DbTable.checkoutBranch_snd, hengine]
    exact DbTable.coherent_loadActiveRecords _
  · rw [hbranching, hengine]
  · rw [hbranching, hengine]
  · rw [hbranching, hengine]
    exact getActiveRecords_eq h

variable {t : DbTable ρ} {mainName branchName : Text} {edits : List (BranchEdit ρ)}

/-- What the edited branch holds, and what the branch that it was forked from still holds. -/
theorem onBranch_spec (hfork : (t.forkBranch branchName).1 = true) :
    (t.onBranch branchName edits).Coherent ∧
      (t.onBranch branchName edits).branching.currentBranchName =
        BranchingEngine.cleanName branchName ∧
      (t.onBranch branchName edits).branching.getActiveRecords =
        edits.foldl BranchEdit.records t.branching.getActiveRecords ∧
      BranchingEngine.cleanName branchName ≠ t.branching.currentBranchName ∧
      (t.onBranch branchName edits).branching.branches.get? t.branching.currentBranchName =
        some t.branching.head := by
  have hhead : t.branching.branches.get? t.branching.currentBranchName = some t.branching.head :=
    (some_get _).symm
  have hfresh : t.branching.branches.get? (BranchingEngine.cleanName branchName) = none := by
    simp only [DbTable.forkBranch, BranchingEngine.forkBranch] at hfork
    split at hfork
    · cases hfork
    · next hnone => exact hnone
  have hne : BranchingEngine.cleanName branchName ≠ t.branching.currentBranchName := by
    intro heq
    rw [heq, hhead] at hfresh
    cases hfresh
  have hbranches : (t.forkBranch branchName).2.branching.branches =
      t.branching.branches.set (BranchingEngine.cleanName branchName)
        ⟨BranchingEngine.cleanName branchName,
          InsertionMap.ofList t.branching.getActiveRecords.entries⟩ := by
    simp only [DbTable.forkBranch, BranchingEngine.forkBranch]
    split
    · next hsome => exact absurd (hsome.symm.trans hfresh) (by simp)
    · rfl
  obtain ⟨hcoherent, hname, hsame, hactive⟩ :=
    checkoutBranch_of_exists (by rw [hbranches]; exact get?_set_self _ _ _)
  obtain ⟨hedited, hrecords⟩ := BranchEdit.edited_foldl hcoherent edits
  refine ⟨hedited.coherent, hedited.currentBranchName.trans hname, ?_, hne, ?_⟩
  · rw [DbTable.onBranch, hrecords, hactive]
    exact congrArg (edits.foldl BranchEdit.records ·) t.branching.getActiveRecords.ofList_entries
  · refine (hedited.branches _ (hname ▸ hne.symm)).trans ?_
    rw [hsame, hbranches, get?_set_of_ne _ _ hne.symm, hhead]

/-- **Merging a branch back gives its records exactly if none of the records that it was forked from
is gone from it, and none was replaced by another one of the same text.** -/
theorem fastForward_iff (hmain : BranchingEngine.cleanName mainName = t.branching.currentBranchName)
    (hfork : (t.forkBranch branchName).1 = true) {strategy : MergeResolutionStrategy}
    (hstrategy : strategy.TakesBranch) :
    let base := t.branching.getActiveRecords
    let edited := edits.foldl BranchEdit.records base
    let branch := t.onBranch branchName edits
    let merged := branch.mergedBack mainName branchName strategy
    (∀ id, merged.records.get? id = branch.records.get? id ∧
        merged.branching.getActiveRecords.get? id = branch.branching.getActiveRecords.get? id) ↔
      (∀ id ∈ base.keys, id ∈ edited.keys) ∧
        ∀ id mine theirs, base.get? id = some mine → edited.get? id = some theirs →
          Record.stringify theirs = Record.stringify mine → mine = theirs := by
  intro base edited branch merged
  obtain ⟨hcoherent, hname, hedited, hne, hhead⟩ := onBranch_spec hfork
  obtain ⟨-, -, hsame, hactive⟩ := checkoutBranch_of_exists (hmain ▸ hhead)
  have hsource : (branch.checkoutBranch mainName).2.branching.branches.get?
      (BranchingEngine.cleanName branchName) = some branch.branching.head := by
    rw [hsame, ← hname]
    exact (some_get _).symm
  have hmerged := get?_merged hstrategy hsource
  have hload : merged.records = merged.branching.getActiveRecords ∧
      merged.branching.getActiveRecords =
        ((branch.checkoutBranch mainName).2.branching.mergeBranch branchName
          strategy).2.getActiveRecords := by
    show ((branch.checkoutBranch mainName).2.mergeBranch branchName strategy).2.records = _ ∧ _
    have hsnd : merged = _ := DbTable.mergeBranch_snd _ branchName strategy
    rw [if_pos (hmerged []).1] at hsnd
    constructor
    · show merged.records = _
      rw [hsnd]
      exact DbTable.coherent_loadActiveRecords _
    · rw [hsnd]
      exact congrArg _ (DbTable.branching_loadActiveRecords _)
  have htarget : (branch.checkoutBranch mainName).2.branching.getActiveRecords = base := hactive
  have hbranch : branch.branching.head.records = edited := hedited
  have hget : ∀ id, merged.branching.getActiveRecords.get? id =
      takenRecord (edited.get? id) (base.get? id) := fun id => by
    rw [hload.2, (hmerged id).2, htarget, hbranch]
  rw [← takenRecord_eq_source_iff]
  refine forall_congr' fun id => ?_
  have hrecords : branch.records = edited := hcoherent.trans hedited
  have hbranching : branch.branching.getActiveRecords = edited := hedited
  rw [hload.1, hrecords, hbranching, hget, and_self]

end

section

open scoped Js.Ascii

/-- A task with one field. -/
def task (title : String) : PlainRecord := InsertionMap.empty.set (text "title") (.string (text title))

/-- A conflict on `a`, and a new record `b`: the merge fails, and `main` has `b` from then on. -/
theorem failed_merge_takes_new_record :
    let t : DbTable PlainRecord := [
      TableCall.put (text "a") (task "draft") none, .forkBranch (text "dev"),
      .checkoutBranch (text "dev"), .put (text "a") (task "done") none,
      .put (text "b") (task "new") none, .checkoutBranch (text "main")].foldl DbTable.call
        (DbTable.init (text "tasks") false)
    let merge := t.mergeBranch (text "dev") .failOnConflict
    merge.1.success = false ∧ t.branching.getActiveRecords.get? (text "b") = none ∧
      merge.2.branching.getActiveRecords.get? (text "b") = some (task "new") ∧
      ¬SameRecords t merge.2 := by
  intro t merge
  have hbefore : (t.branching.branches.get? (text "main")).map
      (fun branch => branch.records.get? (text "b")) = some none := by decide +kernel
  have hafter : (merge.2.branching.branches.get? (text "main")).map
      (fun branch => branch.records.get? (text "b")) = some (some (task "new")) := by
    decide +kernel
  refine ⟨by decide +kernel, by decide +kernel, by decide +kernel, fun hsame => ?_⟩
  have hmain := congrArg (Option.map fun records => records.get? (text "b")) (hsame.2 (text "main"))
  rw [map_map, map_map] at hmain
  exact absurd (hafter.symm.trans (hmain.trans hbefore)) (by simp)

/-- The table with record `a`. -/
def oneTask : DbTable PlainRecord :=
  ((DbTable.init (text "tasks") false).put (text "a") (task "draft") none).2

/-- Records that stay and new ones are merged back. -/
theorem edited_task_fastForwards :
    let branch := oneTask.onBranch (text "dev")
      [.put (text "a") (task "done") none, .put (text "b") (task "new") none]
    ∀ id, (branch.mergedBack (text "main") (text "dev") .takeBranch).records.get? id =
      branch.records.get? id := by
  intro branch id
  refine ((fastForward_iff (by decide +kernel) (by decide +kernel) (Or.inl rfl)).mpr
    ⟨by decide +kernel, fun id mine theirs hmine htheirs htexts => ?_⟩ id).1
  have hbase : oneTask.branching.getActiveRecords =
      InsertionMap.empty.set (text "a") (task "draft") := by decide +kernel
  rw [hbase, get?_set, get?_empty] at hmine
  split_ifs at hmine with hid
  subst hid
  have hdone : some theirs = some (task "done") := htheirs.symm.trans (by decide +kernel)
  rw [← Option.some.inj hmine, Option.some.inj hdone] at htexts
  exact absurd htexts (by decide +kernel)

/-- A record that is deleted on the branch comes back with the merge. -/
theorem deleted_task_stays :
    let branch := oneTask.onBranch (text "dev") [.delete (text "a")]
    (oneTask.forkBranch (text "dev")).1 = true ∧ branch.records.get? (text "a") = none ∧
      (branch.mergedBack (text "main") (text "dev") .takeBranch).records.get? (text "a") =
        some (task "draft") := by
  decide +kernel

end

end Lumi.Db
