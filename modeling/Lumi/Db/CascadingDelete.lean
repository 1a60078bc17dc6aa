import Lumi.Db.Relations

/-!
# Deletions that cascade

The record is still there while its dependents are deleted, so that a dependent which leads back to
it leads to its deletion once more.  The deletion comes to an end if no chain of references does,
and then nothing that can be reached through `CASCADE` is left, but for records without a name: the
empty id is taken for none.

Conversely, in every state between the steps of a deletion that comes to an end, what is gone has
nothing below it that is still there, and no chain of references leads from it around: `Settled`.
-/

namespace Lumi.Db

open Js ForEach Relation InsertionMap Option

/-- Where a record is found. -/
structure RecordRef where
  table : Text
  id : Text
  deriving DecidableEq

namespace Tables

section

variable [Host]

section

variable (tables : Tables)

def Lacks (ref : RecordRef) : Prop := tables.record? ref.table ref.id = none

/-- The relation finds the child among the dependents of the parent. -/
def LinkedBy (relation : DbRelationDefinition) (parentId : Text) (child : RecordRef) : Prop :=
  ∃ target record, relation.targetTable = child.table ∧ tables.get? child.table = some target ∧
    target.table.records.get? child.id = some record ∧
    target.table.resolve record relation.targetKey = .string parentId

/-- A relation of the parent's table with that action finds the child. -/
def Linked (action : ReferentialAction) (parent child : RecordRef) : Prop :=
  ∃ t relation, tables.get? parent.table = some t ∧ ¬tables.Lacks parent ∧
    relation ∈ t.policies ∧ relation.action = action ∧ tables.LinkedBy relation parent.id child

/-- What can be reached through `CASCADE`. -/
def Reachable : RecordRef → RecordRef → Prop :=
  ReflTransGen (tables.Linked .cascade)

/-- The deletion of the parent deletes the child. -/
def Deletes (child parent : RecordRef) : Prop :=
  tables.Linked .cascade parent child ∧ child.id ≠ []

/-- The records carry their keys. -/
def Keyed : Prop :=
  ∀ name t, tables.get? name = some t → ∀ id record, t.table.records.get? id = some record →
    fieldOf (cloneRecordWithComputed t.table.computedColumns record) (text "id") = .string id

end

/-- No chain of deletions goes on for ever, and only the record itself may have the empty id. -/
structure Unfolds (tables : Tables) (root : RecordRef) : Prop where
  finite : Acc tables.Deletes root
  named : ∀ ref, tables.Reachable root ref → ref.id = [] → ref = root

/-- No relation with that action finds a dependent of what can be reached. -/
def Unlinked (tables : Tables) (action : ReferentialAction) (root : RecordRef) : Prop :=
  ∀ parent child, tables.Reachable root parent → ¬tables.Linked action parent child

/-! ## Some records gone -/

/-- The tables, with some of the records gone. -/
def Remains (start tables : Tables) : Prop :=
  ∀ name t, tables.get? name = some t → ∃ t₀, start.get? name = some t₀ ∧
    t.policies = t₀.policies ∧ t.table.computedColumns = t₀.table.computedColumns ∧
    ∀ id record, t.table.records.get? id = some record → t₀.table.records.get? id = some record

variable {start tables tables' : Tables} {name id : Text} {root ref : RecordRef}

theorem Remains.refl (tables : Tables) : Remains tables tables :=
  fun _ t ht => ⟨t, ht, rfl, rfl, fun _ _ hrecord => hrecord⟩

theorem Remains.record? (h : Remains start tables) {record : PlainRecord}
    (hlive : tables.record? name id = some record) : start.record? name id = some record := by
  obtain ⟨t, ht, hrecord⟩ := record?_eq_some_iff.mp hlive
  obtain ⟨t₀, ht₀, -, -, hsub⟩ := h name t ht
  exact record?_eq_some_iff.mpr ⟨t₀, ht₀, hsub id record hrecord⟩

theorem Remains.not_lacks (h : Remains start tables) (hlive : ¬tables.Lacks ref) :
    ¬start.Lacks ref := by
  obtain ⟨record, hrecord⟩ := ne_none_iff_exists'.mp hlive
  exact ne_none_iff_exists'.mpr ⟨record, h.record? hrecord⟩

theorem Remains.finishDelete (h : Remains start tables) (name id : Text) (existing : PlainRecord) :
    Remains start (tables.finishDelete name id existing) := by
  intro other t ht
  unfold Tables.finishDelete at ht
  split at ht
  · next t' ht' =>
    rw [get?_set] at ht
    split_ifs at ht with heq
    · subst heq
      obtain rfl := Option.some.inj ht
      obtain ⟨t₀, ht₀, hpolicies, hcolumns, hsub⟩ := h other t' ht'
      refine ⟨t₀, ht₀, hpolicies,
        (DbTable.computedColumns_finishDelete _ _ _).trans hcolumns, fun i record hrecord => ?_⟩
      have hrecords : (t'.finishDelete id existing).table.records = t'.table.records.delete id :=
        DbTable.records_finishDelete t'.table id existing
      rw [hrecords, get?_delete] at hrecord
      split_ifs at hrecord
      exact hsub i record hrecord
    · exact h other t ht
  · exact h other t ht

theorem lacks_finishDelete_self (tables : Tables) (ref : RecordRef) (existing : PlainRecord) :
    (tables.finishDelete ref.table ref.id existing).Lacks ref := by
  rw [Lacks, record?_finishDelete, if_pos ⟨rfl, rfl⟩]

theorem Lacks.finishDelete (h : tables.Lacks ref) (name id : Text) (existing : PlainRecord) :
    (tables.finishDelete name id existing).Lacks ref := by
  rw [Lacks, record?_finishDelete, show tables.record? ref.table ref.id = none from h, ite_self]

theorem eq_of_lacks_finishDelete {parent : RecordRef} {existing : PlainRecord}
    (h : (tables.finishDelete ref.table ref.id existing).Lacks parent)
    (hlive : ¬tables.Lacks parent) : parent = ref := by
  rw [Lacks, record?_finishDelete] at h
  split_ifs at h with heq
  · cases parent
    cases ref
    obtain ⟨rfl, rfl⟩ := heq
    rfl
  · exact absurd h hlive

/-- What is gone has nothing below it that is still there, and no endless chain. -/
def Settled (start : Tables) (root : RecordRef) (tables : Tables) : Prop :=
  ∀ parent, start.Reachable root parent → tables.Lacks parent →
    (∀ child, start.Deletes child parent → tables.Lacks child) ∧ Acc start.Deletes parent

/-- The state between two steps of a deletion: records are gone since the step before, and the
rest is settled. -/
structure Between (start : Tables) (root : RecordRef) (before tables : Tables) : Prop where
  remains : Remains start tables
  settled : Settled start root tables
  lacks : ∀ ref, before.Lacks ref → tables.Lacks ref

theorem settled_start (start : Tables) (root : RecordRef) : Settled start root start := by
  intro parent _ hlacks
  have hnone : ∀ child, ¬start.Deletes child parent := by
    rintro child ⟨⟨t, relation, ht, hlive, -⟩, -⟩
    exact hlive hlacks
  exact ⟨fun child hchild => absurd hchild (hnone child),
    Acc.intro parent fun child hchild => absurd hchild (hnone child)⟩

theorem Between.refl {before : Tables} (h : Between start root before tables) :
    Between start root tables tables :=
  ⟨h.remains, h.settled, fun _ hlacks => hlacks⟩

theorem Between.trans {before : Tables} (h : Between start root before tables)
    (h' : Between start root tables tables') : Between start root before tables' :=
  ⟨h'.remains, h'.settled, fun ref hlacks => h'.lacks ref (h.lacks ref hlacks)⟩

/-- A record may go once everything its deletion deletes is gone. -/
theorem Between.finishDelete (h : Between start root tables tables') (existing : PlainRecord)
    (hbelow : ∀ child, start.Deletes child ref → tables'.Lacks child)
    (hreach : start.Reachable root ref) :
    Between start root tables (tables'.finishDelete ref.table ref.id existing) where
  remains := h.remains.finishDelete ref.table ref.id existing
  lacks other hlacks := (h.lacks other hlacks).finishDelete ref.table ref.id existing
  settled := by
    intro parent hparent hlacks
    by_cases hgone : tables'.Lacks parent
    · obtain ⟨hchildren, hacc⟩ := h.settled parent hparent hgone
      exact ⟨fun child hchild => (hchildren child hchild).finishDelete _ _ _, hacc⟩
    · obtain rfl := eq_of_lacks_finishDelete hlacks hgone
      refine ⟨fun child hchild => (hbelow child hchild).finishDelete _ _ _,
        Acc.intro parent fun child hchild => ?_⟩
      exact (h.settled child (hparent.tail hchild.1) (hbelow child hchild)).2

/-! ## What a relation finds -/

variable [ObjectText] {relation : DbRelationDefinition} {target : RelatedTable} {dep : PlainRecord}
  {parentId : Text}

theorem dependentId_of_id (h : fieldOf dep (text "id") = .string id) : dependentId dep = id := by
  simp [dependentId, h, nullish, valueText]

/-- What a relation finds among the remaining records, it found at the start. -/
theorem Remains.linkedBy (h : Remains start tables) (hkeyed : Keyed start)
    (htarget : tables.get? relation.targetTable = some target)
    (hdep : dep ∈ target.dependentsOf relation.targetKey parentId) :
    start.LinkedBy relation parentId ⟨relation.targetTable, dependentId dep⟩ := by
  obtain ⟨id, record, hrecord, hrefers, rfl⟩ := RelatedTable.mem_dependentsOf_iff.mp hdep
  obtain ⟨t₀, ht₀, -, hcolumns, hsub⟩ := h _ target htarget
  rw [hcolumns, dependentId_of_id (hkeyed _ t₀ ht₀ id record (hsub id record hrecord))]
  refine ⟨t₀, record, rfl, ht₀, hsub id record hrecord, ?_⟩
  rw [← hrefers, DbTable.resolve, DbTable.resolve, hcolumns]

/-- What a relation found at the start, and still remains, it finds. -/
theorem Remains.exists_dependent (h : Remains start tables) (hkeyed : Keyed start)
    {child : RecordRef} (hlinked : start.LinkedBy relation parentId child)
    (hlive : ¬tables.Lacks child) (htarget : tables.get? relation.targetTable = some target) :
    ∃ dep ∈ target.dependentsOf relation.targetKey parentId, dependentId dep = child.id := by
  obtain ⟨t₀, record, hname, ht₀, hrecord, hrefers⟩ := hlinked
  obtain ⟨t₀', ht₀', -, hcolumns, hsub⟩ := h _ target htarget
  rw [hname, ht₀] at ht₀'
  obtain rfl := Option.some.inj ht₀'
  obtain ⟨record', hrecord'⟩ := ne_none_iff_exists'.mp hlive
  rw [← hname, record?_of_get? htarget] at hrecord'
  obtain rfl := Option.some.inj (hrecord.symm.trans (hsub _ _ hrecord'))
  refine ⟨cloneRecordWithComputed target.table.computedColumns record,
    RelatedTable.mem_dependentsOf_iff.mpr ⟨child.id, record, hrecord', ?_, rfl⟩, ?_⟩
  · rw [← hrefers, DbTable.resolve, DbTable.resolve, hcolumns]
  · rw [hcolumns]
    exact dependentId_of_id (hkeyed _ t₀ ht₀ child.id record hrecord)

/-! ## A deletion that comes to an end -/

section

variable {rounds : ℕ} (hkeyed : Keyed start) (hnulled : start.Unlinked .setNull root)
  (hreach : start.Reachable root ref)
  (hdelete : ∀ {ref : RecordRef} {deleted : Bool} {tables tables' : Tables},
    start.Reachable root ref → Between start root tables tables →
      delete rounds tables ref.table ref.id = some (.ok deleted, tables') →
        Between start root tables tables' ∧ tables'.Lacks ref)

include hdelete in
/-- After its round of the loop, a dependent with a name is gone. -/
theorem deleteDependent_ok {targetTable : Text}
    (hchild : dependentId dep ≠ [] → start.Reachable root ⟨targetTable, dependentId dep⟩)
    (h : Between start root tables tables)
    (hok : deleteDependent (delete rounds) targetTable dep tables = some (.ok (), tables')) :
    Between start root tables tables' ∧
      (dependentId dep ≠ [] → tables'.Lacks ⟨targetTable, dependentId dep⟩) := by
  unfold deleteDependent at hok
  split_ifs at hok with hnamed
  · obtain ⟨-, rfl⟩ := Prod.mk.inj (Option.some.inj hok)
    exact ⟨h, fun hne => absurd hnamed hne⟩
  · obtain ⟨⟨r, after⟩, hdeleted, hout⟩ := map_eq_some_iff.mp hok
    obtain ⟨hr, rfl⟩ := Prod.mk.inj hout
    cases r with
    | error err => cases hr
    | ok deleted =>
      obtain ⟨hbetween, hgone⟩ := hdelete (hchild hnamed) h hdeleted
      exact ⟨hbetween, fun _ => hgone⟩

include hkeyed hnulled hreach hdelete in
/-- After the round of a relation, what it finds to delete is gone. -/
theorem handleRelation_ok {t : RelatedTable} (ht : start.get? ref.table = some t)
    (hlive : ¬start.Lacks ref) (hrelation : relation ∈ t.policies)
    (h : Between start root tables tables)
    (hok : handleRelation (delete rounds) ref.id relation tables = some (.ok (), tables')) :
    Between start root tables tables' ∧
      (relation.action = .cascade → ∀ child, start.LinkedBy relation ref.id child →
        child.id ≠ [] → tables'.Lacks child) := by
  have hlinked : ∀ {child : RecordRef}, start.LinkedBy relation ref.id child →
      start.Linked relation.action ref child :=
    fun hchild => ⟨t, relation, ht, hlive, hrelation, rfl, hchild⟩
  unfold handleRelation at hok
  cases htarget : tables.get? relation.targetTable with
  | none =>
    simp only [htarget] at hok
    obtain ⟨-, rfl⟩ := Prod.mk.inj (Option.some.inj hok)
    refine ⟨h, fun _ child ⟨_, _, hname, _⟩ _ => ?_⟩
    rw [Lacks, Tables.record?, ← hname, htarget, bind_none]
  | some target =>
    simp only [htarget] at hok
    split_ifs at hok with hnone
    · obtain ⟨-, rfl⟩ := Prod.mk.inj (Option.some.inj hok)
      refine ⟨h, fun _ child hchild _ => by_contra fun hthere => ?_⟩
      obtain ⟨dep, hdep, -⟩ := h.remains.exists_dependent hkeyed hchild hthere htarget
      rw [hnone] at hdep
      exact absurd hdep List.not_mem_nil
    · cases haction : relation.action with
      | restrict =>
        simp only [haction] at hok
        cases (Prod.mk.inj (Option.some.inj hok)).1
      | setNull =>
        obtain ⟨dep, hdep⟩ := List.exists_mem_of_ne_nil _ hnone
        have hset := hlinked (h.remains.linkedBy hkeyed htarget hdep)
        rw [haction] at hset
        exact absurd hset (hnulled ref _ hreach)
      | cascade =>
        simp only [haction] at hok
        have hrounds : ∀ dep ∈ target.dependentsOf relation.targetKey ref.id, ∀ s s',
            Between start root tables s →
            deleteDependent (delete rounds) relation.targetTable dep s = some (.ok (), s') →
            Between start root s s' ∧ (dependentId dep ≠ [] →
              s'.Lacks ⟨relation.targetTable, dependentId dep⟩) := by
          intro dep hdep s s' hs hdeleted
          have hcascade := hlinked (h.remains.linkedBy hkeyed htarget hdep)
          rw [haction] at hcascade
          exact deleteDependent_ok hdelete (fun _ => hreach.tail hcascade) hs.refl hdeleted
        obtain ⟨hbetween, hgone, -⟩ := forEach_establishes
          (I := Between start root tables)
          (Q := fun dep s => dependentId dep ≠ [] →
            s.Lacks ⟨relation.targetTable, dependentId dep⟩)
          (fun dep hdep s s' hs hdeleted => by
            obtain ⟨hstep, hlacks⟩ := hrounds dep hdep s s' hs hdeleted
            exact ⟨hs.trans hstep, hlacks, fun y hy hne => hstep.lacks _ (hy hne)⟩)
          h hok
        refine ⟨hbetween, fun _ child hchild hnamed => by_contra fun hthere => hthere ?_⟩
        have hbefore : ¬tables.Lacks child := fun hlacks => hthere (hbetween.lacks _ hlacks)
        obtain ⟨dep, hdep, hid⟩ := h.remains.exists_dependent hkeyed hchild hbefore htarget
        obtain ⟨-, -, hname, -⟩ := hchild
        have hsame : (⟨relation.targetTable, dependentId dep⟩ : RecordRef) = child := by
          rw [hid, hname]
        exact hsame ▸ hgone dep hdep (hid ▸ hnamed)

end

/-- **A deletion that comes to an end** leaves the rest settled, and the record is gone. -/
theorem delete_ok (hkeyed : Keyed start) (hnulled : start.Unlinked .setNull root) {rounds : ℕ}
    {deleted : Bool} (hreach : start.Reachable root ref) (h : Between start root tables tables)
    (hok : delete rounds tables ref.table ref.id = some (.ok deleted, tables')) :
    Between start root tables tables' ∧ tables'.Lacks ref := by
  induction rounds generalizing ref deleted tables tables' with
  | zero => cases hok
  | succ rounds ih =>
    rcases delete_cases hok with ⟨hmissing, -, rfl⟩ | ⟨t, existing, ht, hrecord, hends⟩
    · exact ⟨h, hmissing⟩
    · rcases hends with ⟨handled, hhandled, -, rfl⟩ | ⟨err, -, herror⟩
      · obtain ⟨t₀, ht₀, hpolicies, -⟩ := h.remains _ t ht
        have hlive : ¬start.Lacks ref := h.remains.not_lacks fun hlacks => by
          rw [Lacks, record?_of_get? ht, hrecord] at hlacks
          cases hlacks
        obtain ⟨hbetween, hgone, -⟩ := forEach_establishes
          (I := Between start root tables)
          (Q := fun relation s => relation.action = .cascade →
            ∀ child, start.LinkedBy relation ref.id child → child.id ≠ [] → s.Lacks child)
          (fun relation hrelation s s' hs hround => by
            obtain ⟨hstep, hlacks⟩ := handleRelation_ok hkeyed hnulled hreach ih ht₀ hlive
              (hpolicies ▸ hrelation) hs.refl hround
            exact ⟨hs.trans hstep, hlacks, fun y hy haction child hchild hnamed =>
              hstep.lacks _ (hy haction child hchild hnamed)⟩)
          h hhandled
        refine ⟨hbetween.finishDelete existing (fun child hchild => ?_) hreach,
          lacks_finishDelete_self _ _ _⟩
        obtain ⟨⟨t₁, relation, ht₁, -, hrelation, haction, hlinked⟩, hnamed⟩ := hchild
        obtain rfl := Option.some.inj (ht₀.symm.trans ht₁)
        exact hgone relation (hpolicies ▸ hrelation) haction child hlinked hnamed
      · cases herror

/-! ## Records without a name -/

theorem record?_nil_clearDependents (t : RelatedTable) (targetKey : Text)
    (deps : List PlainRecord) (other : Text) :
    record? (tables.set name (t.clearDependents targetKey deps)) other [] =
      record? (tables.set name t) other [] := by
  induction deps generalizing t with
  | nil => rfl
  | cons dep rest ih =>
    rw [RelatedTable.clearDependents, List.foldl_cons]
    refine (ih _).trans ?_
    split_ifs with hnamed
    · rfl
    · rw [record?_set_put, if_neg fun heq => hnamed heq.2.symm]

section

variable {rounds : ℕ} (hdelete : ∀ {tables : Tables} {name id : Text} {out : Outcome Bool},
  id ≠ [] → delete rounds tables name id = some out →
    ∀ other, out.2.record? other [] = tables.record? other [])

include hdelete

theorem record?_nil_of_deleteDependent {targetTable : Text} {out : Outcome Unit}
    (h : deleteDependent (delete rounds) targetTable dep tables = some out) (other : Text) :
    out.2.record? other [] = tables.record? other [] := by
  unfold deleteDependent at h
  split_ifs at h with hnamed
  · obtain rfl := Option.some.inj h
    rfl
  · obtain ⟨deleted, hdeleted, rfl⟩ := map_eq_some_iff.mp h
    exact hdelete hnamed hdeleted other

theorem record?_nil_of_handleRelation {out : Outcome Unit}
    (h : handleRelation (delete rounds) parentId relation tables = some out) (other : Text) :
    out.2.record? other [] = tables.record? other [] := by
  unfold handleRelation at h
  cases htarget : tables.get? relation.targetTable with
  | none =>
    simp only [htarget] at h
    obtain rfl := Option.some.inj h
    rfl
  | some target =>
    simp only [htarget] at h
    split_ifs at h
    · obtain rfl := Option.some.inj h
      rfl
    · cases haction : relation.action with
      | restrict =>
        simp only [haction] at h
        obtain rfl := Option.some.inj h
        rfl
      | setNull =>
        simp only [haction] at h
        obtain rfl := Option.some.inj h
        refine (record?_nil_clearDependents target _ _ other).trans ?_
        rw [set_eq_self_of_get? htarget]
      | cascade =>
        simp only [haction] at h
        exact forEach_invariant
          (I := fun s => s.record? other [] = tables.record? other [])
          (fun dep _ s out hs hround =>
            (record?_nil_of_deleteDependent hdelete hround other).trans hs) rfl h

end

/-- Only a deletion by the empty id touches the record with the empty id, and only its own. -/
theorem record?_nil_of_delete {rounds : ℕ} {out : Outcome Bool}
    (h : delete rounds tables name id = some out) {other : Text}
    (hother : ¬(other = name ∧ id = [])) : out.2.record? other [] = tables.record? other [] := by
  induction rounds generalizing tables name id out other with
  | zero => cases h
  | succ rounds ih =>
    have hloop : ∀ {relations : List DbRelationDefinition} {out : Outcome Unit},
        forEach (handleRelation (delete rounds) id) relations tables = some out →
          out.2.record? other [] = tables.record? other [] := by
      intro relations out hout
      exact forEach_invariant (I := fun s => s.record? other [] = tables.record? other [])
        (fun relation _ s out hs hround => (record?_nil_of_handleRelation
          (fun hnamed hdelete other => ih hdelete fun heq => hnamed heq.2) hround other).trans hs)
        rfl hout
    obtain ⟨r, tables'⟩ := out
    rcases delete_cases h with ⟨-, -, rfl⟩ | ⟨t, existing, -, -, hends⟩
    · rfl
    · rcases hends with ⟨handled, hhandled, -, rfl⟩ | ⟨err, hhandled, -⟩
      · rw [record?_finishDelete, if_neg fun heq => hother ⟨heq.1, heq.2.symm⟩]
        exact hloop hhandled
      · exact hloop hhandled

/-! ## A deletion that unfolds -/

section

variable (hkeyed : Keyed start) (hnulled : start.Unlinked .setNull root)
  (hrestricted : start.Unlinked .restrict root) (hreach : start.Reachable root ref)
  (ih : ∀ child, start.Deletes child ref → ∀ {tables : Tables}, start.Reachable root child →
    Between start root tables tables → ∃ rounds deleted tables',
      delete rounds tables child.table child.id = some (.ok deleted, tables'))

include hkeyed hnulled hreach ih in
theorem exists_deleteDependent_ok {targetTable : Text}
    (hlinked : start.Linked .cascade ref ⟨targetTable, dependentId dep⟩)
    (h : Between start root tables tables) :
    ∃ n tables', deleteDependent (delete n) targetTable dep tables = some (.ok (), tables') ∧
      Between start root tables tables' := by
  by_cases hnamed : dependentId dep = []
  · exact ⟨0, tables, if_pos hnamed, h⟩
  · obtain ⟨n, deleted, tables', hok⟩ := ih _ ⟨hlinked, hnamed⟩ (hreach.tail hlinked) h
    refine ⟨n, tables', ?_, (delete_ok hkeyed hnulled (hreach.tail hlinked) h hok).1⟩
    rw [deleteDependent, if_neg hnamed, hok]
    rfl

include hkeyed hnulled hrestricted hreach ih in
/-- The round of a relation comes to an end if the deletions of its dependents do. -/
theorem exists_handleRelation_ok {t : RelatedTable} (ht : start.get? ref.table = some t)
    (hlive : ¬start.Lacks ref) (hrelation : relation ∈ t.policies)
    (h : Between start root tables tables) :
    ∃ n tables', handleRelation (delete n) ref.id relation tables = some (.ok (), tables') := by
  cases htarget : tables.get? relation.targetTable with
  | none => exact ⟨0, tables, by simp only [handleRelation, htarget]⟩
  | some target =>
    by_cases hnone : target.dependentsOf relation.targetKey ref.id = []
    · exact ⟨0, tables, by simp only [handleRelation, htarget, if_pos hnone]⟩
    · have hlinked : ∀ dep ∈ target.dependentsOf relation.targetKey ref.id,
          start.Linked relation.action ref ⟨relation.targetTable, dependentId dep⟩ :=
        fun dep hdep => ⟨t, relation, ht, hlive, hrelation, rfl,
          h.remains.linkedBy hkeyed htarget hdep⟩
      obtain ⟨first, hfirst⟩ := List.exists_mem_of_ne_nil _ hnone
      cases haction : relation.action with
      | restrict => exact absurd (haction ▸ hlinked first hfirst) (hrestricted ref _ hreach)
      | setNull => exact absurd (haction ▸ hlinked first hfirst) (hnulled ref _ hreach)
      | cascade =>
        rw [haction] at hlinked
        have hrounds : ∀ dep ∈ target.dependentsOf relation.targetKey ref.id, ∀ s,
            Between start root tables s → ∃ n s',
              deleteDependent (delete n) relation.targetTable dep s = some (.ok (), s') ∧
                Between start root tables s' := by
          intro dep hdep s hs
          obtain ⟨n, s', hok, hstep⟩ := exists_deleteDependent_ok hkeyed hnulled hreach ih
            (hlinked dep hdep) hs.refl
          exact ⟨n, s', hok, hs.trans hstep⟩
        obtain ⟨n, tables', hok⟩ := forEach_terminates hrounds h fun hle _ _ _ =>
          deleteDependent_mono fun _ _ _ _ => delete_mono hle
        exact ⟨n, tables', by simpa only [handleRelation, htarget, if_neg hnone, haction]⟩

end

/-- Where no chain of deletions goes on for ever and nothing refuses, the deletion comes to an
end. -/
theorem exists_delete_ok (hkeyed : Keyed start) (hnulled : start.Unlinked .setNull root)
    (hrestricted : start.Unlinked .restrict root) (hreach : start.Reachable root ref)
    (hacc : Acc start.Deletes ref) (h : Between start root tables tables) :
    ∃ rounds deleted tables',
      delete rounds tables ref.table ref.id = some (.ok deleted, tables') := by
  induction hacc generalizing tables with
  | intro ref _ ih =>
    cases hlive : tables.record? ref.table ref.id with
    | none => exact ⟨1, false, tables, delete_succ_of_missing hlive 0⟩
    | some existing =>
      obtain ⟨t, ht, hrecord⟩ := record?_eq_some_iff.mp hlive
      obtain ⟨t₀, ht₀, hpolicies, -⟩ := h.remains _ t ht
      have hlive₀ : ¬start.Lacks ref := h.remains.not_lacks fun hlacks => by
        rw [Lacks, hlive] at hlacks
        cases hlacks
      have hrounds : ∀ relation ∈ t.policies, ∀ s, Between start root tables s →
          ∃ n s', handleRelation (delete n) ref.id relation s = some (.ok (), s') ∧
            Between start root tables s' := by
        intro relation hrelation s hs
        rw [hpolicies] at hrelation
        obtain ⟨n, s', hok⟩ := exists_handleRelation_ok hkeyed hnulled hrestricted hreach
          (fun child hchild _ hreach h => ih child hchild hreach h) ht₀ hlive₀ hrelation hs.refl
        obtain ⟨hstep, -⟩ := handleRelation_ok hkeyed hnulled hreach
          (fun hreach h hok => delete_ok hkeyed hnulled hreach h hok) ht₀ hlive₀ hrelation
          hs.refl hok
        exact ⟨n, s', hok, hs.trans hstep⟩
      obtain ⟨n, handled, hhandled⟩ := forEach_terminates hrounds h fun hle _ _ _ =>
        handleRelation_mono fun _ _ _ _ => delete_mono hle
      exact ⟨n + 1, true, _, delete_succ_of_handled ht hrecord hhandled⟩

/-- The deletion comes to an end, and what can be reached is gone. -/
def CascadesAll (tables : Tables) (root : RecordRef) : Prop :=
  ∃ rounds deleted tables',
    delete rounds tables root.table root.id = some (.ok deleted, tables') ∧
      ∀ ref, tables.Reachable root ref → tables'.Lacks ref

theorem cascadesAll_of_unfolds (hkeyed : Keyed tables) (hnulled : tables.Unlinked .setNull root)
    (hrestricted : tables.Unlinked .restrict root) (hunfolds : tables.Unfolds root) :
    CascadesAll tables root := by
  have hstart : Between tables root tables tables :=
    ⟨.refl tables, settled_start tables root, fun _ hlacks => hlacks⟩
  obtain ⟨rounds, deleted, tables', hok⟩ :=
    exists_delete_ok hkeyed hnulled hrestricted .refl hunfolds.finite hstart
  obtain ⟨hbetween, hroot⟩ := delete_ok hkeyed hnulled .refl hstart hok
  refine ⟨rounds, deleted, tables', hok, fun ref hreach => ?_⟩
  induction hreach with
  | refl => exact hroot
  | @tail parent child hparent hlinked ih =>
    by_cases hnamed : child.id = []
    · rw [hunfolds.named child (hparent.tail hlinked) hnamed]
      exact hroot
    · exact (hbetween.settled parent hparent ih).1 child ⟨hlinked, hnamed⟩

theorem unfolds_of_cascadesAll (hkeyed : Keyed tables) (hnulled : tables.Unlinked .setNull root)
    (hcascades : CascadesAll tables root) : tables.Unfolds root := by
  obtain ⟨rounds, deleted, tables', hok, hgone⟩ := hcascades
  have hstart : Between tables root tables tables :=
    ⟨.refl tables, settled_start tables root, fun _ hlacks => hlacks⟩
  obtain ⟨hbetween, hroot⟩ := delete_ok hkeyed hnulled .refl hstart hok
  refine ⟨(hbetween.settled root .refl hroot).2, fun ref hreach hnil => by_contra fun hne => ?_⟩
  have hother : ¬(ref.table = root.table ∧ root.id = []) := by
    rintro ⟨htable, hid⟩
    apply hne
    cases ref
    cases root
    simp_all
  have hlacks : tables.Lacks ref := by
    have hsame := record?_nil_of_delete hok hother
    rw [← hnil] at hsame
    exact hsame.symm.trans (hgone ref hreach)
  -- what can be reached was there at the start
  rcases hreach.cases_tail with rfl | ⟨parent, -, t, relation, -, -, -, -, hlinked⟩
  · exact hne rfl
  · obtain ⟨target, record, -, htarget, hrecord, -⟩ := hlinked
    rw [Lacks, record?_of_get? htarget, hrecord] at hlacks
    cases hlacks

end

section

open scoped Js.Ascii

/-- Folders with their parents; with a folder, the folders in it are deleted. -/
def folders (parents : List (String × String)) : RelatedTable :=
  relatedTable "folders" [relationTo "folders" "parent" .cascade]
    (parents.map fun e => (e.1, child e.1 "parent" e.2))

def folderTables (parents : List (String × String)) : Tables :=
  InsertionMap.empty.set (text "folders") (folders parents)

def folderRef (id : String) : RecordRef := ⟨text "folders", text id⟩

variable {parents : List (String × String)}

theorem eq_folders {name : Text} {t : RelatedTable} (h : (folderTables parents).get? name = some t) :
    name = text "folders" ∧ t = folders parents := by
  rw [folderTables, get?_set] at h
  split_ifs at h with hname
  · exact ⟨hname, (Option.some.inj h).symm⟩
  · cases h

theorem keyed_folders
    (h : ∀ e ∈ (folders parents).table.records.entries,
      fieldOf (cloneRecordWithComputed (folders parents).table.computedColumns e.2) (text "id") =
        .string e.1) : Keyed (folderTables parents) := by
  intro name t ht id record hrecord
  obtain ⟨-, rfl⟩ := eq_folders ht
  exact h (id, record) (mem_entries_iff.mpr hrecord)

theorem linked_folders {action : ReferentialAction} {parent child : RecordRef}
    (h : (folderTables parents).Linked action parent child) :
    action = .cascade ∧ child.table = text "folders" ∧
      ∃ record, (child.id, record) ∈ (folders parents).table.records.entries ∧
        (folders parents).table.resolve record (text "parent") = .string parent.id := by
  obtain ⟨t, relation, ht, -, hrelation, rfl, target, record, -, htarget, hrecord, hrefers⟩ := h
  obtain ⟨-, rfl⟩ := eq_folders ht
  obtain ⟨htable, rfl⟩ := eq_folders htarget
  rw [folders, policies_relatedTable] at hrelation
  obtain rfl := List.mem_singleton.mp hrelation
  exact ⟨rfl, htable, record, mem_entries_iff.mpr hrecord, hrefers⟩

/-- Nothing but `CASCADE`. -/
theorem unlinked_folders {action : ReferentialAction} (h : action ≠ .cascade) (root : RecordRef) :
    (folderTables parents).Unlinked action root :=
  fun _ _ _ hlinked => h (linked_folders hlinked).1

theorem folders_linked {parent id : String}
    (hparent : ((folders parents).table.records.get? (text parent)).isSome)
    (hchild : (folders parents).table.records.get? (text id) = some (child id "parent" parent)) :
    (folderTables parents).Linked .cascade (folderRef parent) (folderRef id) := by
  have hfolders : (folderTables parents).get? (text "folders") = some (folders parents) :=
    get?_set_self _ _ _
  refine ⟨folders parents, relationTo "folders" "parent" .cascade, hfolders, fun hlacks => ?_, ?_,
    rfl, folders parents, child id "parent" parent, rfl, hfolders, hchild, ?_⟩
  · have hnone : (folders parents).table.records.get? (text parent) = none :=
      (record?_of_get? hfolders _).symm.trans hlacks
    rw [hnone] at hparent
    cases hparent
  · rw [folders, policies_relatedTable]
    exact List.mem_singleton.mpr rfl
  · have hfield : Record.field? (child id "parent" parent) (text "parent") =
        some (.string (text parent)) := get?_set_self _ _ _
    have hkey : (relationTo "folders" "parent" .cascade).targetKey = text "parent" := rfl
    rw [DbTable.resolve, resolveFieldValue, hkey, hfield]
    rfl

end

end Tables

end Lumi.Db
