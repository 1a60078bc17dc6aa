import Lumi.Lib.Decimal
import Lumi.Lib.ForEach
import Lumi.Db.Plans

/-!
# Relations between tables

The relations a table declares say what happens, when one of its records is deleted, to the records
that refer to it: they are deleted as well, their reference is set to `null`, or the deletion is
refused.  The relations are dealt with in their order, each of them while the record is still there.

A record that is deleted along with another is deleted by the `delete` of its own table, which comes
back to the relations of that table.  How often it does so, the records decide: `delete` is given a
number of rounds, and has no answer when it needs more.
-/

namespace Lumi.Db

open Js ForEach

inductive ReferentialAction
  | cascade
  | setNull
  | restrict
  deriving DecidableEq

/-- `DbRelationDefinition`, without the fields that a `join` reads. -/
structure DbRelationDefinition where
  name : Text
  targetTable : Text
  targetKey : Text
  onDelete : Option ReferentialAction
  deriving DecidableEq

/-- `relation.onDelete ?? "RESTRICT"`. -/
def DbRelationDefinition.action (relation : DbRelationDefinition) : ReferentialAction :=
  relation.onDelete.getD .restrict

/-- The error of a deletion that is refused. -/
structure ForeignKeyViolation where
  parentId : Text
  dependents : ℕ
  targetTable : Text
  deriving DecidableEq

def ForeignKeyViolation.message (err : ForeignKeyViolation) : Text :=
  text "Foreign key constraint violation: cannot delete record '" ++ err.parentId ++
    text "' because " ++ decimal err.dependents ++ text " record(s) in '" ++ err.targetTable ++
    text "' reference it."

section

variable [Host]

namespace DbTable

variable {ρ : Type*} [Record ρ]

/-- The rest of `delete`, once the relations are dealt with; `existing` is the record found at the
start. -/
def finishDelete (t : DbTable ρ) (id : Text) (existing : ρ) : DbTable ρ :=
  let t := (t.deleteInternal id).2
  let active := t.branching.getActiveRecords.delete id
  let t := { t with
    branching := (t.branching.setActiveRecords active).recordAction .delete id (some existing) none
    ttlTimers := t.ttlTimers.delete id }
  let t := t.emitChangeEvent .delete id (some existing) none
  t.callWalHook .delete id none

theorem ListsLive.finishDelete {t : DbTable ρ} (h : t.ListsLive) (id : Text) (existing : ρ) :
    (t.finishDelete id existing).ListsLive :=
  h.deleteInternal id

@[simp] theorem records_finishDelete (t : DbTable ρ) (id : Text) (existing : ρ) :
    (t.finishDelete id existing).records = t.records.delete id :=
  records_deleteInternal t id

theorem computedColumns_finishDelete (t : DbTable ρ) (id : Text) (existing : ρ) :
    (t.finishDelete id existing).computedColumns = t.computedColumns := by
  have hsame : (t.deleteInternal id).2.computedColumns = t.computedColumns := by
    unfold deleteInternal
    cases t.records.get? id <;> rfl
  exact hsame

end DbTable

/-- A table with its relations.  Its indices list what it holds. -/
structure RelatedTable where
  table : DbTable PlainRecord
  listed : table.ListsLive
  relations : InsertionMap Text DbRelationDefinition
  hasResolver : Bool

/-- The tables, as the resolver finds them by their names. -/
abbrev Tables := InsertionMap Text RelatedTable

namespace RelatedTable

def init (name : Text) : RelatedTable where
  table := .init name false
  listed := DbTable.listsLive_of_empty rfl
  relations := .empty
  hasResolver := true

def defineRelation (t : RelatedTable) (relation : DbRelationDefinition) : RelatedTable :=
  { t with relations := t.relations.set relation.name relation }

def put (t : RelatedTable) (id : Text) (record : PlainRecord) : RelatedTable :=
  { t with
    table := (t.table.put id record none).2
    listed := t.listed.put id record none }

def finishDelete (t : RelatedTable) (id : Text) (existing : PlainRecord) : RelatedTable :=
  { t with
    table := t.table.finishDelete id existing
    listed := t.listed.finishDelete id existing }

/-- `{ where: { [targetKey]: parentId } }`. -/
def refersTo (targetKey parentId : Text) : DbQueryOptions where
  whereClause := some (InsertionMap.empty.set targetKey (.scalar (.string parentId) rfl))

/-- The records that refer to the parent. -/
def dependentsOf (t : RelatedTable) (targetKey parentId : Text) : List PlainRecord :=
  t.table.query (refersTo targetKey parentId)

end RelatedTable

/-! ## What a relation finds -/

namespace RelatedTable

variable {t : RelatedTable} {targetKey parentId : Text}

omit [Host] in
theorem entries_refersTo (targetKey parentId : Text) :
    (InsertionMap.empty.set targetKey
      (DbWhereValue.scalar (.string parentId) rfl) : WhereClause).entries =
        [(targetKey, .scalar (.string parentId) rfl)] := rfl

theorem satisfies_refersTo_iff {record : PlainRecord} :
    t.table.satisfies (refersTo targetKey parentId) record = true ↔
      t.table.resolve record targetKey = .string parentId := by
  have hclause : t.table.satisfies (refersTo targetKey parentId) record =
      strictEq (t.table.resolve record targetKey) (.string parentId) := by
    simp [DbTable.satisfies, refersTo, DbTable.evaluateWhere, entries_refersTo, evaluateField]
  rw [hclause, strictEq_iff]
  refine and_iff_left_of_imp fun h => ?_
  rw [h]
  exact Value.noConfusion

/-- No plan for such a query leaves a record out. -/
theorem selectsAll_refersTo : t.table.SelectsAll (refersTo targetKey parentId) := by
  refine (DbTable.selectsAll_iff_planComplete t.listed ⟨rfl, rfl, ?_⟩).mpr ?_
  · intro clause hclause field v h hmem
    obtain rfl := Option.some.inj hclause
    rw [entries_refersTo, List.mem_singleton] at hmem
    cases hmem
    exact Value.noConfusion
  · intro clause hclause _ _
    obtain rfl := Option.some.inj hclause
    -- a text asks for no range and no prefix
    have hsorted : t.table.usableSorted
        (InsertionMap.empty.set targetKey (.scalar (.string parentId) rfl)) = none := by
      rw [DbTable.usableSorted, entries_refersTo]
      cases h : t.table.indices.sorted.get? targetKey <;> simp [h]
    have hprefix : t.table.usablePrefix
        (InsertionMap.empty.set targetKey (.scalar (.string parentId) rfl)) = none := by
      rw [DbTable.usablePrefix, entries_refersTo]
      cases h : t.table.indices.prefixes.get? targetKey <;> simp [h]
    rw [hsorted, hprefix]
    trivial

/-- A relation finds the records whose field is the id of the parent, as a query hands them out. -/
theorem mem_dependentsOf_iff {dep : PlainRecord} :
    dep ∈ t.dependentsOf targetKey parentId ↔
      ∃ id record, t.table.records.get? id = some record ∧
        t.table.resolve record targetKey = .string parentId ∧
        cloneRecordWithComputed t.table.computedColumns record = dep := by
  have hall : t.table.SelectsAll (refersTo targetKey parentId) := selectsAll_refersTo
  rw [dependentsOf, DbTable.query, List.mem_map]
  constructor
  · rintro ⟨⟨id, record⟩, hentry, rfl⟩
    obtain ⟨hplan, hsat⟩ := (DbTable.mem_queryEntries rfl rfl).mp hentry
    exact ⟨id, record, DbTable.live_of_mem_planQuery hplan, satisfies_refersTo_iff.mp hsat, rfl⟩
  · rintro ⟨id, record, hlive, hrefers, rfl⟩
    obtain ⟨⟨id', record'⟩, hentry, rfl⟩ := List.mem_map.mp
      ((hall id).mpr ⟨record, hlive, satisfies_refersTo_iff.mpr hrefers⟩)
    have hsame := DbTable.live_of_mem_planQuery ((DbTable.mem_queryEntries rfl rfl).mp hentry).1
    exact ⟨(id', record'), hentry, by rw [Option.some.inj (hsame.symm.trans hlive)]⟩

end RelatedTable

/-! ## The tables -/

namespace Tables

/-- The record with that id in the table of that name. -/
def record? (tables : Tables) (name id : Text) : Option PlainRecord :=
  (tables.get? name).bind fun t => t.table.records.get? id

/-- The end of `delete`, in the table as it is by then. -/
def finishDelete (tables : Tables) (name id : Text) (existing : PlainRecord) : Tables :=
  match tables.get? name with
  | some t => tables.set name (t.finishDelete id existing)
  | none => tables

variable {tables : Tables} {name id : Text}

theorem record?_eq_some_iff {record : PlainRecord} :
    tables.record? name id = some record ↔
      ∃ t, tables.get? name = some t ∧ t.table.records.get? id = some record :=
  Option.bind_eq_some_iff

theorem record?_of_get? {t : RelatedTable} (h : tables.get? name = some t) (id : Text) :
    tables.record? name id = t.table.records.get? id := by
  rw [record?, h, Option.bind_some]

theorem record?_set (t : RelatedTable) (other i : Text) :
    record? (tables.set name t) other i =
      if other = name then t.table.records.get? i else tables.record? other i := by
  rw [record?, InsertionMap.get?_set]
  split
  · rfl
  · rfl

theorem record?_set_put (tables : Tables) (name : Text) (t : RelatedTable) (id : Text)
    (record : PlainRecord) (other i : Text) :
    record? (tables.set name (t.put id record)) other i =
      if other = name ∧ i = id then some record else record? (tables.set name t) other i := by
  have hrecords : (t.put id record).table.records = t.table.records.set id record := rfl
  rw [record?_set, record?_set, hrecords, InsertionMap.get?_set]
  by_cases hname : other = name
  · simp [hname]
  · rw [if_neg hname, if_neg hname, if_neg fun heq => hname heq.1]

theorem record?_finishDelete (tables : Tables) (name id other i : Text) (existing : PlainRecord) :
    (tables.finishDelete name id existing).record? other i =
      if other = name ∧ i = id then none else tables.record? other i := by
  unfold finishDelete
  cases ht : tables.get? name with
  | none =>
    by_cases heq : other = name ∧ i = id
    · rw [if_pos heq, heq.1]
      refine Option.bind_eq_none_iff.mpr fun t h => ?_
      cases ht.symm.trans h
    · rw [if_neg heq]
  | some t =>
    have hrecords : (t.finishDelete id existing).table.records = t.table.records.delete id :=
      DbTable.records_finishDelete t.table id existing
    rw [record?_set, hrecords, InsertionMap.get?_delete]
    by_cases hname : other = name
    · subst hname
      rw [if_pos rfl, record?_of_get? ht]
      simp
    · rw [if_neg hname, if_neg fun heq => hname heq.1]

end Tables

/-! ## Deleting -/

/-- The relations that a deletion in the table has to deal with. -/
def RelatedTable.policies (t : RelatedTable) : List DbRelationDefinition :=
  if t.hasResolver then t.relations.values else []

variable [ObjectText]

/-- `String(dep.id ?? dep._id ?? dep.key)`. -/
def dependentId (dep : PlainRecord) : Text :=
  valueText (nullish (nullish (fieldOf dep (text "id")) (fieldOf dep (text "_id")))
    (fieldOf dep (text "key")))

/-- `{ ...dep, [targetKey]: null }` is put in place of every dependent. -/
def RelatedTable.clearDependents (t : RelatedTable) (targetKey : Text) (deps : List PlainRecord) :
    RelatedTable :=
  deps.foldl
    (fun t dep =>
      if dependentId dep = [] then t else t.put (dependentId dep) (dep.set targetKey .null))
    t

/-- What a call leaves: what it returns or throws, and the tables. -/
abbrev Outcome (α : Type) := Except ForeignKeyViolation α × Tables

section

variable (delete : Tables → Text → Text → Option (Outcome Bool))

/-- `if (depId) targetTable.delete(depId)`. -/
def deleteDependent (targetTable : Text)
    (dep : PlainRecord) (tables : Tables) : Option (Outcome Unit) :=
  if dependentId dep = [] then some (.ok (), tables)
  else
    (delete tables targetTable (dependentId dep)).map fun out => (out.1.map fun _ => (), out.2)

/-- One turn of the loop over the relations. -/
def handleRelation (parentId : Text)
    (relation : DbRelationDefinition) (tables : Tables) : Option (Outcome Unit) :=
  match tables.get? relation.targetTable with
  | none => some (.ok (), tables)
  | some target =>
    let dependents := target.dependentsOf relation.targetKey parentId
    if dependents = [] then some (.ok (), tables)
    else
      match relation.action with
      | .restrict =>
        some (.error ⟨parentId, dependents.length, relation.targetTable⟩, tables)
      | .cascade => forEach (deleteDependent delete relation.targetTable) dependents tables
      | .setNull =>
        some (.ok (), tables.set relation.targetTable
          (target.clearDependents relation.targetKey dependents))

def handleParentDelete (parentId : Text)
    (relations : List DbRelationDefinition) (tables : Tables) : Option (Outcome Unit) :=
  forEach (handleRelation delete parentId) relations tables

end

namespace Tables

/-- `delete` of the table of that name, in so many rounds; without an answer when it needs more. -/
def delete : ℕ → Tables → Text → Text → Option (Outcome Bool)
  | 0, _, _, _ => none
  | rounds + 1, tables, name, id =>
    match tables.get? name with
    | none => some (.ok false, tables)
    | some t =>
      match t.table.records.get? id with
      | none => some (.ok false, tables)
      | some existing =>
        let handled := if t.hasResolver then
            handleParentDelete (delete rounds) id t.relations.values tables
          else some (.ok (), tables)
        match handled with
        | some (.ok _, tables) => some (.ok true, finishDelete tables name id existing)
        | some (.error err, tables) => some (.error err, tables)
        | none => none

end Tables

namespace Tables

variable {tables : Tables} {name id : Text}

/-! ## Rounds -/

/-- What a call of `delete` with a round to spare comes to. -/
theorem delete_succ_of_missing (h : tables.record? name id = none) (rounds : ℕ) :
    delete (rounds + 1) tables name id = some (.ok false, tables) := by
  rw [delete]
  cases ht : tables.get? name with
  | none => rfl
  | some t =>
    rw [record?_of_get? ht] at h
    simp only [h]

variable {rounds : ℕ}

/-- A record that is not there is not deleted. -/
theorem delete_of_missing (h : tables.record? name id = none) {out : Outcome Bool}
    (hdelete : delete rounds tables name id = some out) : out = (.ok false, tables) := by
  cases rounds with
  | zero => cases hdelete
  | succ rounds =>
    rw [delete_succ_of_missing h] at hdelete
    exact (Option.some.inj hdelete).symm

/-- The first part of a deletion is the loop over the relations it has to deal with. -/
theorem handled_eq (t : RelatedTable) (rounds : ℕ) :
    (if t.hasResolver then handleParentDelete (delete rounds) id t.relations.values tables
      else some (.ok (), tables)) =
      forEach (handleRelation (delete rounds) id) t.policies tables := by
  unfold RelatedTable.policies
  cases t.hasResolver <;> rfl

variable {tables' : Tables}

theorem delete_succ_of_handled {t : RelatedTable} {existing : PlainRecord}
    (ht : tables.get? name = some t) (hlive : t.table.records.get? id = some existing)
    (hhandled : forEach (handleRelation (delete rounds) id) t.policies tables =
      some (.ok (), tables')) :
    delete (rounds + 1) tables name id =
      some (.ok true, tables'.finishDelete name id existing) := by
  rw [delete]
  simp only [ht, hlive, handled_eq, hhandled]

theorem delete_succ_of_refused {t : RelatedTable} {existing : PlainRecord}
    {err : ForeignKeyViolation} (ht : tables.get? name = some t)
    (hlive : t.table.records.get? id = some existing)
    (hhandled : forEach (handleRelation (delete rounds) id) t.policies tables =
      some (.error err, tables')) :
    delete (rounds + 1) tables name id = some (.error err, tables') := by
  rw [delete]
  simp only [ht, hlive, handled_eq, hhandled]

/-- The ways a deletion can end: there is no record, the relations are dealt with and the record is
removed, or one of the relations refuses. -/
theorem delete_cases {r : Except ForeignKeyViolation Bool}
    (h : delete (rounds + 1) tables name id = some (r, tables')) :
    (tables.record? name id = none ∧ r = .ok false ∧ tables' = tables) ∨
      ∃ t existing, tables.get? name = some t ∧ t.table.records.get? id = some existing ∧
        ((∃ handled, forEach (handleRelation (delete rounds) id) t.policies tables =
            some (.ok (), handled) ∧ r = .ok true ∧
              tables' = handled.finishDelete name id existing) ∨
          ∃ err, forEach (handleRelation (delete rounds) id) t.policies tables =
            some (.error err, tables') ∧ r = .error err) := by
  rcases hlive : tables.record? name id with _ | existing
  · obtain ⟨rfl, rfl⟩ := Prod.mk.inj (delete_of_missing hlive h)
    exact .inl ⟨rfl, rfl, rfl⟩
  · obtain ⟨t, ht, hrecord⟩ := record?_eq_some_iff.mp hlive
    refine .inr ⟨t, existing, ht, hrecord, ?_⟩
    rw [delete] at h
    simp only [ht, hrecord, handled_eq] at h
    split at h
    · next handled hhandled =>
      obtain ⟨rfl, rfl⟩ := Prod.mk.inj (Option.some.inj h)
      exact .inl ⟨handled, hhandled, rfl, rfl⟩
    · next err handled hhandled =>
      obtain ⟨rfl, rfl⟩ := Prod.mk.inj (Option.some.inj h)
      exact .inr ⟨err, hhandled, rfl⟩
    · cases h

section

variable {delete delete' : Tables → Text → Text → Option (Outcome Bool)}
  (hdelete : ∀ tables name id out, delete tables name id = some out →
    delete' tables name id = some out)

include hdelete

theorem deleteDependent_mono {targetTable : Text} {dep : PlainRecord} {out : Outcome Unit}
    (h : deleteDependent delete targetTable dep tables = some out) :
    deleteDependent delete' targetTable dep tables = some out := by
  unfold deleteDependent at h ⊢
  split_ifs at h ⊢
  · exact h
  · obtain ⟨deleted, hdeleted, rfl⟩ := Option.map_eq_some_iff.mp h
    rw [hdelete _ _ _ _ hdeleted, Option.map_some]

theorem handleRelation_mono {relation : DbRelationDefinition} {out : Outcome Unit}
    (h : handleRelation delete id relation tables = some out) :
    handleRelation delete' id relation tables = some out := by
  unfold handleRelation at h ⊢
  cases htarget : tables.get? relation.targetTable with
  | none => simpa only [htarget] using h
  | some target =>
    simp only [htarget] at h ⊢
    split_ifs at h ⊢
    · exact h
    · cases haction : relation.action with
      | cascade =>
        simp only [haction] at h ⊢
        exact forEach_mono (fun _ _ _ => deleteDependent_mono hdelete) h
      | _ => simpa only [haction] using h

end

/-- More rounds do not change what a deletion comes to. -/
theorem delete_mono {rounds rounds' : ℕ} (hle : rounds ≤ rounds') {out : Outcome Bool}
    (h : delete rounds tables name id = some out) : delete rounds' tables name id = some out := by
  induction rounds generalizing rounds' tables name id out with
  | zero => cases h
  | succ rounds ih =>
    obtain ⟨rounds', rfl⟩ := Nat.exists_eq_add_of_lt hle
    rw [show rounds + rounds' + 1 = (rounds + rounds') + 1 from rfl]
    have hmore : ∀ {relations : List DbRelationDefinition} {tables : Tables} {out : Outcome Unit},
        forEach (handleRelation (delete rounds) id) relations tables = some out →
          forEach (handleRelation (delete (rounds + rounds')) id) relations tables = some out :=
      forEach_mono fun _ _ _ => handleRelation_mono fun _ _ _ _ => ih (Nat.le_add_right _ _)
    obtain ⟨r, tables'⟩ := out
    rcases delete_cases h with ⟨hmissing, rfl, rfl⟩ | ⟨t, existing, ht, hlive, hends⟩
    · exact delete_succ_of_missing hmissing _
    · rcases hends with ⟨handled, hhandled, rfl, rfl⟩ | ⟨err, hhandled, rfl⟩
      · exact delete_succ_of_handled ht hlive (hmore hhandled)
      · exact delete_succ_of_refused ht hlive (hmore hhandled)

end Tables

end

section

open scoped Js.Ascii

/-- `{ id, [key]: parent }`. -/
def child (id key parent : String) : PlainRecord :=
  (InsertionMap.empty.set (text "id") (.string (text id))).set (text key) (.string (text parent))

/-- A table of such records, with its relations. -/
def relatedTable (name : String) (relations : List DbRelationDefinition)
    (records : List (String × PlainRecord)) : RelatedTable :=
  records.foldl (fun t e => t.put (text e.1) e.2)
    (relations.foldl RelatedTable.defineRelation (.init (text name)))

theorem policies_relatedTable (name : String) (relations : List DbRelationDefinition)
    (records : List (String × PlainRecord)) :
    (relatedTable name relations records).policies =
      (relations.foldl RelatedTable.defineRelation (.init (text name))).policies := by
  unfold relatedTable
  generalize relations.foldl RelatedTable.defineRelation (.init (text name)) = t
  induction records generalizing t with
  | nil => rfl
  | cons e rest ih => exact ih (t.put (text e.1) e.2)

/-- `{ name: target, targetTable: target, targetKey, onDelete }`. -/
def relationTo (target targetKey : String) (onDelete : ReferentialAction) : DbRelationDefinition :=
  ⟨text target, text target, text targetKey, some onDelete⟩

end

end Lumi.Db
