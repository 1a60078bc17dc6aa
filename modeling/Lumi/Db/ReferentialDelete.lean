import Lumi.Db.Relations

/-!
# Deletions that a relation refuses

A relation with `RESTRICT` refuses when the loop comes to it.  By then the relations before it have
had their way: their dependents are deleted, or no longer refer to the record.  `RefusesAtOnce` says
that there were none to deal with, neither here nor in the tables that a cascade has entered before
it is refused.  Then no table is touched, and in tables of records that carry their keys only then.

For the converse, a record that was deleted, and a field that was set to `null`, stay so: `Marked`
says that there is one.
-/

namespace Lumi.Db.Tables

open Js ForEach InsertionMap Option

section

variable [Host]

/-- The same records under the same ids. -/
def SameRecords (tables tables' : Tables) : Prop :=
  ∀ name id, tables.record? name id = tables'.record? name id

/-- Every record carries its key, and no column is computed. -/
def Plain (tables : Tables) : Prop :=
  ∀ name t, tables.get? name = some t → t.table.computedColumns = .empty ∧
    ∀ id record, t.table.records.get? id = some record → record.get? (text "id") = some (.string id)

/-! ## What cannot be undone -/

/-- A record was deleted, or lost the value of a field. -/
def Marked (start tables : Tables) : Prop :=
  ∃ name id old, start.record? name id = some old ∧
    ∀ record, tables.record? name id = some record →
      ∃ field, record.get? field = some .null ∧ old.get? field ≠ some .null

/-- The record is what became of the one that was there under the same id: it still carries its
key, and what was `null` then is `null` now. -/
def Stems (start : Tables) (name id : Text) (record : PlainRecord) : Prop :=
  record.get? (text "id") = some (.string id) ∧
    ∃ old, start.record? name id = some old ∧
      ∀ field, old.get? field = some .null → record.get? field = some .null

/-- The tables, some steps after the start.  A record whose id was set to `null` can turn up under
another id, but then something was changed for good. -/
structure Later (start tables : Tables) : Prop where
  columns : ∀ name t, tables.get? name = some t → t.table.computedColumns = .empty
  stems : ∀ name id record, tables.record? name id = some record →
    Stems start name id record ∨
      record.get? (text "id") = some .null ∧ Marked start tables

variable {start tables tables' : Tables} {name id : Text}

theorem not_sameRecords_of_marked (h : Marked start tables) : ¬SameRecords start tables := by
  intro hsame
  obtain ⟨name, id, old, hold, hlost⟩ := h
  obtain ⟨field, hnull, hnot⟩ := hlost old ((hsame name id).symm.trans hold)
  exact hnot hnull

theorem Plain.later (h : Plain start) : Later start start where
  columns name t ht := (h name t ht).1
  stems name id record hlive := by
    obtain ⟨t, ht, hrecord⟩ := record?_eq_some_iff.mp hlive
    exact .inl ⟨(h name t ht).2 id record hrecord, record, hlive, fun _ hnull => hnull⟩

theorem Plain.id_ne_null (h : Plain start) {old : PlainRecord}
    (hold : start.record? name id = some old) : old.get? (text "id") ≠ some .null := by
  obtain ⟨t, ht, hrecord⟩ := record?_eq_some_iff.mp hold
  rw [(h name t ht).2 id old hrecord]
  exact fun heq => Value.noConfusion (Option.some.inj heq)

theorem Marked.finishDelete (h : Marked start tables) (name id : Text) (existing : PlainRecord) :
    Marked start (tables.finishDelete name id existing) := by
  obtain ⟨name', id', old, hold, hlost⟩ := h
  refine ⟨name', id', old, hold, fun record hrecord => hlost record ?_⟩
  rw [record?_finishDelete] at hrecord
  split_ifs at hrecord
  exact hrecord

theorem Later.finishDelete (h : Later start tables) (name id : Text) (existing : PlainRecord) :
    Later start (tables.finishDelete name id existing) where
  columns other t ht := by
    unfold Tables.finishDelete at ht
    split at ht
    · next t' ht' =>
      rw [get?_set] at ht
      split_ifs at ht with heq
      · obtain rfl := Option.some.inj ht
        exact (DbTable.computedColumns_finishDelete _ _ _).trans (h.columns name t' ht')
      · exact h.columns other t ht
    · exact h.columns other t ht
  stems other i record hlive := by
    rw [record?_finishDelete] at hlive
    split_ifs at hlive
    exact (h.stems other i record hlive).imp_right fun hstray =>
      ⟨hstray.1, hstray.2.finishDelete name id existing⟩

/-- A record that was there when its deletion began leaves a mark. -/
theorem Later.marked_finishDelete (h : Later start tables) {existing : PlainRecord}
    (hlive : tables.record? name id = some existing)
    (hkeep : Marked start tables → Marked start tables') :
    Marked start (tables'.finishDelete name id existing) := by
  rcases h.stems name id existing hlive with ⟨-, old, hold, -⟩ | ⟨-, hmarked⟩
  · refine ⟨name, id, old, hold, fun record hrecord => ?_⟩
    rw [record?_finishDelete, if_pos ⟨rfl, rfl⟩] at hrecord
    cases hrecord
  · exact (hkeep hmarked).finishDelete name id existing

/-! ## Refused at once -/

variable [ObjectText]

/-- `CASCADE` finds nothing to delete for the dependent. -/
def Skipped (tables : Tables) (targetTable : Text) (dep : PlainRecord) : Prop :=
  dependentId dep = [] ∨ tables.record? targetTable (dependentId dep) = none

/-- The relation leaves the tables alone when the parent goes. -/
def Idle (tables : Tables) (parentId : Text) (relation : DbRelationDefinition) : Prop :=
  ∀ target, tables.get? relation.targetTable = some target →
    ∀ dep ∈ target.dependentsOf relation.targetKey parentId,
      match relation.action with
      | .restrict => False
      | .cascade => Skipped tables relation.targetTable dep
      | .setNull => dependentId dep = []

/-- The deletion of a record comes to a relation of its table with nothing done so far. -/
def ComesTo (tables : Tables) (name id : Text) (relation : DbRelationDefinition)
    (target : RelatedTable) : Prop :=
  ∃ t before after, tables.get? name = some t ∧ (tables.record? name id).isSome ∧
    t.policies = before ++ relation :: after ∧ (∀ r ∈ before, Idle tables id r) ∧
    tables.get? relation.targetTable = some target

/-- The deletion of a record is refused before it touches a table. -/
inductive RefusesAtOnce (tables : Tables) : Text → Text → Prop
  | restrict {name id : Text} {relation : DbRelationDefinition} {target : RelatedTable}
      (hcomes : ComesTo tables name id relation target) (haction : relation.action = .restrict)
      (hdependents : target.dependentsOf relation.targetKey id ≠ []) :
      RefusesAtOnce tables name id
  | cascade {name id : Text} {relation : DbRelationDefinition} {target : RelatedTable}
      {skipped after : List PlainRecord} {dep : PlainRecord}
      (hcomes : ComesTo tables name id relation target) (haction : relation.action = .cascade)
      (hdependents : target.dependentsOf relation.targetKey id = skipped ++ dep :: after)
      (hskipped : ∀ d ∈ skipped, Skipped tables relation.targetTable d)
      (hnamed : dependentId dep ≠ [])
      (hrefuses : RefusesAtOnce tables relation.targetTable (dependentId dep)) :
      RefusesAtOnce tables name id

variable {relation : DbRelationDefinition} {rounds : ℕ}

theorem deleteDependent_of_skipped {targetTable : Text} {dep : PlainRecord}
    (hskipped : Skipped tables targetTable dep) {out : Outcome Unit}
    (h : deleteDependent (delete rounds) targetTable dep tables = some out) :
    out = (.ok (), tables) := by
  unfold deleteDependent at h
  split_ifs at h with hnamed
  · exact (Option.some.inj h).symm
  · obtain ⟨deleted, hdelete, rfl⟩ := map_eq_some_iff.mp h
    rw [delete_of_missing (hskipped.resolve_left hnamed) hdelete]
    rfl

theorem clearDependents_of_unnamed {t : RelatedTable} {targetKey : Text} {deps : List PlainRecord}
    (hunnamed : ∀ dep ∈ deps, dependentId dep = []) : t.clearDependents targetKey deps = t := by
  induction deps with
  | nil => rfl
  | cons dep rest ih =>
    rw [List.forall_mem_cons] at hunnamed
    rw [RelatedTable.clearDependents, List.foldl_cons, if_pos hunnamed.1]
    exact ih hunnamed.2

theorem handleRelation_of_idle (hidle : Idle tables id relation) {out : Outcome Unit}
    (h : handleRelation (delete rounds) id relation tables = some out) :
    out = (.ok (), tables) := by
  unfold handleRelation at h
  cases htarget : tables.get? relation.targetTable with
  | none =>
    rw [htarget] at h
    exact (Option.some.inj h).symm
  | some target =>
    have hdeps := hidle target htarget
    simp only [htarget] at h
    split_ifs at h with hnone
    · exact (Option.some.inj h).symm
    · cases haction : relation.action with
      | restrict =>
        obtain ⟨dep, hdep⟩ := List.exists_mem_of_ne_nil _ hnone
        have hnever := hdeps dep hdep
        rw [haction] at hnever
        exact hnever.elim
      | cascade =>
        simp only [haction] at h hdeps
        exact forEach_of_idle (fun dep hdep _ => deleteDependent_of_skipped (hdeps dep hdep)) h
      | setNull =>
        simp only [haction] at h hdeps
        rw [clearDependents_of_unnamed hdeps, set_eq_self_of_get? htarget] at h
        exact (Option.some.inj h).symm

variable {target : RelatedTable}

theorem ComesTo.get?_target (hcomes : ComesTo tables name id relation target) :
    tables.get? relation.targetTable = some target := by
  obtain ⟨t, before, after, -, -, -, -, htarget⟩ := hcomes
  exact htarget

/-- A deletion that comes to a relation and is refused there has done nothing else. -/
theorem ComesTo.refused (hcomes : ComesTo tables name id relation target)
    (hrefused : ∀ out, handleRelation (delete rounds) id relation tables = some out →
      ∃ err, out = (.error err, tables)) {out : Outcome Bool}
    (h : delete (rounds + 1) tables name id = some out) : ∃ err, out = (.error err, tables) := by
  obtain ⟨t, before, after, ht, hlive, hpolicies, hbefore, -⟩ := hcomes
  have hloop : ∀ out, forEach (handleRelation (delete rounds) id) t.policies tables = some out →
      ∃ err, out = (.error err, tables) := by
    rw [hpolicies]
    exact fun out => forEach_of_refused (fun r hr _ => handleRelation_of_idle (hbefore r hr))
      hrefused
  obtain ⟨r, tables'⟩ := out
  rcases delete_cases h with ⟨hmissing, -, -⟩ | ⟨t', existing, ht', -, hends⟩
  · rw [hmissing] at hlive
    cases hlive
  · obtain rfl := Option.some.inj (ht.symm.trans ht')
    rcases hends with ⟨handled, hhandled, -, -⟩ | ⟨err, hhandled, rfl⟩
    · obtain ⟨err, heq⟩ := hloop _ hhandled
      cases (Prod.mk.inj heq).1
    · obtain ⟨err', heq⟩ := hloop _ hhandled
      exact ⟨err, Prod.ext rfl (Prod.mk.inj heq).2⟩

/-- A deletion that is refused at once leaves the tables as they are. -/
theorem RefusesAtOnce.untouched (hrefuses : RefusesAtOnce tables name id) {out : Outcome Bool}
    (h : delete rounds tables name id = some out) : ∃ err, out = (.error err, tables) := by
  induction hrefuses generalizing rounds out with
  | restrict hcomes haction hdependents =>
    cases rounds with
    | zero => cases h
    | succ rounds =>
      refine hcomes.refused (fun out hround => ?_) h
      simp only [handleRelation, hcomes.get?_target, haction, if_neg hdependents] at hround
      exact ⟨_, (Option.some.inj hround).symm⟩
  | @cascade _ _ _ _ skipped after dep hcomes haction hdependents hskipped hnamed _ ih =>
    cases rounds with
    | zero => cases h
    | succ rounds =>
      refine hcomes.refused (fun out hround => ?_) h
      have hsome : skipped ++ dep :: after ≠ [] := by simp
      simp only [handleRelation, hcomes.get?_target, haction, hdependents, if_neg hsome]
        at hround
      refine forEach_of_refused (fun d hd _ => deleteDependent_of_skipped (hskipped d hd))
        (fun out hdep => ?_) hround
      rw [deleteDependent, if_neg hnamed] at hdep
      obtain ⟨deleted, hdelete, rfl⟩ := map_eq_some_iff.mp hdep
      obtain ⟨err, rfl⟩ := ih hdelete
      exact ⟨err, rfl⟩

/-! ## Touched or refused at once -/

theorem dependentId_of_stems {record : PlainRecord} (h : Stems start name id record) :
    dependentId record = id := by
  have hfield : fieldOf record (text "id") = .string id := by
    rw [fieldOf, show Record.field? record (text "id") = some (.string id) from h.1]
    rfl
  simp [dependentId, hfield, nullish, valueText]

/-- A dependent as `SET_NULL` finds it. -/
def Refers (start tables : Tables) (name targetKey parentId : Text) (dep : PlainRecord) : Prop :=
  dep.get? targetKey = some (.string parentId) ∧
    ((∃ id, Stems start name id dep) ∨
      dep.get? (text "id") = some .null ∧ Marked start tables)

variable {t : RelatedTable} {targetKey parentId : Text} {dep : PlainRecord}

omit [Host] [ObjectText] in
theorem get?_id_set_null {dep : PlainRecord} (h : dep.get? (text "id") = some .null)
    (targetKey : Text) : (dep.set targetKey .null).get? (text "id") = some .null := by
  rw [get?_set]
  split_ifs
  · rfl
  · exact h

/-- The reference of a dependent is gone for good. -/
theorem marked_put (hplain : Plain start)
    (hdep : Refers start (tables.set name t) name targetKey parentId dep) :
    Marked start (tables.set name (t.put (dependentId dep) (dep.set targetKey .null))) := by
  obtain ⟨hrefers, ⟨id, hstems⟩ | ⟨hnull, name', id, old, hold, hlost⟩⟩ := hdep
  · obtain ⟨old, hold, hnulls⟩ := hstems.2
    refine ⟨name, id, old, hold, fun record hrecord => ⟨targetKey, ?_, fun hold => ?_⟩⟩
    · rw [record?_set_put, if_pos ⟨rfl, (dependentId_of_stems hstems).symm⟩] at hrecord
      obtain rfl := Option.some.inj hrecord
      exact get?_set_self _ _ _
    · exact absurd (hrefers.symm.trans (hnulls targetKey hold)) (by simp)
  · refine ⟨name', id, old, hold, fun record hrecord => ?_⟩
    rw [record?_set_put] at hrecord
    split_ifs at hrecord
    · obtain rfl := Option.some.inj hrecord
      exact ⟨text "id", get?_id_set_null hnull targetKey, hplain.id_ne_null hold⟩
    · exact hlost record hrecord

theorem Later.put (hplain : Plain start) (h : Later start (tables.set name t))
    (hdep : Refers start (tables.set name t) name targetKey parentId dep) :
    Later start (tables.set name (t.put (dependentId dep) (dep.set targetKey .null))) where
  columns other t' ht' := by
    rw [get?_set] at ht'
    have hcolumns := h.columns other
    rw [get?_set] at hcolumns
    split_ifs at ht' hcolumns
    · obtain rfl := Option.some.inj ht'
      exact hcolumns t rfl
    · exact hcolumns t' ht'
  stems other i record hlive := by
    have hmarked := marked_put hplain hdep
    rw [record?_set_put] at hlive
    split_ifs at hlive with heq
    · obtain ⟨rfl, rfl⟩ := heq
      obtain rfl := Option.some.inj hlive
      obtain ⟨hrefers, ⟨id, hstems⟩ | ⟨hnull, -⟩⟩ := hdep
      · by_cases hid : targetKey = text "id"
        · exact .inr ⟨hid ▸ get?_set_self _ _ _, hmarked⟩
        · refine .inl ⟨?_, ?_⟩
          · rw [get?_set_of_ne _ _ (Ne.symm hid), dependentId_of_stems hstems]
            exact hstems.1
          · obtain ⟨old, hold, hnulls⟩ := hstems.2
            rw [dependentId_of_stems hstems]
            refine ⟨old, hold, fun field hfield => ?_⟩
            rw [get?_set]
            split_ifs
            · rfl
            · exact hnulls field hfield
      · exact .inr ⟨get?_id_set_null hnull targetKey, hmarked⟩
    · exact (h.stems other i record hlive).imp_right fun hstray => ⟨hstray.1, hmarked⟩

/-- The loop of `SET_NULL` changes something for good unless no dependent has a name. -/
theorem Later.clearDependents (hplain : Plain start) {deps : List PlainRecord}
    (hdeps : ∀ dep ∈ deps, Refers start (tables.set name t) name targetKey parentId dep)
    (h : Later start (tables.set name t)) :
    Later start (tables.set name (t.clearDependents targetKey deps)) ∧
      (Marked start (tables.set name (t.clearDependents targetKey deps)) ∨
        ∀ dep ∈ deps, dependentId dep = []) := by
  induction deps generalizing t with
  | nil => exact ⟨h, .inr fun dep hdep => absurd hdep List.not_mem_nil⟩
  | cons dep rest ih =>
    rw [List.forall_mem_cons] at hdeps
    by_cases hnamed : dependentId dep = []
    · have hskip : t.clearDependents targetKey (dep :: rest) =
          t.clearDependents targetKey rest := by
        rw [RelatedTable.clearDependents, List.foldl_cons, if_pos hnamed]
        rfl
      obtain ⟨hlater, hmark⟩ := ih hdeps.2 h
      rw [hskip]
      exact ⟨hlater, hmark.imp_right fun hrest => List.forall_mem_cons.mpr ⟨hnamed, hrest⟩⟩
    · have hput : t.clearDependents targetKey (dep :: rest) =
          (t.put (dependentId dep) (dep.set targetKey .null)).clearDependents targetKey rest := by
        rw [RelatedTable.clearDependents, List.foldl_cons, if_neg hnamed]
        rfl
      have hmarked := marked_put hplain hdeps.1
      have hrefers : ∀ d ∈ rest, Refers start
          (tables.set name (t.put (dependentId dep) (dep.set targetKey .null))) name targetKey
          parentId d :=
        fun d hd => (hdeps.2 d hd).imp_right fun hd => hd.imp_right fun hnull =>
          ⟨hnull.1, hmarked⟩
      obtain ⟨hlater, hmark⟩ := ih hrefers (h.put hplain hdeps.1)
      rw [hput]
      refine ⟨hlater, .inl (hmark.elim (fun hmarked => hmarked) fun hunnamed => ?_)⟩
      rw [clearDependents_of_unnamed hunnamed]
      exact hmarked

omit [ObjectText] in
/-- A query of plain tables hands out the records themselves. -/
theorem Later.refers (h : Later start tables) (htarget : tables.get? name = some target)
    (hdep : dep ∈ target.dependentsOf targetKey parentId) :
    Refers start tables name targetKey parentId dep := by
  obtain ⟨id, record, hlive, hrefers, rfl⟩ := RelatedTable.mem_dependentsOf_iff.mp hdep
  rw [h.columns name target htarget]
  have hclone : cloneRecordWithComputed (.empty : ComputedColumns PlainRecord) record = record :=
    rfl
  rw [hclone]
  refine ⟨?_, ?_⟩
  · rw [DbTable.resolve, h.columns name target htarget, resolveFieldValue] at hrefers
    cases hfield : Record.field? record targetKey with
    | none =>
      rw [hfield] at hrefers
      cases hrefers
    | some value =>
      rw [hfield] at hrefers
      exact hfield.trans (congrArg some hrefers)
  · exact (h.stems name id record ((record?_of_get? htarget id).trans hlive)).imp_left
      fun hstems => ⟨id, hstems⟩

/-! ### One step -/

/-- Why a deletion left the tables alone: there was no record, or it was refused. -/
def DeletesNothing (tables : Tables) (name id : Text) : Except ForeignKeyViolation Bool → Prop
  | .ok _ => tables.record? name id = none
  | .error _ => RefusesAtOnce tables name id

/-- Why `CASCADE` left the tables alone at a dependent. -/
def SparesDependent (tables : Tables) (targetTable : Text) (dep : PlainRecord) :
    Except ForeignKeyViolation Unit → Prop
  | .ok _ => Skipped tables targetTable dep
  | .error _ => dependentId dep ≠ [] ∧ RefusesAtOnce tables targetTable (dependentId dep)

/-- Why a relation left the tables alone. -/
def SparesAll (tables : Tables) (parentId : Text) (relation : DbRelationDefinition) :
    Except ForeignKeyViolation Unit → Prop
  | .ok _ => Idle tables parentId relation
  | .error _ => ∃ target, tables.get? relation.targetTable = some target ∧
      ((relation.action = .restrict ∧ target.dependentsOf relation.targetKey parentId ≠ []) ∨
        relation.action = .cascade ∧ ∃ skipped dep after,
          target.dependentsOf relation.targetKey parentId = skipped ++ dep :: after ∧
            (∀ d ∈ skipped, Skipped tables relation.targetTable d) ∧
            dependentId dep ≠ [] ∧ RefusesAtOnce tables relation.targetTable (dependentId dep))

section

variable (hdelete : ∀ {tables : Tables} {name id : Text} {r : Except ForeignKeyViolation Bool}
  {tables' : Tables}, Later start tables → delete rounds tables name id = some (r, tables') →
    Later start tables' ∧
      (Marked start tables' ∨ tables' = tables ∧ DeletesNothing tables name id r))

include hdelete

theorem deleteDependent_step {targetTable : Text} {r : Except ForeignKeyViolation Unit}
    (hlater : Later start tables)
    (h : deleteDependent (delete rounds) targetTable dep tables = some (r, tables')) :
    Later start tables' ∧
      (Marked start tables' ∨ tables' = tables ∧ SparesDependent tables targetTable dep r) := by
  unfold deleteDependent at h
  split_ifs at h with hnamed
  · obtain ⟨rfl, rfl⟩ := Prod.mk.inj (Option.some.inj h)
    exact ⟨hlater, .inr ⟨rfl, .inl hnamed⟩⟩
  · obtain ⟨⟨deleted, after⟩, hdeleted, hout⟩ := map_eq_some_iff.mp h
    obtain ⟨rfl, rfl⟩ := Prod.mk.inj hout
    obtain ⟨hlater', hmark⟩ := hdelete hlater hdeleted
    refine ⟨hlater', hmark.imp_right fun ⟨hsame, hnothing⟩ => ⟨hsame, ?_⟩⟩
    cases deleted with
    | ok _ => exact .inr hnothing
    | error err => exact ⟨hnamed, hnothing⟩

theorem handleRelation_step (hplain : Plain start) {r : Except ForeignKeyViolation Unit}
    (hlater : Later start tables)
    (h : handleRelation (delete rounds) id relation tables = some (r, tables')) :
    Later start tables' ∧
      (Marked start tables' ∨ tables' = tables ∧ SparesAll tables id relation r) := by
  unfold handleRelation at h
  cases htarget : tables.get? relation.targetTable with
  | none =>
    simp only [htarget] at h
    obtain ⟨rfl, rfl⟩ := Prod.mk.inj (Option.some.inj h)
    refine ⟨hlater, .inr ⟨rfl, fun target ht => ?_⟩⟩
    rw [htarget] at ht
    cases ht
  | some target =>
    simp only [htarget] at h
    have hidle : (∀ dep ∈ target.dependentsOf relation.targetKey id,
        match relation.action with
        | .restrict => False
        | .cascade => Skipped tables relation.targetTable dep
        | .setNull => dependentId dep = []) → Idle tables id relation := by
      intro hdeps other hother
      obtain rfl := Option.some.inj (htarget.symm.trans hother)
      exact hdeps
    split_ifs at h with hnone
    · obtain ⟨rfl, rfl⟩ := Prod.mk.inj (Option.some.inj h)
      refine ⟨hlater, .inr ⟨rfl, hidle fun dep hdep => ?_⟩⟩
      rw [hnone] at hdep
      exact absurd hdep List.not_mem_nil
    · cases haction : relation.action with
      | restrict =>
        simp only [haction] at h
        obtain ⟨rfl, rfl⟩ := Prod.mk.inj (Option.some.inj h)
        exact ⟨hlater, .inr ⟨rfl, target, htarget, .inl ⟨haction, hnone⟩⟩⟩
      | cascade =>
        simp only [haction] at h hidle
        obtain ⟨hlater', hmark⟩ := forEach_marked_or_untouched
          (R := fun dep r tables => SparesDependent tables relation.targetTable dep r)
          (fun dep _ tables r tables' => deleteDependent_step hdelete) hlater h
        refine ⟨hlater', hmark.imp_right fun ⟨hsame, hrounds⟩ => ⟨hsame, ?_⟩⟩
        cases r with
        | ok _ => exact hidle hrounds
        | error err =>
          obtain ⟨skipped, dep, after, hdeps, hskipped, hnamed, hrefuses⟩ := hrounds
          exact ⟨target, htarget, Or.inr
            ⟨haction, skipped, dep, after, hdeps, hskipped, hnamed, hrefuses⟩⟩
      | setNull =>
        simp only [haction] at h hidle
        obtain ⟨rfl, rfl⟩ := Prod.mk.inj (Option.some.inj h)
        have hself := set_eq_self_of_get? htarget
        have hlater₀ : Later start (tables.set relation.targetTable target) := by rwa [hself]
        have hdeps : ∀ dep ∈ target.dependentsOf relation.targetKey id,
            Refers start (tables.set relation.targetTable target) relation.targetTable
              relation.targetKey id dep := by
          rw [hself]
          exact fun dep => hlater.refers htarget
        obtain ⟨hlater', hmark⟩ := hlater₀.clearDependents hplain hdeps
        refine ⟨hlater', hmark.imp_right fun hunnamed => ⟨?_, hidle hunnamed⟩⟩
        rw [clearDependents_of_unnamed hunnamed, hself]

end

/-- **A deletion** changes something for good, or leaves the tables alone for a reason. -/
theorem delete_step (hplain : Plain start) {r : Except ForeignKeyViolation Bool}
    (hlater : Later start tables) (h : delete rounds tables name id = some (r, tables')) :
    Later start tables' ∧
      (Marked start tables' ∨ tables' = tables ∧ DeletesNothing tables name id r) := by
  induction rounds generalizing tables name id r tables' with
  | zero => cases h
  | succ rounds ih =>
    rcases delete_cases h with ⟨hmissing, rfl, rfl⟩ | ⟨t, existing, ht, hrecord, hends⟩
    · exact ⟨hlater, .inr ⟨rfl, hmissing⟩⟩
    · have hlive : tables.record? name id = some existing :=
        record?_eq_some_iff.mpr ⟨t, ht, hrecord⟩
      rcases hends with ⟨handled, hhandled, rfl, rfl⟩ | ⟨err, hhandled, rfl⟩
      · obtain ⟨hlater', hmark⟩ := forEach_marked_or_untouched
          (R := fun relation r tables => SparesAll tables id relation r)
          (fun relation _ tables r tables' => handleRelation_step ih hplain) hlater hhandled
        have hkeep : Marked start tables → Marked start handled := fun hmarked =>
          hmark.elim (fun hmarked => hmarked) fun hsame => hsame.1 ▸ hmarked
        exact ⟨hlater'.finishDelete name id existing,
          Or.inl (hlater.marked_finishDelete hlive hkeep)⟩
      · obtain ⟨hlater', hmark⟩ := forEach_marked_or_untouched
          (R := fun relation r tables => SparesAll tables id relation r)
          (fun relation _ tables r tables' => handleRelation_step ih hplain) hlater hhandled
        refine ⟨hlater', hmark.imp_right fun ⟨hsame, hrounds⟩ => ⟨hsame, ?_⟩⟩
        obtain ⟨before, relation, after, hpolicies, hbefore, target, htarget, hrefuses⟩ := hrounds
        have hcomes : ComesTo tables name id relation target :=
          ⟨t, before, after, ht, by rw [hlive]; rfl, hpolicies, hbefore, htarget⟩
        rcases hrefuses with ⟨haction, hdeps⟩ | ⟨haction, skipped, dep, rest, hdeps, hskipped,
          hnamed, hdep⟩
        · exact .restrict hcomes haction hdeps
        · exact .cascade hcomes haction hdeps hskipped hnamed hdep

/-- **Deletions that are refused.**  One that is refused at once leaves every table with the records
it had.  Where the records carry their keys, no other does. -/
theorem refused_delete_untouched {err : ForeignKeyViolation}
    (h : delete rounds tables name id = some (.error err, tables')) :
    (RefusesAtOnce tables name id → SameRecords tables tables') ∧
      (Plain tables → SameRecords tables tables' → RefusesAtOnce tables name id) := by
  constructor
  · intro hrefuses name' id'
    obtain ⟨err', heq⟩ := hrefuses.untouched h
    rw [(Prod.mk.inj heq).2]
  · intro hplain hsame
    obtain ⟨-, hmarked | ⟨-, hrefuses⟩⟩ := delete_step hplain hplain.later h
    · exact absurd hsame (not_sameRecords_of_marked hmarked)
    · exact hrefuses

end

section

open scoped Js.Ascii

/-- A goal with a task and a note. -/
def goalTables (relations : List DbRelationDefinition) : Tables :=
  ((InsertionMap.empty.set (text "goals")
      (relatedTable "goals" relations [("g", child "g" "title" "Release")])).set (text "tasks")
      (relatedTable "tasks" [] [("t", child "t" "goal" "g")])).set (text "notes")
      (relatedTable "notes" [] [("n", child "n" "goal" "g")])

theorem get?_goals (relations : List DbRelationDefinition) :
    (goalTables relations).get? (text "goals") =
      some (relatedTable "goals" relations [("g", child "g" "title" "Release")]) := by
  rw [goalTables, get?_set_of_ne _ _ (by decide),
    get?_set_of_ne _ _ (by decide), get?_set_self]

/-- Where the relation with the notes comes first, nothing is deleted. -/
theorem refused_delete_untouched_notes :
    let tables := goalTables [relationTo "notes" "goal" .restrict,
      relationTo "tasks" "goal" .cascade]
    (delete 1 tables (text "goals") (text "g")).map Prod.fst =
        some (.error ⟨text "g", 1, text "notes"⟩) ∧
      ∀ tables', (delete 1 tables (text "goals") (text "g")).map Prod.snd = some tables' →
        SameRecords tables tables' := by
  intro tables
  have hrefused : (delete 1 tables (text "goals") (text "g")).map Prod.fst =
      some (.error ⟨text "g", 1, text "notes"⟩) := by decide +kernel
  refine ⟨hrefused, fun tables' htables' => ?_⟩
  obtain ⟨out, hdelete, herror⟩ := map_eq_some_iff.mp hrefused
  rw [hdelete, map_some, some_inj] at htables'
  have hcomes : ComesTo tables (text "goals") (text "g") (relationTo "notes" "goal" .restrict)
      (relatedTable "notes" [] [("n", child "n" "goal" "g")]) :=
    ⟨_, [], [relationTo "tasks" "goal" .cascade], get?_goals _, by decide +kernel,
      by decide +kernel, fun r hr => absurd hr List.not_mem_nil, get?_set_self _ _ _⟩
  exact (refused_delete_untouched (hdelete.trans (congrArg some (Prod.ext herror htables')))).1
    (.restrict hcomes rfl (by decide +kernel))

/-- The note keeps the goal from being deleted, but not the task. -/
theorem refused_delete_deletes_task :
    ¬∀ rounds tables name id err tables',
      delete rounds tables name id = some (.error err, tables') → SameRecords tables tables' := by
  intro h
  have hrefused : (delete 2 (goalTables [relationTo "tasks" "goal" .cascade,
      relationTo "notes" "goal" .restrict]) (text "goals") (text "g")).map
        (fun out => (out.1, out.2.record? (text "tasks") (text "t"))) =
      some (.error ⟨text "g", 1, text "notes"⟩, none) := by decide +kernel
  obtain ⟨out, hdelete, hout⟩ := map_eq_some_iff.mp hrefused
  obtain ⟨herror, hgone⟩ := Prod.mk.inj hout
  have hsame := h _ _ _ _ _ out.2 (hdelete.trans (congrArg some (Prod.ext herror rfl)))
    (text "tasks") (text "t")
  rw [hgone] at hsame
  exact absurd hsame (by decide +kernel)

end

end Lumi.Db.Tables
