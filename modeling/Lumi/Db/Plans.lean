import Lumi.Db.Listing
import Lumi.Db.Query

/-!
# Query plans and the full scan

Whatever candidates a plan proposes, `query` filters them by all four clauses, so a
plan can only lose records.  Since every live record is listed under its own key,
a composite and an equality plan lose none: a record that satisfies the clause has
the very key that is looked up.

A sorted plan loses the records whose value is not sortable, and those whose entry
stands behind one beyond the upper bound, where the scan stops: in a list that
holds both numbers and strings, the order need not be the order of the scan.  A
prefix plan loses the records whose text starts with the prefix only before it is
trimmed, or whose prefix loses its white space with the text.  A listing that an
earlier record of the id left behind can still bring the record in.

`PlanComplete` says that none of this happens, and the main result that a query
then, and only then, selects what the full scan selects.
-/

namespace Lumi.Db

open Js InsertionMap InvertedIndex List Option

section

variable [Host]

/-- The scan stops at the entry. -/
def Stops (f : DbFieldFilter) (entry : SortedEntry) : Prop :=
  ¬belowRange (normalizeSortableValue f.min) f.includeMin entry ∧
    beyondRange (normalizeSortableValue f.max) f.includeMax entry

/-- The list has an entry of the id, under its own value or within the range, and no
entry before it at which the scan stops. -/
def Reached (list : List SortedEntry) (f : DbFieldFilter) (id : Text) (own : Option Primitive) :
    Prop :=
  ∃ before entry after, list = before ++ entry :: after ∧ id ∈ entry.ids.keys ∧
    (own = some entry.value ∨
      ¬belowRange (normalizeSortableValue f.min) f.includeMin entry ∧
        ¬beyondRange (normalizeSortableValue f.max) f.includeMax entry) ∧
    ∀ e ∈ before, ¬Stops f e

/-- A query without a page, whose values are not `undefined`. -/
structure DbQueryOptions.InScope (options : DbQueryOptions) : Prop where
  limit : options.limit = none
  offset : options.offset = none
  values : ∀ clause ∈ options.whereClause, ∀ field v h,
    (field, DbWhereValue.scalar v h) ∈ clause.entries → v ≠ .undefined

variable {ρ : Type*} [Record ρ]

namespace DbTable

/-- The query selects the ids of the live records that satisfy its clauses. -/
def SelectsAll (t : DbTable ρ) (options : DbQueryOptions) : Prop :=
  ∀ id, id ∈ (t.queryEntries options).map Prod.fst ↔
    ∃ record, t.records.get? id = some record ∧ t.satisfies options record = true

/-- The records that satisfy the query stand where a sorted or a prefix plan looks for
them. -/
def PlanComplete (t : DbTable ρ) (options : DbQueryOptions) : Prop :=
  ∀ clause ∈ options.whereClause, t.usableComposite clause = none →
    t.usableEquality clause = none →
    match t.usableSorted clause with
    | some (field, list, f) =>
      ∀ id record, t.records.get? id = some record → t.satisfies options record = true →
        Reached list f id (normalizeSortableValue (t.resolve record field))
    | none =>
      match t.usablePrefix clause with
      | some (field, index, p) =>
        ∀ id record, t.records.get? id = some record → t.satisfies options record = true →
          ∀ s, t.resolve record field = .string s →
            (toLowerCase p).take 20 ∈ prefixKeys s ∨
              id ∈ index.lookup ((toLowerCase p).take 20)
      | none => True

end DbTable

/-! ## Comparisons -/

theorem toPrimitive_of_normalize {v : Value} {p : Primitive}
    (h : normalizeSortableValue v = some p) : v.toPrimitive = p := by
  cases v <;> simp_all [normalizeSortableValue, Value.toPrimitive]

/-! ## Sorted plans -/

section

variable {f : DbFieldFilter} {actualVal : Value} {entry : SortedEntry}

/-- What a value that passes the bounds of a filter is compared to. -/
theorem bounds_of_evaluateBounds (hpass : evaluateBounds actualVal f = true) :
    (f.gt = .undefined ∨ actualVal.le f.gt = false) ∧
    (f.gte = .undefined ∨ actualVal.lt f.gte = false) ∧
    (f.lt = .undefined ∨ actualVal.ge f.lt = false) ∧
    (f.lte = .undefined ∨ actualVal.gt f.lte = false) ∧
    ∀ bounds ∈ f.between, actualVal.lt bounds.1 = false ∧ actualVal.gt bounds.2 = false := by
  simp only [evaluateBounds, Bool.and_eq_true, Bool.or_eq_true, Bool.not_eq_true',
    Bool.or_eq_false_iff, decide_eq_true_eq, Option.all_eq_true] at hpass
  obtain ⟨⟨⟨⟨hgt, hgte⟩, hlt⟩, hlte⟩, hbetween⟩ := hpass
  refine ⟨hgt.imp_right And.right, hgte.imp_right And.right, hlt.imp_right And.right,
    hlte.imp_right And.right, ?_⟩
  intro bounds hbounds
  have := hbetween bounds hbounds
  exact ⟨this.1.2, this.2⟩

theorem lt_eq_false_of_le_eq_false {a b : Value} (h : a.le b = false) : a.lt b = false := by
  unfold Value.le Primitive.le at h
  unfold Value.lt Primitive.lt
  simp only [decide_eq_false_iff_not] at h ⊢
  exact fun hlt => h (Primitive.less?_asymm hlt)

theorem gt_eq_false_of_ge_eq_false {a b : Value} (h : a.ge b = false) : a.gt b = false := by
  unfold Value.ge Primitive.ge at h
  unfold Value.gt Primitive.gt
  simp only [decide_eq_false_iff_not] at h ⊢
  exact fun hgt => h (Primitive.less?_asymm hgt)

section

variable (hpass : evaluateBounds actualVal f = true)
include hpass

theorem lowerBound_of_evaluateBounds :
    f.min = .undefined ∨
      (if f.includeMin then actualVal.lt f.min else actualVal.le f.min) = false := by
  obtain ⟨hgt, hgte, -, -, hbetween⟩ := bounds_of_evaluateBounds hpass
  unfold DbFieldFilter.min DbFieldFilter.includeMin
  cases hb : f.between with
  | some bounds => exact .inr (by simpa using (hbetween bounds hb).1)
  | none =>
    by_cases hundefined : f.gte = .undefined
    · -- the bound is `$gt`, and excluded
      simpa [nullish, hundefined] using hgt
    · by_cases hnull : f.gte = .null
      · -- a `null` as `$gte` leaves `$gt` as the bound, but includes it
        simpa [nullish, hnull] using hgt.imp_right lt_eq_false_of_le_eq_false
      · simpa [nullish, hundefined, hnull] using hgte

theorem upperBound_of_evaluateBounds :
    f.max = .undefined ∨
      (if f.includeMax then actualVal.gt f.max else actualVal.ge f.max) = false := by
  obtain ⟨-, -, hlt, hlte, hbetween⟩ := bounds_of_evaluateBounds hpass
  unfold DbFieldFilter.max DbFieldFilter.includeMax
  cases hb : f.between with
  | some bounds => exact .inr (by simpa using (hbetween bounds hb).2)
  | none =>
    by_cases hundefined : f.lte = .undefined
    · -- the bound is `$lt`, and excluded
      simpa [nullish, hundefined] using hlt
    · by_cases hnull : f.lte = .null
      · -- a `null` as `$lte` leaves `$lt` as the bound, but includes it
        simpa [nullish, hnull] using hlt.imp_right gt_eq_false_of_ge_eq_false
      · simpa [nullish, hundefined, hnull] using hlte

/-- A value that passes the filter is not below its lower bound. -/
theorem not_belowRange (hvalue : actualVal.toPrimitive = entry.value) :
    ¬belowRange (normalizeSortableValue f.min) f.includeMin entry := by
  cases hmin : normalizeSortableValue f.min with
  | none => simp [belowRange]
  | some normMin =>
    rw [belowRange, ← hvalue, ← toPrimitive_of_normalize hmin]
    rcases lowerBound_of_evaluateBounds hpass with hundefined | hbound
    · simp [hundefined, normalizeSortableValue] at hmin
    · exact Bool.eq_false_iff.mp hbound

/-- A value that passes the filter is not beyond its upper bound. -/
theorem not_beyondRange (hvalue : actualVal.toPrimitive = entry.value) :
    ¬beyondRange (normalizeSortableValue f.max) f.includeMax entry := by
  cases hmax : normalizeSortableValue f.max with
  | none => simp [beyondRange]
  | some normMax =>
    rw [beyondRange, ← hvalue, ← toPrimitive_of_normalize hmax]
    rcases upperBound_of_evaluateBounds hpass with hundefined | hbound
    · simp [hundefined, normalizeSortableValue] at hmax
    · exact Bool.eq_false_iff.mp hbound

/-- The scan finds an id exactly if it reaches an entry of it. -/
theorem mem_scan_iff_reached {list : List SortedEntry} {id : Text} :
    id ∈ (scanSortedIndexRange list f.min f.max f.includeMin f.includeMax).keys ↔
      Reached list f id (normalizeSortableValue actualVal) := by
  rw [mem_scanSortedIndexRange]
  constructor
  · rintro ⟨entry, hentry, hid⟩
    obtain ⟨hbelow, hbeyond, before, after, hlist, hbefore⟩ := mem_scanEntries.mp hentry
    refine ⟨before, entry, after, hlist, hid, .inr ⟨hbelow, hbeyond⟩, ?_⟩
    intro e he hstops
    exact (hbefore e he).elim hstops.1 fun h => h hstops.2
  · rintro ⟨before, entry, after, hlist, hid, hentry, hbefore⟩
    refine ⟨entry, mem_scanEntries.mpr ?_, hid⟩
    have hrange : ¬belowRange (normalizeSortableValue f.min) f.includeMin entry ∧
        ¬beyondRange (normalizeSortableValue f.max) f.includeMax entry := by
      rcases hentry with hown | hrange
      · have hvalue := toPrimitive_of_normalize hown
        exact ⟨not_belowRange hpass hvalue, not_beyondRange hpass hvalue⟩
      · exact hrange
    refine ⟨hrange.1, hrange.2, before, after, hlist, ?_⟩
    intro e he
    have := hbefore e he
    unfold Stops at this
    tauto

end

end

/-! ## What the clause of a plan says -/

namespace DbTable

variable {t : DbTable ρ} {clause : WhereClause} {record : ρ}

theorem evaluateField_of_evaluateWhere (h : t.evaluateWhere record clause = true) {field : Text}
    {expected : DbWhereValue} (hmem : (field, expected) ∈ clause.entries) :
    evaluateField (t.resolve record field) expected = true :=
  all_eq_true.mp h (field, expected) hmem

theorem evaluateWhere_of_satisfies {options : DbQueryOptions}
    (hclause : clause ∈ options.whereClause) (h : t.satisfies options record = true) :
    t.evaluateWhere record clause = true := by
  simp only [satisfies, Bool.and_eq_true, mem_def.mp hclause, all_some] at h
  exact h.1.1.1

section

omit [Host] [Record ρ]

theorem usableEquality_eq_some {field : Text} {index : InvertedIndex Value Text} {v : Value}
    (h : t.usableEquality clause = some (field, index, v)) :
    t.indices.equality.get? field = some index ∧
      ∃ hv, (field, DbWhereValue.scalar v hv) ∈ clause.entries := by
  obtain ⟨⟨field', expected⟩, hmem, hsome⟩ := exists_of_findSome?_eq_some h
  dsimp only at hsome
  split at hsome
  · next index' v' hv' hindex =>
    simp only [Option.some.injEq, Prod.mk.injEq] at hsome
    obtain ⟨rfl, rfl, rfl⟩ := hsome
    exact ⟨hindex, hv', hmem⟩
  · exact absurd hsome (by simp)

theorem usableSorted_eq_some {field : Text} {list : List SortedEntry} {f : DbFieldFilter}
    (h : t.usableSorted clause = some (field, list, f)) :
    (field, DbWhereValue.filter f) ∈ clause.entries := by
  obtain ⟨⟨field', expected⟩, hmem, hsome⟩ := exists_of_findSome?_eq_some h
  dsimp only at hsome
  split at hsome
  · split at hsome
    · simp only [Option.some.injEq, Prod.mk.injEq] at hsome
      obtain ⟨rfl, rfl, rfl⟩ := hsome
      exact hmem
    · exact absurd hsome (by simp)
  · exact absurd hsome (by simp)

theorem usablePrefix_eq_some {field p : Text} {index : InvertedIndex Text Text}
    (h : t.usablePrefix clause = some (field, index, p)) :
    t.indices.prefixes.get? field = some index ∧
      ∃ f, (field, DbWhereValue.filter f) ∈ clause.entries ∧ f.startsWith = some p := by
  obtain ⟨⟨field', expected⟩, hmem, hsome⟩ := exists_of_findSome?_eq_some h
  dsimp only at hsome
  split at hsome
  · next index' f hindex =>
    split at hsome
    · next p' hp =>
      split at hsome
      · exact absurd hsome (by simp)
      · simp only [Option.some.injEq, Prod.mk.injEq] at hsome
        obtain ⟨rfl, rfl, rfl⟩ := hsome
        exact ⟨hindex, f, hmem, hp⟩
    · exact absurd hsome (by simp)
  · exact absurd hsome (by simp)

end

omit [Host] in
/-- The key object holds fields of the index, with their values in the clause. -/
theorem of_get?_scalarFields {fields : List Text} {f : Text} {v : Value}
    (h : (scalarFields clause fields).get? f = some v) :
    f ∈ fields ∧ ∃ hv, clause.get? f = some (.scalar v hv) := by
  unfold scalarFields at h
  revert h
  apply List.foldlRecOn (motive := fun keyObj : InsertionMap Text Value =>
    keyObj.get? f = some v → f ∈ fields ∧ ∃ hv, clause.get? f = some (.scalar v hv)) fields
  · intro h
    exact absurd h (by simp)
  · intro keyObj ih g hg h
    split at h
    · next w hw hclause =>
      rw [get?_set] at h
      split at h
      · next heq =>
        obtain rfl := some_inj.mp h
        exact ⟨heq ▸ hg, hw, heq ▸ hclause⟩
      · exact ih h
    · exact ih h

omit [Host] in
/-- A key object as large as the list of fields has them all. -/
theorem mem_scalarFields {fields : List Text}
    (hsize : (scalarFields clause fields).size = fields.length) {f : Text} (hf : f ∈ fields) :
    ∃ v hv, (scalarFields clause fields).get? f = some v ∧
      clause.get? f = some (.scalar v hv) := by
  have hsubset : (scalarFields clause fields).keys ⊆ fields := by
    intro g hg
    obtain ⟨v, hv⟩ := mem_keys_iff.mp hg
    exact (of_get?_scalarFields hv).1
  have hperm : (scalarFields clause fields).keys.Perm fields := by
    apply (subperm_of_subset (scalarFields clause fields).nodup hsubset).perm_of_length_le
    rw [← hsize]
    exact (length_map _).ge
  obtain ⟨v, hv⟩ := mem_keys_iff.mp (hperm.mem_iff.mpr hf)
  obtain ⟨-, hscalar, hclause⟩ := of_get?_scalarFields hv
  exact ⟨v, hscalar, hv, hclause⟩

omit [Host] [Record ρ] in
theorem usableComposite_eq_some {name : Text} {c : CompositeIndex}
    {keyObj : InsertionMap Text Value} (h : t.usableComposite clause = some (name, c, keyObj)) :
    t.indices.composite.get? name = some c ∧ keyObj = scalarFields clause c.fields ∧
      keyObj.size = c.fields.length := by
  obtain ⟨⟨name', c'⟩, hmem, hsome⟩ := exists_of_findSome?_eq_some h
  dsimp only at hsome
  split at hsome
  · next hfits =>
    simp only [Option.some.injEq, Prod.mk.injEq] at hsome
    obtain ⟨rfl, rfl, rfl⟩ := hsome
    simp only [Bool.and_eq_true, decide_eq_true_eq] at hfits
    exact ⟨mem_entries_iff.mp hmem, rfl, hfits.2⟩
  · exact absurd hsome (by simp)

/-- A record that satisfies the clause has the composite key the plan looks up. -/
theorem buildCompositeKey_of_evaluateWhere (h : t.evaluateWhere record clause = true)
    {fields : List Text} (hsize : (scalarFields clause fields).size = fields.length) :
    buildCompositeKey fields (fun f => ((scalarFields clause fields).get? f).getD .undefined) =
      buildCompositeKey fields (t.resolve record) := by
  unfold buildCompositeKey
  congr 1
  apply map_congr_left
  intro f hf
  obtain ⟨v, hv, hget, hclause⟩ := mem_scalarFields hsize hf
  have heval := evaluateField_of_evaluateWhere h (mem_entries_iff.mpr hclause)
  have heq : t.resolve record f = v := (strictEq_iff.mp heval).1
  simp only [hget, getD_some, heq]

/-! ## Plans -/

variable {options : DbQueryOptions}

/-- A query can only lose records, and loses those that are no candidates. -/
theorem selectsAll_iff_candidates (hscope : options.InScope) :
    t.SelectsAll options ↔
      ∀ id record, t.records.get? id = some record → t.satisfies options record = true →
        (id, record) ∈ (t.planQuery options).candidates := by
  have hmem := fun e => mem_queryEntries (t := t) hscope.limit hscope.offset (e := e)
  unfold SelectsAll
  constructor
  · intro h id record hlive hsat
    obtain ⟨e, he, rfl⟩ := mem_map.mp ((h id).mpr ⟨record, hlive, hsat⟩)
    have hcandidate := ((hmem e).mp he).1
    have hsame := live_of_mem_planQuery hcandidate
    rw [hlive, some_inj] at hsame
    rwa [hsame]
  · intro h id
    constructor
    · intro hid
      obtain ⟨e, he, rfl⟩ := mem_map.mp hid
      obtain ⟨hcandidate, hsat⟩ := (hmem e).mp he
      exact ⟨e.2, live_of_mem_planQuery hcandidate, hsat⟩
    · rintro ⟨record, hlive, hsat⟩
      exact mem_map.mpr ⟨(id, record), (hmem _).mpr ⟨h id record hlive hsat, hsat⟩, rfl⟩

section

variable (hclause : options.whereClause = some clause)

include hclause

section

omit [Record ρ]

theorem candidates_of_usableComposite {name : Text} {c : CompositeIndex}
    {keyObj : InsertionMap Text Value} (h : t.usableComposite clause = some (name, c, keyObj)) :
    (t.planQuery options).candidates = t.liveRecords (c.map.lookup
      (buildCompositeKey c.fields fun f => (keyObj.get? f).getD .undefined)) := by
  simp [planQuery, hclause, planComposite, h]

theorem candidates_of_usableEquality {field : Text} {index : InvertedIndex Value Text} {v : Value}
    (hcomposite : t.usableComposite clause = none)
    (h : t.usableEquality clause = some (field, index, v)) :
    (t.planQuery options).candidates = t.liveRecords (index.lookup v) := by
  simp [planQuery, hclause, planComposite, hcomposite, planEquality, h]

theorem candidates_of_usableSorted {field : Text} {list : List SortedEntry} {f : DbFieldFilter}
    (hcomposite : t.usableComposite clause = none) (hequality : t.usableEquality clause = none)
    (h : t.usableSorted clause = some (field, list, f)) :
    (t.planQuery options).candidates = t.liveRecords
      (scanSortedIndexRange list f.min f.max f.includeMin f.includeMax).keys := by
  simp [planQuery, hclause, planComposite, hcomposite, planEquality, hequality, planSorted, h]

theorem candidates_of_usablePrefix {field p : Text} {index : InvertedIndex Text Text}
    (hcomposite : t.usableComposite clause = none) (hequality : t.usableEquality clause = none)
    (hsorted : t.usableSorted clause = none) (h : t.usablePrefix clause = some (field, index, p)) :
    (t.planQuery options).candidates =
      t.liveRecords (index.lookup ((toLowerCase p).take 20)) := by
  simp [planQuery, hclause, planComposite, hcomposite, planEquality, hequality, planSorted,
    hsorted, planPrefix, h]

theorem candidates_of_noIndex (hcomposite : t.usableComposite clause = none)
    (hequality : t.usableEquality clause = none) (hsorted : t.usableSorted clause = none)
    (h : t.usablePrefix clause = none) : (t.planQuery options).candidates = t.records.entries := by
  simp [planQuery, hclause, planComposite, hcomposite, planEquality, hequality, planSorted,
    hsorted, planPrefix, h, fullTableScan]

end

end

/-- A composite plan misses no record that satisfies its clause. -/
theorem mem_composite_plan (h : t.ListsLive) {name id : Text} {c : CompositeIndex}
    {keyObj : InsertionMap Text Value} (husable : t.usableComposite clause = some (name, c, keyObj))
    (hlive : t.records.get? id = some record) (hwhere : t.evaluateWhere record clause = true) :
    id ∈ c.map.lookup
      (buildCompositeKey c.fields fun f => (keyObj.get? f).getD .undefined) := by
  obtain ⟨hget, rfl, hsize⟩ := usableComposite_eq_some husable
  rw [buildCompositeKey_of_evaluateWhere hwhere hsize]
  exact (h id record hlive).composite name c hget

/-- An equality plan misses no record that satisfies its clause. -/
theorem mem_equality_plan (h : t.ListsLive) {field id : Text} {index : InvertedIndex Value Text}
    {v : Value} (husable : t.usableEquality clause = some (field, index, v))
    (hdefined : v ≠ .undefined) (hlive : t.records.get? id = some record)
    (hwhere : t.evaluateWhere record clause = true) : id ∈ index.lookup v := by
  obtain ⟨hget, hv, hmem⟩ := usableEquality_eq_some husable
  have heq : t.resolve record field = v :=
    (strictEq_iff.mp (evaluateField_of_evaluateWhere hwhere hmem)).1
  have hlisted := (h id record hlive).equality field index hget (heq ▸ hdefined)
  rwa [heq] at hlisted

/-- A sorted plan finds the records it reaches. -/
theorem mem_sorted_plan_iff {field id : Text} {list : List SortedEntry} {f : DbFieldFilter}
    (husable : t.usableSorted clause = some (field, list, f))
    (hwhere : t.evaluateWhere record clause = true) :
    id ∈ (scanSortedIndexRange list f.min f.max f.includeMin f.includeMax).keys ↔
      Reached list f id (normalizeSortableValue (t.resolve record field)) := by
  have heval := evaluateField_of_evaluateWhere hwhere (usableSorted_eq_some husable)
  apply mem_scan_iff_reached
  simp only [evaluateField, evaluateFilter, Bool.and_eq_true] at heval
  exact heval.1.1.1.2

/-- A prefix plan finds the records it lists, their own texts among them. -/
theorem mem_prefix_plan_iff (h : t.ListsLive) {field id p : Text} {index : InvertedIndex Text Text}
    (husable : t.usablePrefix clause = some (field, index, p))
    (hlive : t.records.get? id = some record) (hwhere : t.evaluateWhere record clause = true) :
    id ∈ index.lookup ((toLowerCase p).take 20) ↔
      ∀ s, t.resolve record field = .string s →
        (toLowerCase p).take 20 ∈ prefixKeys s ∨ id ∈ index.lookup ((toLowerCase p).take 20) := by
  obtain ⟨hget, f, hmem, hp⟩ := usablePrefix_eq_some husable
  constructor
  · exact fun hid s _ => .inr hid
  · intro hid
    have heval := evaluateField_of_evaluateWhere hwhere hmem
    cases hvalue : t.resolve record field with
    | string s =>
      rcases hid s hvalue with hown | hid
      · exact (h id record hlive).prefixes field index s hget hvalue _ hown
      · exact hid
    | _ =>
      -- only a text can start with something
      simp [evaluateField, evaluateFilter, evaluateTexts, hp, testText, hvalue] at heval

/-- **One state.**  Where every live record is listed under its own keys, a query
selects what the full scan selects exactly if its plan is complete. -/
theorem selectsAll_iff_planComplete (h : t.ListsLive) (hscope : options.InScope) :
    t.SelectsAll options ↔ t.PlanComplete options := by
  rw [selectsAll_iff_candidates hscope]
  unfold PlanComplete
  cases hclause : options.whereClause with
  | none =>
    refine iff_of_true ?_ (by simp)
    intro id record hlive _
    simpa [planQuery, hclause, fullTableScan, mem_entries_iff] using hlive
  | some clause =>
    have hwhere : ∀ {record : ρ}, t.satisfies options record = true →
        t.evaluateWhere record clause = true :=
      fun hsat => evaluateWhere_of_satisfies (mem_def.mpr hclause) hsat
    simp only [mem_def, Option.some.injEq, forall_eq']
    cases hcomposite : t.usableComposite clause with
    | some usable =>
      refine iff_of_true ?_ (by simp)
      intro id record hlive hsat
      rw [candidates_of_usableComposite hclause hcomposite, mem_liveRecords]
      exact ⟨mem_composite_plan h hcomposite hlive (hwhere hsat), hlive⟩
    | none =>
      cases hequality : t.usableEquality clause with
      | some usable =>
        refine iff_of_true ?_ (by simp)
        intro id record hlive hsat
        obtain ⟨-, hv, hmem⟩ := usableEquality_eq_some hequality
        have hdefined := hscope.values clause (mem_def.mpr hclause) _ _ hv hmem
        rw [candidates_of_usableEquality hclause hcomposite hequality, mem_liveRecords]
        exact ⟨mem_equality_plan h hequality hdefined hlive (hwhere hsat), hlive⟩
      | none =>
        simp only [forall_const]
        cases hsorted : t.usableSorted clause with
        | some usable =>
          rw [candidates_of_usableSorted hclause hcomposite hequality hsorted]
          refine forall₄_congr fun id record hlive hsat => ?_
          rw [mem_liveRecords, ← mem_sorted_plan_iff hsorted (hwhere hsat)]
          exact and_iff_left hlive
        | none =>
          cases hprefix : t.usablePrefix clause with
          | some usable =>
            rw [candidates_of_usablePrefix hclause hcomposite hequality hsorted hprefix]
            refine forall₄_congr fun id record hlive hsat => ?_
            rw [mem_liveRecords, ← mem_prefix_plan_iff h hprefix hlive (hwhere hsat)]
            exact and_iff_left hlive
          | none =>
            rw [candidates_of_noIndex hclause hcomposite hequality hsorted hprefix]
            refine iff_of_true ?_ trivial
            intro id record hlive _
            exact mem_entries_iff.mpr hlive

end DbTable

end

section

open scoped Js.Ascii

/-- A record with one field. -/
def oneField (field : String) (v : Value) : PlainRecord := InsertionMap.empty.set (text field) v

/-- `{ where: { title: { $startsWith: s } } }`. -/
def titleStartsWith (s : String) : DbQueryOptions where
  whereClause := some (InsertionMap.empty.set (text "title")
    (.filter { startsWith := some (text s) }))

/-- A table with a prefix index on titles and one record. -/
def titledTable (title : String) : DbTable PlainRecord :=
  Run.run DbTable.call (DbTable.init (text "tasks") true)
    [.createPrefixIndex (text "title"),
      .put (text "t1") (oneField "title" (.string (text title))) none]

theorem titleStartsWith_inScope (s : String) : (titleStartsWith s).InScope := by
  refine ⟨rfl, rfl, ?_⟩
  intro clause hclause field v h hmem
  obtain rfl := some_inj.mp hclause
  simp [InsertionMap.set, InsertionMap.empty, setEntries] at hmem

end

end Lumi.Db
