import Lumi.Db.Table

/-!
# Queries

`query` takes its candidates from the plan `planQuery` picks, filters them by the
four clauses, sorts them and cuts out the page.  The planner asks the composite
indices first, then the equality, sorted and prefix indices; without one that
fits it scans the table.

Candidates are kept together with their ids, which the source forgets.  A filter
whose fields are `undefined` asks for nothing, as in the source.
-/

namespace Lumi.Db

open Js

/-- `DbFieldFilter`.  A string given as `$regex` stands for the expression it
compiles to. -/
structure DbFieldFilter where
  eq : Value := .undefined
  ne : Value := .undefined
  gt : Value := .undefined
  gte : Value := .undefined
  lt : Value := .undefined
  lte : Value := .undefined
  between : Option (Value × Value) := none
  /-- `$in` -/
  inValues : Option (List Value) := none
  /-- `$nin` -/
  ninValues : Option (List Value) := none
  startsWith : Option Text := none
  endsWith : Option Text := none
  contains : Option Text := none
  regex : Option (Text → Bool) := none
  /-- `$exists` -/
  isPresent : Option Bool := none

/-- `DbWhereValue`: a value to equal, a regular expression, or a filter. -/
inductive DbWhereValue
  | scalar (v : Value) (h : v.isScalar = true)
  | regExp (test : Text → Bool)
  | filter (f : DbFieldFilter)

/-- The entries of a clause, in the order of `Object.entries`. -/
abbrev WhereClause := InsertionMap Text DbWhereValue

inductive SortOrder
  | asc
  | desc
  deriving DecidableEq

/-- `DbQueryOptions`; a single field or order is a list of one. -/
structure DbQueryOptions where
  whereClause : Option WhereClause := none
  and : List WhereClause := []
  or : List WhereClause := []
  not : Option WhereClause := none
  limit : Option ℕ := none
  offset : Option ℕ := none
  sortBy : Option (List Text) := none
  sortOrder : List SortOrder := [.asc]

inductive IndexType
  | equality
  | sorted
  | composite
  | prefixes
  deriving DecidableEq

inductive ScanStrategy
  | indexLookup
  | indexRangeScan
  | prefixScan
  | fullTableScan
  deriving DecidableEq

structure QueryPlan (ρ : Type*) where
  candidates : List (Text × ρ)
  indexName : Option Text
  indexType : Option IndexType
  scanStrategy : ScanStrategy
  deriving DecidableEq

/-- `a ?? b`. -/
def nullish (a b : Value) : Value := if a = .undefined ∨ a = .null then b else a

namespace DbFieldFilter

/-- The filter has a bound a sorted index can use. -/
def hasRange (f : DbFieldFilter) : Bool :=
  f.gt ≠ .undefined || f.gte ≠ .undefined || f.lt ≠ .undefined || f.lte ≠ .undefined ||
    f.between.isSome

def min (f : DbFieldFilter) : Value :=
  match f.between with
  | some (min, _) => min
  | none => nullish f.gte f.gt

def max (f : DbFieldFilter) : Value :=
  match f.between with
  | some (_, max) => max
  | none => nullish f.lte f.lt

def includeMin (f : DbFieldFilter) : Bool := f.gte ≠ .undefined || f.between.isSome

def includeMax (f : DbFieldFilter) : Bool := f.lte ≠ .undefined || f.between.isSome

end DbFieldFilter

/-- `v` is a string that passes the test. -/
def testText (v : Value) (test : Text → Bool) : Bool :=
  match v with
  | .string s => test s
  | _ => false

variable [Host]

section

variable (actualVal : Value)

/-- The bounds a filter gives, each of which rejects a missing value. -/
def evaluateBounds (f : DbFieldFilter) : Bool :=
  let missing : Bool := actualVal = .undefined || actualVal = .null
  (f.gt = .undefined || !(missing || actualVal.le f.gt)) &&
  (f.gte = .undefined || !(missing || actualVal.lt f.gte)) &&
  (f.lt = .undefined || !(missing || actualVal.ge f.lt)) &&
  (f.lte = .undefined || !(missing || actualVal.gt f.lte)) &&
  f.between.all fun (min, max) => !(missing || actualVal.lt min || actualVal.gt max)

/-- The operators on texts, which compare without regard to case. -/
def evaluateTexts (f : DbFieldFilter) : Bool :=
  (f.startsWith.all fun p => testText actualVal fun s =>
    Js.startsWith (toLowerCase s) (toLowerCase p)) &&
  (f.endsWith.all fun p => testText actualVal fun s =>
    Js.endsWith (toLowerCase s) (toLowerCase p)) &&
  (f.contains.all fun p => testText actualVal fun s =>
    Js.includes (toLowerCase s) (toLowerCase p)) &&
  f.regex.all fun test => testText actualVal test

def evaluateFilter (f : DbFieldFilter) : Bool :=
  (f.eq = .undefined || strictEq actualVal f.eq) &&
  (f.ne = .undefined || !strictEq actualVal f.ne) &&
  (f.isPresent.all fun present => decide (actualVal ≠ .undefined) == present) &&
  evaluateBounds actualVal f &&
  (f.inValues.all fun vs => vs.contains actualVal) &&
  (f.ninValues.all fun vs => !vs.contains actualVal) &&
  evaluateTexts actualVal f

def evaluateField : DbWhereValue → Bool
  | .scalar expected _ => strictEq actualVal expected
  | .regExp test => testText actualVal test
  | .filter f => evaluateFilter actualVal f

end

variable {ρ : Type*} [Record ρ]

namespace DbTable

section

variable (t : DbTable ρ)

def evaluateWhere (record : ρ) (clause : WhereClause) : Bool :=
  clause.entries.all fun e => evaluateField (t.resolve record e.1) e.2

/-- The records of the listed ids that are still live. -/
def liveRecords (ids : List Text) : List (Text × ρ) :=
  ids.filterMap fun id => (t.records.get? id).map (id, ·)

section

variable (clause : WhereClause)

/-- The fields of a composite index that the clause gives a value for. -/
def scalarFields (fields : List Text) : InsertionMap Text Value :=
  fields.foldl
    (fun keyObj f =>
      match clause.get? f with
      | some (.scalar v _) => keyObj.set f v
      | _ => keyObj)
    .empty

/-! ## The planner -/

/-- The first composite index whose fields the clause gives values for. -/
def usableComposite : Option (Text × CompositeIndex × InsertionMap Text Value) :=
  t.indices.composite.entries.findSome? fun (compName, compIndex) =>
    let keyObj := scalarFields clause compIndex.fields
    if compIndex.fields.all (fun f => (clause.get? f).isSome) &&
        keyObj.size = compIndex.fields.length then
      some (compName, compIndex, keyObj)
    else none

def planComposite : Option (QueryPlan ρ) :=
  (t.usableComposite clause).map fun (compName, compIndex, keyObj) =>
    let compositeKey := buildCompositeKey compIndex.fields fun f => (keyObj.get? f).getD .undefined
    ⟨t.liveRecords (compIndex.map.lookup compositeKey), some compName, some .composite,
      .indexLookup⟩

/-- The first field of the clause with a value and an equality index. -/
def usableEquality : Option (Text × InvertedIndex Value Text × Value) :=
  clause.entries.findSome? fun (field, expected) =>
    match t.indices.equality.get? field, expected with
    | some index, .scalar v _ => some (field, index, v)
    | _, _ => none

def planEquality : Option (QueryPlan ρ) :=
  (t.usableEquality clause).map fun (field, index, v) =>
    ⟨t.liveRecords (index.lookup v), some field, some .equality, .indexLookup⟩

/-- The first field of the clause with a range and a sorted index. -/
def usableSorted : Option (Text × List SortedEntry × DbFieldFilter) :=
  clause.entries.findSome? fun (field, expected) =>
    match t.indices.sorted.get? field, expected with
    | some list, .filter f => if f.hasRange then some (field, list, f) else none
    | _, _ => none

def planSorted : Option (QueryPlan ρ) :=
  (t.usableSorted clause).map fun (field, list, f) =>
    let ids := scanSortedIndexRange list f.min f.max f.includeMin f.includeMax
    ⟨t.liveRecords ids.keys, some field, some .sorted, .indexRangeScan⟩

/-- The first field of the clause with a prefix to start with and a prefix index. -/
def usablePrefix : Option (Text × InvertedIndex Text Text × Text) :=
  clause.entries.findSome? fun (field, expected) =>
    match t.indices.prefixes.get? field, expected with
    | some index, .filter f =>
      match f.startsWith with
      | some p => if p = [] then none else some (field, index, p)
      | none => none
    | _, _ => none

def planPrefix : Option (QueryPlan ρ) :=
  (t.usablePrefix clause).map fun (field, index, p) =>
    ⟨t.liveRecords (index.lookup ((toLowerCase p).take 20)), some field, some .prefixes,
      .prefixScan⟩

end

def fullTableScan (t : DbTable ρ) : QueryPlan ρ := ⟨t.records.entries, none, none, .fullTableScan⟩

section

variable (options : DbQueryOptions)

def planQuery : QueryPlan ρ :=
  match options.whereClause with
  | none => t.fullTableScan
  | some clause =>
    (((t.planComposite clause).or (t.planEquality clause)).or
      ((t.planSorted clause).or (t.planPrefix clause))).getD t.fullTableScan

/-! ## The result -/

/-- The four clauses of a query. -/
def satisfies (record : ρ) : Bool :=
  (options.whereClause.all fun clause => t.evaluateWhere record clause) &&
  (options.and.all fun clause => t.evaluateWhere record clause) &&
  (options.or.isEmpty || options.or.any fun clause => t.evaluateWhere record clause) &&
  options.not.all fun clause => !t.evaluateWhere record clause

/-- The comparison of `sort`: one field after the other, missing values last. -/
def compareRecords (resolve : ρ → Text → Value) (sortOrders : List SortOrder) (a b : ρ) :
    List (Text × ℕ) → ℤ
  | [] => 0
  | (field, i) :: rest =>
    let order : ℤ := if (sortOrders[i]?.or sortOrders[0]?) = some .desc then -1 else 1
    let valA := resolve a field
    let valB := resolve b field
    if strictEq valA valB then compareRecords resolve sortOrders a b rest
    else if valA = .undefined || valA = .null then 1
    else if valB = .undefined || valB = .null then -1
    else if valA.gt valB then order
    else -order

def sortCandidates (candidates : List (Text × ρ)) : List (Text × ρ) :=
  match options.sortBy with
  | none => candidates
  | some sortFields =>
    candidates.mergeSort fun a b =>
      compareRecords t.resolve options.sortOrder a.2 b.2 sortFields.zipIdx ≤ 0

/-- The records a query selects, with their ids. -/
def queryEntries : List (Text × ρ) :=
  let candidates := (t.planQuery options).candidates.filter fun e => t.satisfies options e.2
  let candidates := t.sortCandidates options candidates
  let offset := options.offset.getD 0
  let limit := options.limit.getD candidates.length
  (candidates.drop offset).take limit

def query : List ρ :=
  (t.queryEntries options).map fun e => cloneRecordWithComputed t.computedColumns e.2

end

end

/-! ## Candidates are live -/

variable {t : DbTable ρ}

variable {e : Text × ρ}

omit [Host] [Record ρ] in
theorem mem_liveRecords {ids : List Text} :
    e ∈ t.liveRecords ids ↔ e.1 ∈ ids ∧ t.records.get? e.1 = some e.2 := by
  obtain ⟨id, record⟩ := e
  simp only [liveRecords, List.mem_filterMap, Option.map_eq_some_iff, Prod.mk.injEq]
  constructor
  · rintro ⟨id, hid, record, hrecord, rfl, rfl⟩
    exact ⟨hid, hrecord⟩
  · rintro ⟨hid, hrecord⟩
    exact ⟨id, hid, record, hrecord, rfl, rfl⟩

variable {options : DbQueryOptions}

omit [Record ρ] in
/-- Whatever the plan, its candidates are records of the table. -/
theorem live_of_mem_planQuery (h : e ∈ (t.planQuery options).candidates) :
    t.records.get? e.1 = some e.2 := by
  have hindexed : ∀ {plan : QueryPlan ρ} {clause : WhereClause},
      ((t.planComposite clause).or (t.planEquality clause)).or
        ((t.planSorted clause).or (t.planPrefix clause)) = some plan →
      ∃ ids, plan.candidates = t.liveRecords ids := by
    intro plan clause hplan
    simp only [Option.or_eq_some_iff, planComposite, planEquality, planSorted, planPrefix,
      Option.map_eq_some_iff] at hplan
    rcases hplan with (⟨_, -, rfl⟩ | ⟨-, _, -, rfl⟩) | ⟨-, ⟨_, -, rfl⟩ | ⟨-, _, -, rfl⟩⟩ <;>
      exact ⟨_, rfl⟩
  unfold planQuery at h
  cases hclause : options.whereClause with
  | none =>
    rw [hclause] at h
    exact InsertionMap.mem_entries_iff.mp h
  | some clause =>
    simp only [hclause] at h
    cases hplan : ((t.planComposite clause).or (t.planEquality clause)).or
        ((t.planSorted clause).or (t.planPrefix clause)) with
    | none =>
      rw [hplan] at h
      exact InsertionMap.mem_entries_iff.mp h
    | some plan =>
      rw [hplan] at h
      obtain ⟨ids, hids⟩ := hindexed hplan
      rw [Option.getD_some, hids] at h
      exact (mem_liveRecords.mp h).2

/-- Sorting rearranges. -/
theorem mem_sortCandidates {candidates : List (Text × ρ)} :
    e ∈ t.sortCandidates options candidates ↔ e ∈ candidates := by
  unfold sortCandidates
  cases options.sortBy with
  | none => exact Iff.rfl
  | some sortFields => exact (List.mergeSort_perm _ _).mem_iff

/-- Without a page, a query selects the candidates that satisfy its clauses. -/
theorem mem_queryEntries (hlimit : options.limit = none) (hoffset : options.offset = none) :
    e ∈ t.queryEntries options ↔
      e ∈ (t.planQuery options).candidates ∧ t.satisfies options e.2 = true := by
  unfold queryEntries
  simp only [hlimit, hoffset, Option.getD_none, List.drop_zero, List.take_length,
    mem_sortCandidates, List.mem_filter]

end DbTable

end Lumi.Db
