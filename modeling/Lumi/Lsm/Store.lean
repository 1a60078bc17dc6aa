import Mathlib.Data.List.Sort
import Lumi.Lib.BinarySearch
import Lumi.Lib.InsertionMap
import Lumi.Lib.JsValue

/-!
# The log-structured store

`BroccoliLsmStore` collects writes in a memory table and turns it, when it is full or
on demand, into an immutable table sorted by key; a compaction merges the tables of
one level into a table of the next.  A deletion is a tombstone.  A point read asks the
memory table and then the tables from the newest on, past those whose Bloom filter or
key range excludes the key; a scan merges everything.

The tables are sorted and searched by `localeCompare`, while the key ranges, the
scans and their bounds compare strings by code units.  What the collation answers, and
whether the entries can be written as JSON, is left to the `Runtime`.  Table ids come
from a counter, as `randomUUID` gives none twice; the clock is left out.
-/

namespace Lumi.Lsm

open Js

/-- What is stored for a key; an undefined value is `none`. -/
structure Slot (υ : Type*) where
  value : Option υ
  isTombstone : Bool
  deriving DecidableEq, Repr

structure Entry (υ : Type*) where
  key : Text
  slot : Slot υ
  deriving DecidableEq, Repr

/-- `BroccoliSsTableMeta`, without `createdAt`. -/
structure SsTableMeta where
  tableId : ℕ
  level : ℕ
  recordCount : ℕ
  minKey : Text
  maxKey : Text
  bloomFilterMask : ℕ
  sizeBytes : ℕ
  deriving DecidableEq, Repr

/-- `SsTableData`. -/
structure SsTable (υ : Type*) where
  metadata : SsTableMeta
  entries : List (Entry υ)
  sequence : ℕ
  deriving DecidableEq, Repr

/-- `BroccoliLsmCompactionStats`, without the duration. -/
structure CompactionStats where
  compactedTablesCount : ℕ
  inputRecordsCount : ℕ
  outputRecordsCount : ℕ
  purgedTombstonesCount : ℕ
  deriving DecidableEq, Repr

inductive LsmError
  | typeError (message : Text)
  | rangeError (message : Text)
  /-- What `JSON.stringify` throws. -/
  | stringify
  deriving DecidableEq, Repr

/-- The collation, a total preorder of the strings, and the length of the entries as JSON,
where `JSON.stringify` does not throw. -/
structure Runtime (υ : Type*) where
  localeCompare : Text → Text → Ordering
  collates : Std.TransCmp localeCompare
  jsonLength : List (Entry υ) → Option ℕ

structure LsmStore (υ : Type*) where
  maxMemTableSize : ℕ
  memTable : InsertionMap Text (Slot υ)
  /-- From the newest to the oldest. -/
  ssTables : List (SsTable υ)
  nextSequence : ℕ
  nextTableId : ℕ

variable {υ : Type*} (rt : Runtime υ)

/-- `Number.MAX_SAFE_INTEGER`. -/
def maxSafeInteger : ℤ := 9007199254740991

def hash64 (str : Text) : ℕ :=
  str.foldl (fun h c => (h ^^^ c.toNat) * 1099511628211) 1125899906842597

def bloomBit (key : Text) : ℕ := 1 <<< (hash64 key % 64)

section

variable (entries : List (Entry υ))

def bloomFilterMask : ℕ :=
  entries.foldl (fun mask e => mask ||| bloomBit e.key) 0

/-- `entries.sort((a, b) => a.key.localeCompare(b.key))`. -/
def sortEntries : List (Entry υ) :=
  entries.insertionSort fun a b => (rt.localeCompare a.key b.key).isLE = true

def binarySearch (key : Text) : Option (Entry υ) :=
  BinarySearch.search (fun e => rt.localeCompare e.key key) entries

end

namespace SsTable

/-- The key lies between the smallest and the largest key of the table, by code units. -/
def InRange (t : SsTable υ) (key : Text) : Prop := t.metadata.minKey ≤ key ∧ key ≤ t.metadata.maxKey

instance (t : SsTable υ) (key : Text) : Decidable (t.InRange key) :=
  inferInstanceAs (Decidable (t.metadata.minKey ≤ key ∧ key ≤ t.metadata.maxKey))

/-- What the table answers to a point read. -/
def lookup (t : SsTable υ) (key : Text) : Option (Entry υ) :=
  if t.metadata.bloomFilterMask &&& bloomBit key = 0 then none
  else if key < t.metadata.minKey ∨ t.metadata.maxKey < key then none
  else binarySearch rt t.entries key

/-- A table of sorted entries, with what the reads use to pass it over. -/
def ofSorted (entries : List (Entry υ)) (level tableId sizeBytes sequence : ℕ) : SsTable υ :=
  { metadata :=
      { tableId, level
        recordCount := entries.length
        minKey := (entries.head?.map (·.key)).getD []
        maxKey := (entries.getLast?.map (·.key)).getD []
        bloomFilterMask := bloomFilterMask entries
        sizeBytes }
    entries, sequence }

end SsTable

def tablesContainKey (tables : List (SsTable υ)) (key : Text) : Bool :=
  tables.any fun table => decide (table.InRange key) && (binarySearch rt table.entries key).isSome

/-- From the highest sequence number to the lowest. -/
def sortTables (tables : List (SsTable υ)) : List (SsTable υ) :=
  tables.insertionSort fun a b => b.sequence ≤ a.sequence

namespace LsmStore

/-- A new store; the constructor accepts the positive safe integers. -/
def new (maxMemTableSize : ℕ) : LsmStore υ := ⟨maxMemTableSize, .empty, [], 1, 0⟩

section

variable (s : LsmStore υ)

/-- `flushMemTable`, with the meta data of the table it made.  It runs to its end when it is
called, or throws. -/
def flushMemTable : Except LsmError (Option SsTableMeta × LsmStore υ) :=
  if s.memTable.size = 0 then .ok (none, s)
  else
    let sortedEntries := sortEntries rt (s.memTable.entries.map fun (k, v) => ⟨k, v⟩)
    match rt.jsonLength sortedEntries with
    | none => .error .stringify
    | some sizeBytes =>
      let table := SsTable.ofSorted sortedEntries 0 s.nextTableId sizeBytes s.nextSequence
      .ok (some table.metadata,
        { s with
          memTable := .empty
          ssTables := table :: s.ssTables
          nextSequence := s.nextSequence + 1
          nextTableId := s.nextTableId + 1 })

/-- The entry of a key in the memory table, and a flush if the table is full then.  Nobody
waits for the flush, and nobody hears of it if it throws. -/
def write (key : Text) (slot : Slot υ) : LsmStore υ :=
  let s := { s with memTable := s.memTable.set key slot }
  if s.memTable.size ≥ s.maxMemTableSize then
    match s.flushMemTable rt with
    | .ok (_, s) => s
    | .error _ => s
  else s

def put (key : Text) (value : Option υ) : Except LsmError (LsmStore υ) :=
  if key.length = 0 then .error (.typeError (text "key must be non-empty"))
  else .ok (s.write rt key ⟨value, false⟩)

def get (s : LsmStore υ) (key : Text) : Except LsmError (Option υ) :=
  if key.length = 0 then .error (.typeError (text "key must be non-empty"))
  else
    match s.memTable.get? key with
    | some inMem => .ok (if inMem.isTombstone then none else inMem.value)
    | none =>
      match s.ssTables.findSome? (·.lookup rt key) with
      | some entry => .ok (if entry.slot.isTombstone then none else entry.slot.value)
      | none => .ok none

def delete (key : Text) : Except LsmError (Bool × LsmStore υ) :=
  match s.get rt key with
  | .error e => .error e
  | .ok none => .ok (false, s)
  | .ok (some _) => .ok (true, s.write rt key ⟨none, true⟩)

/-- Everything the store holds, the newer over the older. -/
def merged (s : LsmStore υ) : InsertionMap Text (Slot υ) :=
  let tables := s.ssTables.reverse.foldl
    (fun merged table => table.entries.foldl (fun merged e => merged.set e.key e.slot) merged)
    .empty
  s.memTable.entries.foldl (fun merged e => merged.set e.1 e.2) tables

/-- The loop over the sorted keys, with the results so far. -/
def collect (merged : InsertionMap Text (Slot υ)) (startKey endKey : Option Text) (limit : ℕ)
    (results : List (Text × Option υ)) : List Text → List (Text × Option υ)
  | [] => results
  | k :: rest =>
    -- an empty bound is no bound
    if startKey.any (fun startKey => startKey ≠ [] ∧ k < startKey) then
      collect merged startKey endKey limit results rest
    else if endKey.any (fun endKey => endKey ≠ [] ∧ endKey < k) then
      collect merged startKey endKey limit results rest
    else
      match merged.get? k with
      | some ⟨value, false⟩ =>
        let results := results ++ [(k, value)]
        if results.length ≥ limit then results
        else collect merged startKey endKey limit results rest
      | _ => collect merged startKey endKey limit results rest

/-- `scan`; the limit is 100 where the caller gives none. -/
def scan (startKey endKey : Option Text) (limit : ℤ) : Except LsmError (List (Text × Option υ)) :=
  if ¬ (limit ≤ maxSafeInteger ∧ 0 ≤ limit) then
    .error (.rangeError (text "limit must be a non-negative integer"))
  else if limit = 0 then .ok []
  else if startKey.any fun startKey => endKey.any fun endKey => endKey < startKey then
    .error (.rangeError (text "startKey cannot be greater than endKey"))
  else
    let sortedKeys := s.merged.keys.insertionSort (· ≤ ·)
    .ok (collect s.merged startKey endKey limit.toNat [] sortedKeys)

/-- The entries of the tables, the first table that has a key giving its entry. -/
def mergeNewest (candidateTables : List (SsTable υ)) : InsertionMap Text (Slot υ) :=
  candidateTables.foldl
    (fun merged table => table.entries.foldl
      (fun merged e => if (merged.get? e.key).isSome then merged else merged.set e.key e.slot)
      merged)
    .empty

/-- A tombstone is dropped if no table that stays has its key. -/
def compactedEntries (remaining : List (SsTable υ)) (merged : InsertionMap Text (Slot υ)) :
    List (Entry υ) :=
  merged.entries.filterMap fun (k, v) =>
    if v.isTombstone ∧ ¬ tablesContainKey rt remaining k then none else some ⟨k, v⟩

/-- `compact`, which runs to its end when it is called, or throws; the level is 0 where the
caller gives none. -/
def compact (level : ℤ) : Except LsmError (CompactionStats × LsmStore υ) :=
  if ¬ (level ≤ maxSafeInteger ∧ 0 ≤ level) then
    .error (.rangeError (text "level must be a non-negative integer"))
  else
    let candidateTables := sortTables (s.ssTables.filter fun t => (t.metadata.level : ℤ) = level)
    if candidateTables.length < 2 then .ok (⟨0, 0, 0, 0⟩, s)
    else
      let merged := mergeNewest candidateTables
      let candidateIds := candidateTables.map (·.metadata.tableId)
      let remaining := s.ssTables.filter fun t => t.metadata.tableId ∉ candidateIds
      let kept := sortEntries rt (compactedEntries rt remaining merged)
      let stats : CompactionStats :=
        { compactedTablesCount := candidateTables.length
          inputRecordsCount := (candidateTables.flatMap (·.entries)).length
          outputRecordsCount := kept.length
          purgedTombstonesCount := merged.size - kept.length }
      if kept.length > 0 then
        match rt.jsonLength kept with
        | none => .error .stringify
        | some sizeBytes =>
          let table := SsTable.ofSorted kept (level.toNat + 1) s.nextTableId sizeBytes
            ((candidateTables.map (·.sequence)).max?.getD 0)
          .ok (stats,
            { s with
              ssTables := sortTables (remaining ++ [table])
              nextTableId := s.nextTableId + 1 })
      else .ok (stats, { s with ssTables := sortTables remaining })

end

end LsmStore

/-- The calls that change a store. -/
inductive Op (υ : Type*)
  | put (key : Text) (value : Option υ)
  | delete (key : Text)
  | flushMemTable
  | compact (level : ℤ)

/-- A call that throws leaves the store as it is. -/
def LsmStore.step (s : LsmStore υ) : Op υ → LsmStore υ
  | .put key value => match s.put rt key value with
      | .ok s => s
      | .error _ => s
  | .delete key => match s.delete rt key with
      | .ok (_, s) => s
      | .error _ => s
  | .flushMemTable => match s.flushMemTable rt with
      | .ok (_, s) => s
      | .error _ => s
  | .compact level => match s.compact rt level with
      | .ok (_, s) => s
      | .error _ => s

end Lumi.Lsm
