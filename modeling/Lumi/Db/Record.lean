import Lumi.Lib.InsertionMap
import Lumi.Lib.JsValue

/-!
# Records

A table is generic in its record type.  What it asks of a record is what
ECMAScript lets it ask of any object: the fields, and the JSON text.  Nothing in
this development looks behind these four operations.

Computed columns are functions on records that a table consults for the fields a
record does not have.  A function that throws has no value.
-/

namespace Lumi.Db

open Js

/-- `T extends Record<string, unknown>`. -/
class Record (ρ : Type*) where
  /-- `record[field]`, where `field in record`. -/
  field? : ρ → Text → Option Value
  /-- `record[field] = value`, on a copy. -/
  setField : ρ → Text → Value → ρ
  /-- `Object.keys(record)`. -/
  keys : ρ → List Text
  /-- `JSON.stringify(record)`. -/
  stringify : ρ → Text

/-- Flat records: the fields in their order. -/
abbrev PlainRecord := InsertionMap Text Value

instance : Inhabited PlainRecord := ⟨.empty⟩

instance [Host] : Record PlainRecord where
  field? record field := record.get? field
  setField record field value := record.set field value
  keys record := record.keys
  stringify record :=
    let shown := record.entries.filter fun e => e.2 ≠ .undefined
    text "\x7b" ++
      joinWith (text ",") (shown.map fun e =>
        Host.stringify (.string e.1) ++ text ":" ++ Host.stringify e.2) ++
      text "\x7d"

abbrev ComputedColumns (ρ : Type*) := InsertionMap Text (ρ → Option Value)

inductive TableChangeOperation
  | insert
  | update
  | delete
  | clear
  | expire
  deriving DecidableEq

/-- `old` and `new` of one field. -/
structure FieldChange where
  old : Value
  new : Value
  deriving DecidableEq

structure TableChangeEvent (ρ : Type*) where
  operation : TableChangeOperation
  table : Text
  recordId : Text
  before : Option ρ
  after : Option ρ
  diff : Option (List (Text × FieldChange))
  deriving DecidableEq

inductive WalOperationType
  | insert
  | update
  | delete
  | clear
  | checkpoint
  | rollback
  | branchMerge
  deriving DecidableEq

/-- The arguments of one call of the WAL hook. -/
structure WalCall (ρ : Type*) where
  op : WalOperationType
  table : Text
  recordId : Text
  payload : Option ρ
  deriving DecidableEq

variable {ρ : Type*} [Record ρ]

/-- `record[field]`. -/
def fieldOf (record : ρ) (field : Text) : Value := (Record.field? record field).getD .undefined

def resolveFieldValue (computedColumns : ComputedColumns ρ) (record : ρ) (field : Text) : Value :=
  match Record.field? record field with
  | some value => value
  | none =>
    match computedColumns.get? field with
    | some computedFn => (computedFn record).getD .undefined
    | none => .undefined

def cloneRecordWithComputed (computedColumns : ComputedColumns ρ) (record : ρ) : ρ :=
  computedColumns.entries.foldl
    (fun clone column =>
      match column.2 record with
      | some value => Record.setField clone column.1 value
      | none => clone)
    record

/-- The fields in which two versions of a record differ. -/
def diffFields (before after : ρ) : List (Text × FieldChange) :=
  (Record.keys before ++ Record.keys after).eraseDups.filterMap fun k =>
    let old := (Record.field? before k).getD .undefined
    let new := (Record.field? after k).getD .undefined
    if strictEq old new then none else some (k, ⟨old, new⟩)

end Lumi.Db
