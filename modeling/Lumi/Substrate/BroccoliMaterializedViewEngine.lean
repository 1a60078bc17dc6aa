import Lumi.Lib.InsertionMap
import Lumi.Lib.JsArithmetic
import Lumi.Lib.Ledger
import Lumi.Lib.Run

/-!
# BroccoliMaterializedViewEngine

A view keeps for each group of the rows of a table how many there are, their sum, and the least and
the greatest value that the group was given.  A row that goes away is taken from the number and from
the sum, but the least and the greatest value stay.
-/

namespace Lumi.Substrate

open Js

/-- Reading the properties of a record. -/
class RecordFields (ρ : Type*) where
  /-- `record[field]` -/
  get : ρ → Text → Value

instance : RecordFields (InsertionMap Text Value) where
  get record field := (record.get? field).getD .undefined

inductive AggregateFunc
  | count | sum | avg | min | max
  deriving DecidableEq

structure MaterializedViewDefinition (ρ : Type*) where
  viewName : Text
  sourceTable : Text
  groupByField : Option Text
  aggregateField : Option Text
  aggregateFunc : Option AggregateFunc
  filterPredicate : Option (ρ → Bool)

structure InternalViewGroup where
  groupKey : Text
  sum : Number
  count : ℤ
  min : Number
  max : Number
  lastUpdatedAt : ℕ
  deriving DecidableEq

structure MaterializedViewRow where
  groupKey : Text
  aggregateValue : Number
  rowCount : ℤ
  lastUpdatedAt : ℕ
  deriving DecidableEq

inductive MutationOperation
  | insert | update | delete
  deriving DecidableEq

abbrev GroupMap := InsertionMap Text InternalViewGroup

/-- The clock when the row before a mutation is subtracted from a view, and when the row after it is
added. -/
structure ViewClock where
  subtracted : ℕ
  added : ℕ

variable {ρ : Type*}

namespace MaterializedViewDefinition

variable [Host] [ObjectText] [RecordFields ρ] (d : MaterializedViewDefinition ρ)

/-- `field ? … : …`: an empty name counts as none. -/
def truthy (field : Option Text) : Option Text := field.filter (· ≠ [])

def passesFilter (record : ρ) : Bool := d.filterPredicate.all (· record)

def groupKey (record : ρ) : Text :=
  match truthy d.groupByField with
  | none => text "global"
  | some field =>
    let v := RecordFields.get record field
    if isNullish v then text "default" else valueText v

def aggVal (record : ρ) : Number :=
  match truthy d.aggregateField with
  | none => .finite 1
  | some field =>
    let v := RecordFields.get record field
    if isNullish v then .finite 0 else v.toPrimitive.toNumber

/-- 1. Subtract 'before' record if applicable -/
def subtract (groupMap : GroupMap) (before : ρ) (now : ℕ) : GroupMap :=
  if d.passesFilter before then
    match groupMap.get? (d.groupKey before) with
    | none => groupMap
    | some group =>
      let group := { group with
        count := group.count - 1
        sum := group.sum.sub (d.aggVal before)
        lastUpdatedAt := now }
      if group.count ≤ 0 then groupMap.delete (d.groupKey before)
      else groupMap.set (d.groupKey before) group
  else groupMap

/-- 2. Add 'after' record if applicable -/
def add (groupMap : GroupMap) (after : ρ) (now : ℕ) : GroupMap :=
  if d.passesFilter after then
    let groupKey := d.groupKey after
    let aggVal := d.aggVal after
    let group := (groupMap.get? groupKey).getD ⟨groupKey, .finite 0, 0, .posInfinity, .negInfinity, now⟩
    groupMap.set groupKey { group with
      count := group.count + 1
      sum := group.sum.add aggVal
      min := if aggVal.lt group.min then aggVal else group.min
      max := if group.max.lt aggVal then aggVal else group.max
      lastUpdatedAt := now }
  else groupMap

/-- What a mutation of its source does to a view. -/
def maintain (operation : MutationOperation) (before after : Option ρ) (clock : ViewClock)
    (groupMap : GroupMap) : GroupMap :=
  let groupMap :=
    match before with
    | some before =>
      if operation = .delete ∨ operation = .update then d.subtract groupMap before clock.subtracted
      else groupMap
    | none => groupMap
  match after with
  | some after =>
    if operation = .insert ∨ operation = .update then d.add groupMap after clock.added
    else groupMap
  | none => groupMap

end MaterializedViewDefinition

structure BroccoliMaterializedViewEngine (ρ : Type*) where
  definitions : InsertionMap Text (MaterializedViewDefinition ρ)
  viewStore : InsertionMap Text GroupMap

namespace BroccoliMaterializedViewEngine

def new : BroccoliMaterializedViewEngine ρ := ⟨InsertionMap.empty, InsertionMap.empty⟩

section

variable (s : BroccoliMaterializedViewEngine ρ)

def createView (d : MaterializedViewDefinition ρ) :
    BroccoliMaterializedViewEngine ρ where
  definitions := s.definitions.set d.viewName d
  viewStore :=
    if (s.viewStore.get? d.viewName).isNone then s.viewStore.set d.viewName InsertionMap.empty
    else s.viewStore

def dropView (viewName : Text) : Bool × BroccoliMaterializedViewEngine ρ :=
  ((s.definitions.get? viewName).isSome || (s.viewStore.get? viewName).isSome,
    ⟨s.definitions.delete viewName, s.viewStore.delete viewName⟩)

/-- One pass of the loop over the definitions. -/
def maintainView [Host] [ObjectText] [RecordFields ρ] (sourceTable : Text)
    (operation : MutationOperation) (before after : Option ρ) (clock : Text → ViewClock)
    (viewStore : InsertionMap Text GroupMap) (e : Text × MaterializedViewDefinition ρ) :
    InsertionMap Text GroupMap :=
  if e.2.sourceTable ≠ sourceTable then viewStore
  else
    match viewStore.get? e.1 with
    | none => viewStore
    | some groupMap =>
      viewStore.set e.1 (e.2.maintain operation before after (clock e.1) groupMap)

def applyMutation [Host] [ObjectText] [RecordFields ρ]
    (sourceTable : Text) (operation : MutationOperation) (before after : Option ρ)
    (clock : Text → ViewClock) : BroccoliMaterializedViewEngine ρ :=
  { s with viewStore :=
      s.definitions.entries.foldl (maintainView sourceTable operation before after clock) s.viewStore }

def aggregateValue (func : AggregateFunc) (group : InternalViewGroup) : Number :=
  match func with
  | .count => .finite group.count
  | .sum => group.sum
  | .avg => if 0 < group.count then group.sum.divBy group.count else .finite 0
  | .min => if 0 < group.count then group.min else .finite 0
  | .max => if 0 < group.count then group.max else .finite 0

def getViewData (viewName : Text) : List MaterializedViewRow :=
  match s.definitions.get? viewName, s.viewStore.get? viewName with
  | some d, some groupMap =>
    groupMap.values.map fun group =>
      ⟨group.groupKey, aggregateValue (d.aggregateFunc.getD .count) group, group.count,
        group.lastUpdatedAt⟩
  | _, _ => []

end

end BroccoliMaterializedViewEngine

end Lumi.Substrate
