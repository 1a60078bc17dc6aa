import Lumi.Db.Record
import Lumi.Lib.BitFields
import Lumi.Lib.Decimal

/-!
# The sparse index of BroccoliDB

The records of a table are cut into blocks.  Of each block the index keeps, for the columns that it
was asked to index, the least and the greatest value and a Bloom mask, and one mask for the values
of all these columns.  A query skips the blocks that one of its conditions rules out, and scans the
others.
-/

namespace Lumi.Db

open Js

/-- No factor is negative, so the last line of the source changes nothing. -/
def hash64 (str : Text) : ℕ :=
  str.foldl (fun h c => (h ^^^ c.toNat) * 1099511628211) 1125899906842597

structure ColumnBound where
  min : Value
  max : Value
  bloomMask : ℕ
  deriving DecidableEq

structure BroccoliBlockSummary where
  blockIndex : ℕ
  recordCount : ℕ
  startId : Text
  endId : Text
  bounds : InsertionMap Text ColumnBound
  bloomFilterMask : ℕ
  deriving DecidableEq

/-- A value to equal, or an object with comparisons, `undefined` where it has none. -/
inductive FilterValue
  | equals (v : Value) (scalar : v.isScalar = true)
  | compares (gt gte lt lte : Value)

structure BroccoliSparseIndexScanResult where
  totalBlocks : ℕ
  scannedBlocks : ℕ
  prunedBlocks : ℕ
  matchedRecordIds : List Text
  deriving DecidableEq

structure TableBlocks (ρ : Type*) where
  summaries : List BroccoliBlockSummary
  rawRecords : List ρ
  blockSize : ℕ

section

variable {ρ : Type*} [Record ρ] [Host] [ObjectText]

/-- `String(record.id ?? record._id ?? "rec_" + i)`. -/
def recordId (record : ρ) (i : ℕ) : Text :=
  if isNullish (fieldOf record (text "id")) then
    if isNullish (fieldOf record (text "_id")) then text "rec_" ++ decimal i
    else valueText (fieldOf record (text "_id"))
  else valueText (fieldOf record (text "id"))

/-- The bit of a value in a mask. -/
def bloomBit (v : Value) : ℕ := hash64 (valueText v) % 64

/-! ## Building -/

/-- What the loop over a block keeps of one column, with the mask of all columns. -/
structure ColumnScan where
  min : Option Value
  max : Option Value
  colBloom : ℕ
  globalBloomMask : ℕ

def ColumnScan.read (s : ColumnScan) (val : Value) : ColumnScan :=
  if isNullish val then s
  else
    { min := if s.min.all fun min => val.lt min then some val else s.min
      max := if s.max.all fun max => val.gt max then some val else s.max
      colBloom := BloomMask.add s.colBloom (bloomBit val)
      globalBloomMask := BloomMask.add s.globalBloomMask (bloomBit val) }

def scanColumn (chunk : List ρ) (col : Text) (globalBloomMask : ℕ) : ColumnScan :=
  chunk.foldl (fun s item => s.read (fieldOf item col)) ⟨none, none, 0, globalBloomMask⟩

def ColumnScan.bound (s : ColumnScan) : Option ColumnBound :=
  match s.min, s.max with
  | some min, some max => some ⟨min, max, s.colBloom⟩
  | _, _ => none

/-- The bounds and the mask after one more column. -/
def addColumn (chunk : List ρ) (acc : InsertionMap Text ColumnBound × ℕ) (col : Text) :
    InsertionMap Text ColumnBound × ℕ :=
  let s := scanColumn chunk col acc.2
  (match s.bound with
    | some bound => acc.1.set col bound
    | none => acc.1, s.globalBloomMask)

/-- The summary of the block that starts at `i`. -/
def summarize (cols : List Text) (blockSize i : ℕ) (first : ρ) (rest : List ρ) :
    BroccoliBlockSummary :=
  let chunk := first :: rest
  let columns := cols.foldl (addColumn chunk) (.empty, 0)
  { blockIndex := i / blockSize
    recordCount := chunk.length
    startId := recordId first i
    endId := recordId (chunk.getLast (List.cons_ne_nil first rest)) (i + chunk.length - 1)
    bounds := columns.1
    bloomFilterMask := columns.2 }

/-- The loop over the blocks, in so many rounds; without an answer when it needs more. -/
def buildLoop (records : List ρ) (cols : List Text) (blockSize : ℕ) :
    ℕ → ℕ → Option (List BroccoliBlockSummary)
  | 0, i => if i < records.length then none else some []
  | rounds + 1, i =>
    if i < records.length then
      match (records.drop i).take blockSize with
      | [] => buildLoop records cols blockSize rounds (i + blockSize)
      | first :: rest =>
        (buildLoop records cols blockSize rounds (i + blockSize)).map
          (summarize cols blockSize i first rest :: ·)
    else some []

def buildSparseIndex (tableBlocks : InsertionMap Text (TableBlocks ρ)) (tableName : Text)
    (records : List ρ) (indexedColumns : List Text) (blockSize rounds : ℕ) :
    Option (List BroccoliBlockSummary × InsertionMap Text (TableBlocks ρ)) :=
  (buildLoop records indexedColumns blockSize rounds 0).map fun summaries =>
    (summaries, tableBlocks.set tableName ⟨summaries, records, blockSize⟩)

/-! ## Queries -/

/-- Strings, numbers and booleans are looked up in a mask. -/
def isHashed : Value → Bool
  | .string _ | .number _ | .boolean _ => true
  | _ => false

section

variable (block : BroccoliBlockSummary)

def bloomRejects (key : Text) (v : Value) : Bool :=
  match block.bounds.get? key with
  | some bound => BloomMask.misses bound.bloomMask (bloomBit v)
  | none => BloomMask.misses block.bloomFilterMask (bloomBit v)

/-- The check of the bounds. -/
def ColumnBound.rejects (bound : ColumnBound) : FilterValue → Bool
  | .equals v _ => !isNullish v && (v.lt bound.min || v.gt bound.max)
  | .compares gt gte lt lte =>
    (gt ≠ .undefined && bound.max.le gt) || (gte ≠ .undefined && bound.max.lt gte) ||
      (lt ≠ .undefined && bound.min.ge lt) || (lte ≠ .undefined && bound.min.gt lte)

/-- A condition rules a block out. -/
def entryPrunes (key : Text) (filterVal : FilterValue) : Bool :=
  (match filterVal with
    | .equals v _ => isHashed v && bloomRejects block key v
    | .compares .. => false) ||
  (block.bounds.get? key).any fun bound => bound.rejects filterVal

def entryMatches (recVal : Value) : FilterValue → Bool
  | .equals v _ => v = .undefined || strictEq recVal v
  | .compares gt gte lt lte =>
    (gt = .undefined || recVal.gt gt) && (gte = .undefined || recVal.ge gte) &&
      (lt = .undefined || recVal.lt lt) && (lte = .undefined || recVal.le lte)

def matchesPredicate (record : ρ) (filter : InsertionMap Text FilterValue) : Bool :=
  filter.entries.all fun entry => entryMatches (fieldOf record entry.1) entry.2

/-- The ids of the records that match, of a list of records with their positions. -/
def matchedIds (filter : InsertionMap Text FilterValue) (records : List (ρ × ℕ)) : List Text :=
  records.filterMap fun r => if matchesPredicate r.1 filter then some (recordId r.1 r.2) else none

def canPrune (filter : InsertionMap Text FilterValue) : Bool :=
  filter.entries.any fun entry => entryPrunes block entry.1 entry.2

end

/-- The scan of a block's records. -/
def scanBlock (data : TableBlocks ρ) (filter : InsertionMap Text FilterValue)
    (block : BroccoliBlockSummary) : List Text :=
  matchedIds filter
    ((data.rawRecords.zipIdx.drop (block.blockIndex * data.blockSize)).take block.recordCount)

def pruneBlock (data : TableBlocks ρ) (filter : InsertionMap Text FilterValue)
    (result : BroccoliSparseIndexScanResult) (block : BroccoliBlockSummary) :
    BroccoliSparseIndexScanResult :=
  if canPrune block filter then { result with prunedBlocks := result.prunedBlocks + 1 }
  else
    { result with
      scannedBlocks := result.scannedBlocks + 1
      matchedRecordIds := result.matchedRecordIds ++ scanBlock data filter block }

def pruneBlocks (tableBlocks : InsertionMap Text (TableBlocks ρ)) (tableName : Text)
    (filter : InsertionMap Text FilterValue) : BroccoliSparseIndexScanResult :=
  match tableBlocks.get? tableName with
  | none => ⟨0, 0, 0, []⟩
  | some data =>
    data.summaries.foldl (pruneBlock data filter) ⟨data.summaries.length, 0, 0, []⟩

end

end Lumi.Db
