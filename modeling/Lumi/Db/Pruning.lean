import Lumi.Db.BlockSummaries

/-!
# What pruning loses

A block is skipped rightly if none of its records match.  The blocks cover the records one after
the other, so a query finds what a scan of all records finds if and only if no block is skipped in
which a record matches.
-/

namespace Lumi.Db

open Js List

section

variable {ρ : Type*} [Record ρ] [Host] [ObjectText]

/-! ## The scan -/

theorem matchedIds_append (filter : InsertionMap Text FilterValue) (xs ys : List (ρ × ℕ)) :
    matchedIds filter (xs ++ ys) = matchedIds filter xs ++ matchedIds filter ys :=
  filterMap_append

variable {filter : InsertionMap Text FilterValue}

theorem matchedIds_eq_nil_iff {xs : List (ρ × ℕ)} :
    matchedIds filter xs = [] ↔
      ∀ record ∈ xs.map Prod.fst, matchesPredicate record filter = false := by
  rw [matchedIds, filterMap_eq_nil_iff]
  simp

/-- The block that starts at `i`, with the positions of its records. -/
def blockAt (records : List ρ) (blockSize i : ℕ) : List (ρ × ℕ) :=
  (records.zipIdx.drop i).take blockSize

omit [Record ρ] [Host] [ObjectText] in
theorem fst_blockAt (records : List ρ) (blockSize i : ℕ) :
    (blockAt records blockSize i).map Prod.fst = (records.drop i).take blockSize := by
  rw [blockAt, map_take, map_drop, zipIdx_map_fst]

variable {cols : List Text}

/-- The scan of a block goes through its records. -/
theorem scanBlock_summarize {data : TableBlocks ρ} {k : ℕ} {first : ρ} {rest : List ρ}
    (hpos : 0 < data.blockSize)
    (hchunk : (data.rawRecords.drop (k * data.blockSize)).take data.blockSize = first :: rest) :
    scanBlock data filter (summarize cols data.blockSize (k * data.blockSize) first rest) =
      matchedIds filter (blockAt data.rawRecords data.blockSize (k * data.blockSize)) := by
  have hlength := congrArg List.length hchunk
  rw [length_take, length_drop] at hlength
  have hstart : k * data.blockSize / data.blockSize = k := Nat.mul_div_cancel k hpos
  show matchedIds filter ((data.rawRecords.zipIdx.drop
    (k * data.blockSize / data.blockSize * data.blockSize)).take (first :: rest).length) = _
  rw [hstart, blockAt, ← hlength]
  congr 1
  rw [take_eq_take_iff, length_drop, length_zipIdx]
  omega

theorem foldl_pruneBlock (data : TableBlocks ρ) (filter : InsertionMap Text FilterValue)
    (summaries : List BroccoliBlockSummary) (result : BroccoliSparseIndexScanResult) :
    (summaries.foldl (pruneBlock data filter) result).totalBlocks = result.totalBlocks ∧
      (summaries.foldl (pruneBlock data filter) result).scannedBlocks +
          (summaries.foldl (pruneBlock data filter) result).prunedBlocks =
        result.scannedBlocks + result.prunedBlocks + summaries.length ∧
      (summaries.foldl (pruneBlock data filter) result).matchedRecordIds =
        result.matchedRecordIds ++ summaries.flatMap fun block =>
          if canPrune block filter then [] else scanBlock data filter block := by
  induction summaries generalizing result with
  | nil => exact ⟨rfl, rfl, (append_nil _).symm⟩
  | cons block rest ih =>
    obtain ⟨htotal, hcount, hids⟩ := ih (pruneBlock data filter result block)
    rw [foldl_cons, flatMap_cons, length_cons, htotal, hcount, hids, pruneBlock]
    cases canPrune block filter with
    | true =>
      refine ⟨rfl, ?_, rfl⟩
      simp only [if_true]
      omega
    | false =>
      refine ⟨rfl, ?_, append_assoc _ _ _⟩
      simp only [Bool.false_eq_true, if_false]
      omega

omit [Host] [ObjectText] in
/-- What is left out of a list of lists is nothing if and only if it was empty. -/
theorem flatMap_left_out_iff {α β : Type*} {f : α → List β} {p : α → Bool} {xs : List α} :
    (xs.flatMap fun x => if p x then [] else f x) = xs.flatMap f ↔
      ∀ x ∈ xs, p x = true → f x = [] := by
  have hle : ∀ xs : List α,
      (xs.flatMap fun x => if p x then [] else f x).length ≤ (xs.flatMap f).length := by
    intro xs
    induction xs with
    | nil => exact le_refl _
    | cons x rest ih =>
      rw [flatMap_cons, flatMap_cons, length_append, length_append]
      split_ifs
      · rw [length_nil]
        omega
      · omega
  induction xs with
  | nil => simp
  | cons x rest ih =>
    rw [flatMap_cons, flatMap_cons, forall_mem_cons]
    refine Iff.trans ?_ (and_congr_right fun _ => ih)
    cases hp : p x with
    | true =>
      simp only [if_true, nil_append, true_imp_iff]
      constructor
      · intro heq
        have hlength := congrArg List.length heq
        have hrest := hle rest
        rw [length_append] at hlength
        have hnil : f x = [] := length_eq_zero_iff.mp (by omega)
        rw [hnil, nil_append] at heq
        exact ⟨hnil, heq⟩
      · rintro ⟨hnil, heq⟩
        rw [hnil, nil_append, heq]
    | false =>
      simp only [Bool.false_eq_true, if_false, append_cancel_left_eq, false_imp_iff,
        true_and]

/-! ## The blocks -/

/-- Every condition lets through the block in which a record matches. -/
def LetsMatchesThrough (cols : List Text) (chunk : List ρ)
    (filter : InsertionMap Text FilterValue) : Prop :=
  ∀ record ∈ chunk, matchesPredicate record filter = true →
    ∀ entry ∈ filter.entries, LetsThrough cols chunk entry.1 entry.2

/-- A block is skipped only if nothing in it matches, if and only if every condition lets its
matches through. -/
theorem canPrune_summarize_iff {blockSize i : ℕ} {first : ρ} {rest : List ρ} :
    (canPrune (summarize cols blockSize i first rest) filter = true →
      ∀ record ∈ first :: rest, matchesPredicate record filter = false) ↔
        LetsMatchesThrough cols (first :: rest) filter := by
  constructor
  · intro h record hrecord hmatch entry hentry
    have hthrough : entryPrunes (summarize cols blockSize i first rest) entry.1 entry.2 = false ↔
        LetsThrough cols (first :: rest) entry.1 entry.2 :=
      entryPrunes_eq_false_iff hrecord (all_eq_true.mp hmatch entry hentry)
    refine hthrough.mp ((Bool.not_eq_true _).mp fun hprunes => ?_)
    have hcan : canPrune (summarize cols blockSize i first rest) filter = true :=
      any_eq_true.mpr ⟨entry, hentry, hprunes⟩
    rw [h hcan record hrecord] at hmatch
    cases hmatch
  · intro h hcan record hrecord
    rw [← Bool.not_eq_true]
    intro hmatch
    obtain ⟨entry, hentry, hprunes⟩ := any_eq_true.mp hcan
    have hthrough : entryPrunes (summarize cols blockSize i first rest) entry.1 entry.2 = false :=
      (entryPrunes_eq_false_iff hrecord (all_eq_true.mp hmatch entry hentry)).mpr
        (h record hrecord hmatch entry hentry)
    rw [hthrough] at hprunes
    cases hprunes

/-- The summaries are those of the blocks from the `k`-th on: they hold the records from there on,
and are skipped rightly if and only if every condition lets their matches through. -/
structure Covers (data : TableBlocks ρ) (filter : InsertionMap Text FilterValue) (cols : List Text)
    (k : ℕ) (summaries : List BroccoliBlockSummary) : Prop where
  ids : summaries.flatMap (scanBlock data filter) =
    matchedIds filter (data.rawRecords.zipIdx.drop (k * data.blockSize))
  skips : (∀ block ∈ summaries, canPrune block filter = true → scanBlock data filter block = []) ↔
    ∀ later ≥ k, LetsMatchesThrough cols
      ((data.rawRecords.drop (later * data.blockSize)).take data.blockSize) filter

section

variable {data : TableBlocks ρ} {filter : InsertionMap Text FilterValue} {cols : List Text} {k : ℕ}

/-- Behind the last record there are no blocks. -/
theorem covers_nil (hle : data.rawRecords.length ≤ k * data.blockSize) :
    Covers data filter cols k [] where
  ids := by
    rw [drop_eq_nil_of_le (by rw [length_zipIdx]; exact hle)]
    rfl
  skips := by
    refine ⟨fun _ later hlater => ?_, fun _ block hblock => absurd hblock not_mem_nil⟩
    rw [drop_eq_nil_of_le (hle.trans (Nat.mul_le_mul_right _ hlater)), take_nil]
    exact fun record hrecord => absurd hrecord not_mem_nil

theorem Covers.cons (hpos : 0 < data.blockSize) {summaries : List BroccoliBlockSummary}
    (h : Covers data filter cols (k + 1) summaries) {first : ρ} {rest : List ρ}
    (hchunk : (data.rawRecords.drop (k * data.blockSize)).take data.blockSize = first :: rest) :
    Covers data filter cols k
      (summarize cols data.blockSize (k * data.blockSize) first rest :: summaries) where
  ids := by
    rw [flatMap_cons, scanBlock_summarize hpos hchunk, h.ids, ← matchedIds_append, blockAt,
      Nat.succ_mul, ← drop_drop, take_append_drop]
  skips := by
    have hscan :
        scanBlock data filter (summarize cols data.blockSize (k * data.blockSize) first rest) = [] ↔
          ∀ record ∈ first :: rest, matchesPredicate record filter = false := by
      rw [scanBlock_summarize hpos hchunk, matchedIds_eq_nil_iff, fst_blockAt, hchunk]
    rw [forall_mem_cons, h.skips, hscan, canPrune_summarize_iff, ← hchunk]
    constructor
    · rintro ⟨hfirst, hrest⟩ later hlater
      rcases Nat.eq_or_lt_of_le hlater with rfl | hlt
      · exact hfirst
      · exact hrest later hlt
    · intro hall
      exact ⟨hall k (le_refl k), fun later hlater => hall later (Nat.le_of_succ_le hlater)⟩

/-- **Run lemma.** -/
theorem covers_buildLoop (hpos : 0 < data.blockSize) (rounds : ℕ)
    {summaries : List BroccoliBlockSummary}
    (h : buildLoop data.rawRecords cols data.blockSize rounds (k * data.blockSize) =
      some summaries) : Covers data filter cols k summaries := by
  induction rounds generalizing k summaries with
  | zero =>
    rw [buildLoop] at h
    split_ifs at h with hlt
    exact Option.some.inj h ▸ covers_nil (Nat.not_lt.mp hlt)
  | succ rounds ih =>
    rw [buildLoop] at h
    split_ifs at h with hlt
    · rw [← Nat.succ_mul] at h
      match hchunk : (data.rawRecords.drop (k * data.blockSize)).take data.blockSize with
      | [] =>
        have hlength := congrArg List.length hchunk
        rw [length_take, length_drop, length_nil] at hlength
        omega
      | first :: rest =>
        rw [hchunk] at h
        obtain ⟨others, hothers, rfl⟩ := Option.map_eq_some_iff.mp h
        exact (ih hothers).cons hpos hchunk
    · exact Option.some.inj h ▸ covers_nil (Nat.not_lt.mp hlt)

/-- As many rounds as there are records are enough. -/
theorem isSome_buildLoop (records : List ρ) (cols : List Text) {blockSize : ℕ}
    (hpos : 0 < blockSize) (rounds : ℕ) {i : ℕ} (hle : records.length ≤ i + rounds) :
    (buildLoop records cols blockSize rounds i).isSome := by
  induction rounds generalizing i with
  | zero =>
    rw [buildLoop, if_neg (by omega)]
    rfl
  | succ rounds ih =>
    have hnext := ih (i := i + blockSize) (by omega)
    rw [buildLoop]
    split_ifs
    · split
      · exact hnext
      · rw [Option.isSome_map]
        exact hnext
    · rfl

/-- Blocks of no size never come to an end. -/
theorem buildLoop_zero (records : List ρ) (cols : List Text) (hne : records ≠ []) (rounds : ℕ) :
    buildLoop records cols 0 rounds 0 = none := by
  have hlt : 0 < records.length := length_pos_iff.mpr hne
  induction rounds with
  | zero => rw [buildLoop, if_pos hlt]
  | succ rounds ih =>
    rw [buildLoop, if_pos hlt]
    exact ih

end

/-! ## The answer of a query -/

/-- A query after the index was built. -/
theorem pruneBlocks_built (tableBlocks : InsertionMap Text (TableBlocks ρ)) (tableName : Text)
    (filter : InsertionMap Text FilterValue) (data : TableBlocks ρ) :
    (pruneBlocks (tableBlocks.set tableName data) tableName filter).matchedRecordIds =
        (data.summaries.flatMap fun block =>
          if canPrune block filter then [] else scanBlock data filter block) ∧
      (pruneBlocks (tableBlocks.set tableName data) tableName filter).scannedBlocks +
          (pruneBlocks (tableBlocks.set tableName data) tableName filter).prunedBlocks =
        (pruneBlocks (tableBlocks.set tableName data) tableName filter).totalBlocks := by
  rw [pruneBlocks, InsertionMap.get?_set_self]
  dsimp only
  obtain ⟨htotal, hcount, hids⟩ := foldl_pruneBlock data filter data.summaries
    ⟨data.summaries.length, 0, 0, []⟩
  refine ⟨hids, ?_⟩
  rw [hcount, htotal]
  show 0 + 0 + data.summaries.length = data.summaries.length
  omega

/-- The index is built, and a query then answers with the ids of a scan of all records, and counts
every block once. -/
def LosesNothing (tableBlocks : InsertionMap Text (TableBlocks ρ)) (tableName : Text)
    (records : List ρ) (indexedColumns : List Text) (blockSize : ℕ)
    (filter : InsertionMap Text FilterValue) : Prop :=
  ∃ rounds summaries tableBlocks', buildSparseIndex tableBlocks tableName records indexedColumns
      blockSize rounds = some (summaries, tableBlocks') ∧
    (pruneBlocks tableBlocks' tableName filter).matchedRecordIds =
      matchedIds filter records.zipIdx ∧
    (pruneBlocks tableBlocks' tableName filter).scannedBlocks +
        (pruneBlocks tableBlocks' tableName filter).prunedBlocks =
      (pruneBlocks tableBlocks' tableName filter).totalBlocks

/-- Where the loop answers, and its blocks cover the records. -/
theorem losesNothing_iff_of_covers {tableBlocks : InsertionMap Text (TableBlocks ρ)}
    {tableName : Text} {records : List ρ} {blockSize : ℕ}
    (hbuilt : ∃ rounds, (buildLoop records cols blockSize rounds 0).isSome)
    (hcovers : ∀ rounds summaries, buildLoop records cols blockSize rounds 0 = some summaries →
      Covers ⟨summaries, records, blockSize⟩ filter cols 0 summaries) :
    LosesNothing tableBlocks tableName records cols blockSize filter ↔
      ∀ k, LetsMatchesThrough cols ((records.drop (k * blockSize)).take blockSize) filter := by
  -- the ids that a query answers with are all of them if and only if nothing is left out
  have hids : ∀ rounds summaries, buildLoop records cols blockSize rounds 0 = some summaries →
      ((pruneBlocks (tableBlocks.set tableName ⟨summaries, records, blockSize⟩) tableName
        filter).matchedRecordIds = matchedIds filter records.zipIdx ↔
        ∀ k, LetsMatchesThrough cols ((records.drop (k * blockSize)).take blockSize) filter) := by
    intro rounds summaries hloop
    have hcover := hcovers rounds summaries hloop
    have hall := hcover.ids
    rw [Nat.zero_mul, drop_zero] at hall
    rw [(pruneBlocks_built tableBlocks tableName filter _).1, ← hall, flatMap_left_out_iff,
      hcover.skips]
    exact ⟨fun h k => h k (Nat.zero_le k), fun h k _ => h k⟩
  constructor
  · rintro ⟨rounds, summaries, tableBlocks', hbuild, hmatched, -⟩
    obtain ⟨summaries', hloop, heq⟩ := Option.map_eq_some_iff.mp hbuild
    obtain ⟨rfl, rfl⟩ := Prod.mk.inj heq
    exact (hids rounds summaries' hloop).mp hmatched
  · intro hlets
    obtain ⟨rounds, hsome⟩ := hbuilt
    obtain ⟨summaries, hloop⟩ := Option.isSome_iff_exists.mp hsome
    refine ⟨rounds, summaries, tableBlocks.set tableName ⟨summaries, records, blockSize⟩, ?_,
      (hids rounds summaries hloop).mpr hlets, (pruneBlocks_built _ _ _ _).2⟩
    rw [buildSparseIndex, hloop]
    rfl

theorem losesNothing_iff_of_pos {tableBlocks : InsertionMap Text (TableBlocks ρ)} {tableName : Text}
    {records : List ρ} {blockSize : ℕ} (hpos : 0 < blockSize) :
    LosesNothing tableBlocks tableName records cols blockSize filter ↔
      ∀ k, LetsMatchesThrough cols ((records.drop (k * blockSize)).take blockSize) filter := by
  refine losesNothing_iff_of_covers ⟨records.length, ?_⟩ fun rounds summaries hloop => ?_
  · exact isSome_buildLoop records cols hpos records.length (by omega)
  · exact covers_buildLoop (k := 0) hpos rounds (by rw [Nat.zero_mul]; exact hloop)

end

section

open scoped Js.Ascii

/-- A task with an id and a note. -/
def notedTask : PlainRecord :=
  (InsertionMap.empty.set (text "id") (.string (text "a"))).set (text "note") (.string (text "x"))

def notesThatAre (note : String) : InsertionMap Text FilterValue :=
  InsertionMap.empty.set (text "note") (.equals (.string (text note)) rfl)

end

end Lumi.Db
