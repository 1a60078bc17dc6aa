import Lumi.Db.SparseIndex

/-!
# What a block's summary knows

A column's own mask has the bit of every value in it, so it never misses a value that a record has.
The mask of all columns knows the indexed ones only.  The least and the greatest value bound the
others where "not less" is transitive: among strings, or among numbers, but not where values of
both kinds are compared.
-/

namespace Lumi.Db

open Js List

section

variable {ρ : Type*} [Record ρ]

/-! ## What a summary knows of a column -/

/-- The values of a column that a block takes up. -/
def presentValues (chunk : List ρ) (col : Text) : List Value :=
  (chunk.map (fieldOf · col)).filter fun v => !isNullish v

variable {chunk : List ρ}

variable {col : Text} {v : Value}

theorem mem_presentValues :
    v ∈ presentValues chunk col ↔
      ∃ item ∈ chunk, fieldOf item col = v ∧ isNullish (fieldOf item col) = false := by
  rw [presentValues, mem_filter, mem_map, Bool.not_eq_true']
  constructor
  · rintro ⟨⟨item, hitem, rfl⟩, hnullish⟩
    exact ⟨item, hitem, rfl, hnullish⟩
  · rintro ⟨item, hitem, rfl, hnullish⟩
    exact ⟨⟨item, hitem, rfl⟩, hnullish⟩

theorem presentValues_concat (chunk : List ρ) (item : ρ) (col : Text) :
    presentValues (chunk ++ [item]) col = presentValues chunk col ++
      if isNullish (fieldOf item col) then [] else [fieldOf item col] := by
  rw [presentValues, map_append, filter_append, ← presentValues]
  cases h : isNullish (fieldOf item col) with
  | true => simp [h]
  | false => simp [h]

variable [Host] [ObjectText]

section

variable (chunk : List ρ)

/-- What the index keeps of a column of a block. -/
def columnBound (col : Text) : Option ColumnBound := (scanColumn chunk col 0).bound

theorem scanColumn_concat (item : ρ) (col : Text) (mask : ℕ) :
    scanColumn (chunk ++ [item]) col mask =
      (scanColumn chunk col mask).read (fieldOf item col) := by
  rw [scanColumn, foldl_concat]
  rfl

theorem ColumnScan.read_of_isNullish (s : ColumnScan) (h : isNullish v = true) :
    s.read v = s := if_pos h

theorem ColumnScan.read_of_present (s : ColumnScan) (h : isNullish v = false) :
    s.read v =
      { min := if s.min.all fun min => v.lt min then some v else s.min
        max := if s.max.all fun max => v.gt max then some v else s.max
        colBloom := BloomMask.add s.colBloom (bloomBit v)
        globalBloomMask := BloomMask.add s.globalBloomMask (bloomBit v) } :=
  if_neg (Bool.eq_false_iff.mp h)

/-- Both masks take up the bits of the values. -/
theorem masks_scanColumn (col : Text) (mask : ℕ) :
    (scanColumn chunk col mask).colBloom =
        ((presentValues chunk col).map bloomBit).foldl BloomMask.add 0 ∧
      (scanColumn chunk col mask).globalBloomMask =
        ((presentValues chunk col).map bloomBit).foldl BloomMask.add mask := by
  induction chunk using List.reverseRecOn with
  | nil => exact ⟨rfl, rfl⟩
  | append_singleton chunk item ih =>
    rw [scanColumn_concat, presentValues_concat]
    cases h : isNullish (fieldOf item col) with
    | true =>
      rw [ColumnScan.read_of_isNullish _ h, if_pos rfl, append_nil]
      exact ih
    | false =>
      rw [ColumnScan.read_of_present _ h, if_neg Bool.false_ne_true, map_append,
        foldl_append, foldl_append, ← ih.1, ← ih.2]
      exact ⟨rfl, rfl⟩

/-- The mask of all columns plays no part in the bounds of one. -/
theorem bounds_scanColumn (col : Text) (mask : ℕ) :
    (scanColumn chunk col mask).min = (scanColumn chunk col 0).min ∧
      (scanColumn chunk col mask).max = (scanColumn chunk col 0).max := by
  induction chunk using List.reverseRecOn with
  | nil => exact ⟨rfl, rfl⟩
  | append_singleton chunk item ih =>
    rw [scanColumn_concat, scanColumn_concat]
    cases h : isNullish (fieldOf item col) with
    | true =>
      rw [ColumnScan.read_of_isNullish _ h, ColumnScan.read_of_isNullish _ h]
      exact ih
    | false =>
      rw [ColumnScan.read_of_present _ h, ColumnScan.read_of_present _ h, ih.1, ih.2]
      exact ⟨rfl, rfl⟩

theorem bound_scanColumn (col : Text) (mask : ℕ) :
    (scanColumn chunk col mask).bound = columnBound chunk col := by
  obtain ⟨hmin, hmax⟩ := bounds_scanColumn chunk col mask
  rw [columnBound, ColumnScan.bound, ColumnScan.bound, hmin, hmax,
    (masks_scanColumn chunk col mask).1, (masks_scanColumn chunk col 0).1]

end

/-- A column with a value has bounds. -/
theorem isSome_scanColumn {mask : ℕ} (h : presentValues chunk col ≠ []) :
    (scanColumn chunk col mask).min.isSome ∧ (scanColumn chunk col mask).max.isSome := by
  have hkeep : ∀ (kept : Option Value) (p : Value → Bool) (v : Value),
      (if kept.all p then some v else kept).isSome := by
    intro kept p v
    cases kept with
    | none => rfl
    | some old =>
      split_ifs
      · rfl
      · rfl
  induction chunk using List.reverseRecOn with
  | nil => exact absurd rfl h
  | append_singleton chunk item ih =>
    rw [presentValues_concat] at h
    rw [scanColumn_concat]
    cases hnullish : isNullish (fieldOf item col) with
    | true =>
      rw [hnullish, if_pos rfl, append_nil] at h
      rw [ColumnScan.read_of_isNullish _ hnullish]
      exact ih h
    | false =>
      rw [ColumnScan.read_of_present _ hnullish]
      exact ⟨hkeep _ _ _, hkeep _ _ _⟩

theorem columnBound_ne_none (h : v ∈ presentValues chunk col) : columnBound chunk col ≠ none := by
  have hsome : (scanColumn chunk col 0).min.isSome ∧ (scanColumn chunk col 0).max.isSome :=
    isSome_scanColumn (ne_nil_of_mem h)
  obtain ⟨min, hmin⟩ := Option.isSome_iff_exists.mp hsome.1
  obtain ⟨max, hmax⟩ := Option.isSome_iff_exists.mp hsome.2
  rw [columnBound, ColumnScan.bound, hmin, hmax]
  exact Option.some_ne_none _

theorem bloomMask_columnBound {bound : ColumnBound} (h : columnBound chunk col = some bound) :
    bound.bloomMask = ((presentValues chunk col).map bloomBit).foldl BloomMask.add 0 := by
  rw [← (masks_scanColumn chunk col 0).1]
  rw [columnBound, ColumnScan.bound] at h
  split at h
  · exact (Option.some.inj h) ▸ rfl
  · cases h

theorem get?_addColumn (chunk : List ρ) (acc : InsertionMap Text ColumnBound × ℕ) (col key : Text) :
    (addColumn chunk acc col).1.get? key =
      if key = col then (columnBound chunk key).or (acc.1.get? key) else acc.1.get? key := by
  rw [addColumn, bound_scanColumn]
  dsimp only
  split
  · next bound hbound =>
    rw [InsertionMap.get?_set]
    split_ifs with hkey
    · rw [hkey, hbound]
      rfl
    · rfl
  · next hbound =>
    split_ifs with hkey
    · rw [hkey, hbound]
      rfl
    · rfl

theorem get?_columns (chunk : List ρ) (cols : List Text) (key : Text)
    (acc : InsertionMap Text ColumnBound × ℕ) :
    (cols.foldl (addColumn chunk) acc).1.get? key =
      if key ∈ cols then (columnBound chunk key).or (acc.1.get? key) else acc.1.get? key := by
  induction cols generalizing acc with
  | nil => rfl
  | cons col rest ih =>
    rw [foldl_cons, ih, get?_addColumn]
    by_cases hkey : key = col
    · cases hbound : columnBound chunk key with
      | none => simp [hkey]
      | some bound => simp [hkey]
    · simp [hkey]

theorem bloomFilterMask_columns (chunk : List ρ) (cols : List Text)
    (acc : InsertionMap Text ColumnBound × ℕ) :
    (cols.foldl (addColumn chunk) acc).2 =
      ((cols.flatMap (presentValues chunk)).map bloomBit).foldl BloomMask.add acc.2 := by
  induction cols generalizing acc with
  | nil => rfl
  | cons col rest ih =>
    rw [foldl_cons, ih, addColumn, (masks_scanColumn chunk col acc.2).2,
      flatMap_cons, map_append, foldl_append]

/-! ## When a condition rules a block out -/

/-- An indexed column of the block has a value with the bit of this one. -/
def KnownTo (cols : List Text) (chunk : List ρ) (v : Value) : Prop :=
  ∃ col ∈ cols, ∃ item ∈ chunk, isNullish (fieldOf item col) = false ∧
    bloomBit (fieldOf item col) = bloomBit v

/-- A block is let through by a condition on an indexed column if its bounds let it through, and by
a condition on another column if what it asks for is known to the mask of all columns. -/
def LetsThrough (cols : List Text) (chunk : List ρ) (key : Text) (filterVal : FilterValue) : Prop :=
  (key ∈ cols → ∀ bound ∈ columnBound chunk key, bound.rejects filterVal = false) ∧
    (key ∉ cols → ∀ v scalar, filterVal = .equals v scalar → isHashed v = true →
      KnownTo cols chunk v)

section

variable {cols : List Text} {blockSize i : ℕ} {first : ρ} {rest : List ρ} {key : Text}

theorem get?_bounds_summarize :
    (summarize cols blockSize i first rest).bounds.get? key =
      if key ∈ cols then columnBound (first :: rest) key else none := by
  have hcolumns := get?_columns (first :: rest) cols key (.empty, 0)
  rw [InsertionMap.get?_empty, Option.or_none] at hcolumns
  exact hcolumns

theorem misses_summarize_iff {v : Value} :
    BloomMask.misses (summarize cols blockSize i first rest).bloomFilterMask (bloomBit v) = false ↔
      KnownTo cols (first :: rest) v := by
  have hmask := bloomFilterMask_columns (first :: rest) cols (.empty, 0)
  have hmisses : BloomMask.misses (summarize cols blockSize i first rest).bloomFilterMask
      (bloomBit v) = true ↔
        bloomBit v ∉ (cols.flatMap (presentValues (first :: rest))).map bloomBit := by
    rw [summarize, hmask, BloomMask.misses_foldl_add]
    exact and_iff_right (BloomMask.misses_zero _)
  rw [← Bool.not_eq_true, hmisses, not_not, mem_map]
  constructor
  · rintro ⟨u, hu, hbit⟩
    obtain ⟨col, hcol, hu⟩ := mem_flatMap.mp hu
    obtain ⟨item, hitem, rfl, hnullish⟩ := mem_presentValues.mp hu
    exact ⟨col, hcol, item, hitem, hnullish, hbit⟩
  · rintro ⟨col, hcol, item, hitem, hnullish, hbit⟩
    refine ⟨_, mem_flatMap.mpr ⟨col, hcol, ?_⟩, hbit⟩
    exact mem_presentValues.mpr ⟨item, hitem, rfl, hnullish⟩

/-- **The mask of a column misses no value that a record of the block has.** -/
theorem bloomRejects_indexed (hkey : key ∈ cols) {record : ρ} (hrecord : record ∈ first :: rest)
    {v : Value} (hv : isHashed v = true) (heq : strictEq (fieldOf record key) v = true) :
    bloomRejects (summarize cols blockSize i first rest) key v = false := by
  obtain ⟨rfl, -⟩ := strictEq_iff.mp heq
  have hnullish : isNullish (fieldOf record key) = false := by
    cases hfield : fieldOf record key <;> simp_all [isHashed, isNullish]
  have hpresent : fieldOf record key ∈ presentValues (first :: rest) key :=
    mem_presentValues.mpr ⟨record, hrecord, rfl, hnullish⟩
  rw [bloomRejects, get?_bounds_summarize, if_pos hkey]
  cases hbound : columnBound (first :: rest) key with
  | none => exact absurd hbound (columnBound_ne_none hpresent)
  | some bound =>
    dsimp only
    rw [← Bool.not_eq_true, bloomMask_columnBound hbound, BloomMask.misses_foldl_add]
    exact fun h => h.2 (mem_map_of_mem hpresent)

/-- Where a record of the block meets a condition, the condition rules the block out unless it lets
it through. -/
theorem entryPrunes_eq_false_iff {record : ρ} (hrecord : record ∈ first :: rest)
    {filterVal : FilterValue} (hmatch : entryMatches (fieldOf record key) filterVal = true) :
    entryPrunes (summarize cols blockSize i first rest) key filterVal = false ↔
      LetsThrough cols (first :: rest) key filterVal := by
  have hbounds : ((summarize cols blockSize i first rest).bounds.get? key).any
      (fun bound => bound.rejects filterVal) = false ↔
        (key ∈ cols → ∀ bound ∈ columnBound (first :: rest) key,
          bound.rejects filterVal = false) := by
    rw [get?_bounds_summarize]
    split_ifs with hkey
    · cases columnBound (first :: rest) key with
      | none => simp
      | some bound => simp [hkey]
    · simp [hkey]
  cases filterVal with
  | compares gt gte lt lte =>
    have hprunes : entryPrunes (summarize cols blockSize i first rest) key
        (.compares gt gte lt lte) =
          ((summarize cols blockSize i first rest).bounds.get? key).any
            (fun bound => bound.rejects (.compares gt gte lt lte)) := Bool.false_or _
    rw [hprunes, hbounds, LetsThrough]
    exact (and_iff_left fun _ v scalar heq => nomatch heq).symm
  | equals v scalar =>
    have hprunes : entryPrunes (summarize cols blockSize i first rest) key (.equals v scalar) =
        (isHashed v && bloomRejects (summarize cols blockSize i first rest) key v ||
          ((summarize cols blockSize i first rest).bounds.get? key).any
            (fun bound => bound.rejects (.equals v scalar))) := rfl
    have hbloom : (isHashed v && bloomRejects (summarize cols blockSize i first rest) key v)
        = false ↔ (key ∉ cols → ∀ u scalar', FilterValue.equals v scalar = .equals u scalar' →
          isHashed u = true → KnownTo cols (first :: rest) u) := by
      have hown : (∀ u scalar', FilterValue.equals v scalar = .equals u scalar' →
          isHashed u = true → KnownTo cols (first :: rest) u) ↔
            (isHashed v = true → KnownTo cols (first :: rest) v) := by
        constructor
        · exact fun h => h v scalar rfl
        · intro h u scalar' heq
          rwa [← (FilterValue.equals.injEq ..).mp heq]
      rw [hown, Bool.and_eq_false_imp]
      by_cases hkey : key ∈ cols
      · refine ⟨fun _ hnot => absurd hkey hnot, fun _ hhashed => ?_⟩
        refine bloomRejects_indexed hkey hrecord hhashed ?_
        have hne : decide (v = .undefined) = false := by
          cases v <;> simp_all [isHashed]
        rwa [entryMatches, hne, Bool.false_or] at hmatch
      · rw [bloomRejects, get?_bounds_summarize, if_neg hkey]
        dsimp only
        rw [misses_summarize_iff]
        exact ⟨fun h _ => h, fun h => h hkey⟩
    rw [hprunes, Bool.or_eq_false_iff, hbounds, hbloom, LetsThrough, and_comm]

end

end

end Lumi.Db
