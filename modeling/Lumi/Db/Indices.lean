import Lumi.Db.Record
import Lumi.Lib.InvertedIndex

/-!
# The indices of a table

Sorted indices, and all four kinds as they are maintained together.
-/

namespace Lumi.Db

open Js List

/-! ## Sorted indices

A sorted index is a list of entries, each with a value and the ids that carry it,
kept in order by binary search.  Numbers and strings are compared by the
relational operators of the language, which do not order the two kinds together,
so nothing here assumes that a list is sorted: inserting never loses an id, and
removing takes an id from at most one entry, wherever the search ends.
-/

structure SortedEntry where
  value : Primitive
  ids : InsertionSet Text
  deriving DecidableEq

def normalizeSortableValue : Value → Option Primitive
  | .number n => if n = .nan then none else some (.number n)
  | .string s => some (.string s)
  | .date _ time => some (.number time)
  | _ => none

variable [Host]

/-- Where the search for a value ends. -/
inductive SearchResult
  | found (index : ℕ)
  | missing (low : ℕ)
  deriving DecidableEq

/-- Binary search between `low` and `high`; `high` is the first position above the
range, so that it does not fall below zero. -/
def searchEntry (list : List SortedEntry) (value : Primitive) : ℕ → ℕ → ℕ → SearchResult
  | 0, low, _ => .missing low
  | fuel + 1, low, high =>
    if low < high then
      let mid := (low + high - 1) / 2
      match list[mid]? with
      | some entry =>
        if entry.value.strictEq value then .found mid
        else if entry.value.lt value then searchEntry list value fuel (mid + 1) high
        else searchEntry list value fuel low mid
      | none => .missing low
    else .missing low

section

variable (list : List SortedEntry)

/-- The search over the whole list: each round shortens the range. -/
def search (value : Primitive) : SearchResult :=
  searchEntry list value list.length 0 list.length

def insertSortedIndexEntry (value : Primitive) (id : Text) : List SortedEntry :=
  match search list value with
  | .found index => list.modify index fun entry => { entry with ids := entry.ids.add id }
  | .missing low => list.insertIdx low ⟨value, InsertionSet.add InsertionMap.empty id⟩

def removeSortedIndexEntry (value : Primitive) (id : Text) : List SortedEntry :=
  match search list value with
  | .found index =>
    match list[index]? with
    | some entry =>
      if (entry.ids.delete id).size = 0 then list.eraseIdx index
      else list.set index { entry with ids := entry.ids.delete id }
    | none => list
  | .missing _ => list

/-- The entry lies below the range and is skipped. -/
def belowRange (min : Option Primitive) (includeMin : Bool) (entry : SortedEntry) : Bool :=
  match min with
  | some normMin => if includeMin then entry.value.lt normMin else entry.value.le normMin
  | none => false

/-- The entry lies beyond the range and ends the scan. -/
def beyondRange (max : Option Primitive) (includeMax : Bool) (entry : SortedEntry) : Bool :=
  match max with
  | some normMax => if includeMax then entry.value.gt normMax else entry.value.ge normMax
  | none => false

/-- The entries the scan collects, up to the first one beyond the range. -/
def scanEntries (below beyond : SortedEntry → Bool) : List SortedEntry → List SortedEntry
  | [] => []
  | entry :: rest =>
    if below entry then scanEntries below beyond rest
    else if beyond entry then []
    else entry :: scanEntries below beyond rest

def scanSortedIndexRange (min max : Value) (includeMin includeMax : Bool) : InsertionSet Text :=
  (scanEntries (belowRange (normalizeSortableValue min) includeMin)
    (beyondRange (normalizeSortableValue max) includeMax) list).foldl
    (fun ids entry => entry.ids.keys.foldl InsertionSet.add ids) InsertionMap.empty

end

/-! ### Where the search ends -/

variable {list : List SortedEntry}

theorem searchEntry_found {value : Primitive} {fuel low high i : ℕ}
    (h : searchEntry list value fuel low high = .found i) :
    ∃ entry, list[i]? = some entry ∧ entry.value = value := by
  induction fuel generalizing low high with
  | zero => simp [searchEntry] at h
  | succ fuel ih =>
    unfold searchEntry at h
    by_cases hrange : low < high
    · simp only [if_pos hrange] at h
      cases hmid : list[(low + high - 1) / 2]? with
      | none => simp [hmid] at h
      | some entry =>
        simp only [hmid] at h
        by_cases heq : entry.value.strictEq value
        · simp only [if_pos heq, SearchResult.found.injEq] at h
          subst h
          refine ⟨entry, hmid, ?_⟩
          simp only [Primitive.strictEq, Bool.and_eq_true, decide_eq_true_eq] at heq
          exact heq.1
        · simp only [if_neg heq] at h
          by_cases hlt : entry.value.lt value
          · rw [if_pos hlt] at h
            exact ih h
          · rw [if_neg hlt] at h
            exact ih h
    · simp [if_neg hrange] at h

theorem searchEntry_missing {value : Primitive} {fuel low high i : ℕ} (hlow : low ≤ list.length)
    (h : searchEntry list value fuel low high = .missing i) : i ≤ list.length := by
  induction fuel generalizing low high with
  | zero =>
    simp only [searchEntry, SearchResult.missing.injEq] at h
    omega
  | succ fuel ih =>
    unfold searchEntry at h
    by_cases hrange : low < high
    · simp only [if_pos hrange] at h
      cases hmid : list[(low + high - 1) / 2]? with
      | none =>
        simp only [hmid, SearchResult.missing.injEq] at h
        omega
      | some entry =>
        have hlt := (List.getElem?_eq_some_iff.mp hmid).1
        simp only [hmid] at h
        by_cases heq : entry.value.strictEq value
        · simp [if_pos heq] at h
        · simp only [if_neg heq] at h
          by_cases hlt' : entry.value.lt value
          · rw [if_pos hlt'] at h
            exact ih (by omega) h
          · rw [if_neg hlt'] at h
            exact ih hlow h
    · simp only [if_neg hrange, SearchResult.missing.injEq] at h
      omega

/-! ### What a sorted index lists -/

/-- Some entry with this value lists the id. -/
def SortedLists (list : List SortedEntry) (value : Primitive) (id : Text) : Prop :=
  ∃ entry ∈ list, entry.value = value ∧ id ∈ entry.ids.keys

theorem sortedLists_insert_self (list : List SortedEntry) (value : Primitive) (id : Text) :
    SortedLists (insertSortedIndexEntry list value id) value id := by
  unfold insertSortedIndexEntry
  cases hsearch : search list value with
  | found i =>
    obtain ⟨entry, hi, hvalue⟩ := searchEntry_found hsearch
    refine ⟨{ entry with ids := entry.ids.add id }, ?_, hvalue, by simp⟩
    apply mem_of_getElem? (i := i)
    simp [getElem?_modify_eq, hi]
  | missing low =>
    have hlow : low ≤ list.length := searchEntry_missing (Nat.zero_le _) hsearch
    refine ⟨⟨value, InsertionSet.add InsertionMap.empty id⟩, ?_, rfl, by simp⟩
    simp [mem_insertIdx hlow]

theorem SortedLists.insert {value' : Primitive} {id' : Text} (h : SortedLists list value' id')
    (value : Primitive) (id : Text) :
    SortedLists (insertSortedIndexEntry list value id) value' id' := by
  obtain ⟨entry, hmem, hvalue, hid⟩ := h
  unfold insertSortedIndexEntry
  cases hsearch : search list value with
  | found i =>
    obtain ⟨j, hj⟩ := mem_iff_getElem?.mp hmem
    refine ⟨if i = j then { entry with ids := entry.ids.add id } else entry, ?_, ?_, ?_⟩
    · apply mem_of_getElem? (i := j)
      rw [getElem?_modify, hj]
      by_cases hij : i = j <;> simp [hij]
    · by_cases hij : i = j <;> simp [hij, hvalue]
    · by_cases hij : i = j <;> simp [hij, hid]
  | missing low =>
    have hlow : low ≤ list.length := searchEntry_missing (Nat.zero_le _) hsearch
    exact ⟨entry, (mem_insertIdx hlow).mpr (.inr hmem), hvalue, hid⟩

theorem SortedLists.remove {value' : Primitive} {id id' : Text} (h : SortedLists list value' id')
    (hne : id' ≠ id) (value : Primitive) :
    SortedLists (removeSortedIndexEntry list value id) value' id' := by
  obtain ⟨entry, hmem, hvalue, hid⟩ := h
  unfold removeSortedIndexEntry
  cases hsearch : search list value with
  | missing low => exact ⟨entry, hmem, hvalue, hid⟩
  | found i =>
    obtain ⟨j, hj⟩ := mem_iff_getElem?.mp hmem
    obtain ⟨found, hi, -⟩ := searchEntry_found hsearch
    simp only [hi]
    by_cases hij : i = j
    · -- the entry still lists `id'`, so it is not dropped
      subst hij
      obtain rfl : found = entry := Option.some_inj.mp (hi.symm.trans hj)
      have hkeep : id' ∈ (found.ids.delete id).keys := InsertionSet.mem_keys_delete.mpr ⟨hid, hne⟩
      have hsize : (found.ids.delete id).size ≠ 0 := by
        intro hzero
        rw [InsertionMap.size, length_eq_zero_iff] at hzero
        simp [InsertionMap.keys, hzero] at hkeep
      rw [if_neg hsize]
      refine ⟨{ found with ids := found.ids.delete id }, ?_, hvalue, hkeep⟩
      exact mem_of_getElem? (i := i)
        (getElem?_set_self (List.getElem?_eq_some_iff.mp hi).1)
    · refine ⟨entry, ?_, hvalue, hid⟩
      by_cases hsize : (found.ids.delete id).size = 0
      · rw [if_pos hsize, mem_eraseIdx_iff_getElem?]
        exact ⟨j, Ne.symm hij, hj⟩
      · rw [if_neg hsize]
        exact mem_of_getElem? (i := j) (by rw [getElem?_set_ne hij, hj])

/-! ### What a scan collects -/

omit [Host] in
theorem mem_keys_foldl_add {collected : List SortedEntry} {ids : InsertionSet Text} {id : Text} :
    id ∈ (collected.foldl (fun ids entry => entry.ids.keys.foldl InsertionSet.add ids) ids).keys ↔
      (∃ entry ∈ collected, id ∈ entry.ids.keys) ∨ id ∈ ids.keys := by
  have hadd : ∀ (added : List Text) (ids : InsertionSet Text),
      id ∈ (added.foldl InsertionSet.add ids).keys ↔ id ∈ added ∨ id ∈ ids.keys := by
    intro added
    induction added with
    | nil => simp
    | cons i added ih =>
      intro ids
      rw [foldl_cons, ih, InsertionSet.mem_keys_add, mem_cons]
      tauto
  induction collected generalizing ids with
  | nil => simp
  | cons entry rest ih =>
    rw [foldl_cons]
    refine ih.trans ?_
    rw [hadd]
    simp only [mem_cons, exists_eq_or_imp]
    rw [or_assoc, or_left_comm]

theorem mem_scanSortedIndexRange {min max : Value} {includeMin includeMax : Bool} {id : Text} :
    id ∈ (scanSortedIndexRange list min max includeMin includeMax).keys ↔
      ∃ entry ∈ scanEntries (belowRange (normalizeSortableValue min) includeMin)
          (beyondRange (normalizeSortableValue max) includeMax) list,
        id ∈ entry.ids.keys := by
  simp [scanSortedIndexRange, mem_keys_foldl_add]

omit [Host] in
/-- The scan collects an entry within the range unless it stopped before. -/
theorem mem_scanEntries {below beyond : SortedEntry → Bool} {entry : SortedEntry} :
    entry ∈ scanEntries below beyond list ↔
      ¬below entry ∧ ¬beyond entry ∧ ∃ before after, list = before ++ entry :: after ∧
        ∀ e ∈ before, below e ∨ ¬beyond e := by
  induction list with
  | nil => simp [scanEntries]
  | cons first rest ih =>
    have hsplit : (∃ before after, first :: rest = before ++ entry :: after ∧
        ∀ e ∈ before, below e ∨ ¬beyond e) ↔
        first = entry ∨ ((below first ∨ ¬beyond first) ∧
          ∃ before after, rest = before ++ entry :: after ∧
            ∀ e ∈ before, below e ∨ ¬beyond e) := by
      constructor
      · rintro ⟨before, after, heq, hbefore⟩
        cases before with
        | nil => exact .inl (cons_eq_cons.mp heq).1
        | cons e before =>
          obtain ⟨rfl, hrest⟩ := cons_eq_cons.mp heq
          exact .inr ⟨hbefore _ (mem_cons_self ..), before, after, hrest,
            fun e he => hbefore e (mem_cons_of_mem _ he)⟩
      · rintro (rfl | ⟨hfirst, before, after, rfl, hbefore⟩)
        · exact ⟨[], rest, rfl, by simp⟩
        · refine ⟨first :: before, after, rfl, ?_⟩
          intro e he
          rcases mem_cons.mp he with rfl | he
          · exact hfirst
          · exact hbefore e he
    rw [hsplit]
    unfold scanEntries
    by_cases hbelow : below first
    · rw [if_pos hbelow, ih]
      by_cases heq : first = entry
      · subst heq
        simp [hbelow]
      · simp [heq, hbelow]
    · rw [if_neg hbelow]
      by_cases hbeyond : beyond first
      · rw [if_pos hbeyond]
        by_cases heq : first = entry
        · subst heq
          simp [hbeyond]
        · simp [heq, hbelow, hbeyond]
      · rw [if_neg hbeyond, mem_cons, ih]
        by_cases heq : first = entry
        · subst heq
          simp [hbelow, hbeyond]
        · simp [heq, Ne.symm heq, hbeyond]

end Lumi.Db

namespace Lumi.Db

open Js InvertedIndex

/-! ## The indices of a table

Four kinds of index are kept next to the records: by the value of a field, by its
position in a sorted list, by the JSON text of several fields, and by the prefixes
of a lower-cased text.  `addToIndices` and `removeFromIndices` maintain all of
them record by record.

`Indexed` says that an id is listed, in every index, under the key its record
has.  Adding a record establishes it for that id and keeps it for the others;
removing a record keeps it for the others.  Ids that are listed under a key their
record no longer has are not excluded.
-/

structure CompositeIndex where
  fields : List Text
  map : InvertedIndex Text Text
  deriving DecidableEq

structure Indices where
  equality : InsertionMap Text (InvertedIndex Value Text)
  sorted : InsertionMap Text (List SortedEntry)
  composite : InsertionMap Text CompositeIndex
  prefixes : InsertionMap Text (InvertedIndex Text Text)
  deriving DecidableEq

variable [Host]

/-- The composite key of a record, given the values of its fields. -/
def buildCompositeKey (fields : List Text) (resolve : Text → Value) : Text :=
  joinWith (text "|") (fields.map fun f =>
    f ++ text ":" ++
      if resolve f = .undefined then text "__undef__" else Host.stringify (resolve f))

/-- The prefixes under which a text is listed. -/
def prefixKeys (s : Text) : List Text :=
  let clean := trim (toLowerCase s)
  (List.range (min 20 clean.length)).map fun i => clean.take (i + 1)

section

variable (m : InvertedIndex Text Text)

def indexPrefixes (s id : Text) : InvertedIndex Text Text :=
  postAll m (prefixKeys s) id

def unindexPrefixes (s id : Text) : InvertedIndex Text Text :=
  unpostAll m (prefixKeys s) id

/-! ### One record in one index -/

def addToEquality (m : InvertedIndex Value Text) (value : Value) (id : Text) :
    InvertedIndex Value Text :=
  if value = .undefined then m else post m value id

def removeFromEquality (m : InvertedIndex Value Text) (value : Value) (id : Text) :
    InvertedIndex Value Text :=
  if value = .undefined then m else unpost m value id

def addToSorted (list : List SortedEntry) (value : Value) (id : Text) : List SortedEntry :=
  match normalizeSortableValue value with
  | some v => insertSortedIndexEntry list v id
  | none => list

def removeFromSorted (list : List SortedEntry) (value : Value) (id : Text) : List SortedEntry :=
  match normalizeSortableValue value with
  | some v => removeSortedIndexEntry list v id
  | none => list

def addToPrefix (value : Value) (id : Text) : InvertedIndex Text Text :=
  match value with
  | .string s => indexPrefixes m s id
  | _ => m

def removeFromPrefix (value : Value) (id : Text) : InvertedIndex Text Text :=
  match value with
  | .string s => unindexPrefixes m s id
  | _ => m

end

namespace Indices

def empty : Indices := ⟨.empty, .empty, .empty, .empty⟩

/-- `addToIndices`; `resolve` gives the fields of the record. -/
def addToIndices (ix : Indices) (id : Text) (resolve : Text → Value) : Indices where
  equality := ix.equality.map fun field m => addToEquality m (resolve field) id
  sorted := ix.sorted.map fun field list => addToSorted list (resolve field) id
  composite := ix.composite.map fun _ c =>
    { c with map := post c.map (buildCompositeKey c.fields resolve) id }
  prefixes := ix.prefixes.map fun field m => addToPrefix m (resolve field) id

def removeFromIndices (ix : Indices) (id : Text) (resolve : Text → Value) : Indices where
  equality := ix.equality.map fun field m => removeFromEquality m (resolve field) id
  sorted := ix.sorted.map fun field list => removeFromSorted list (resolve field) id
  composite := ix.composite.map fun _ c =>
    { c with map := unpost c.map (buildCompositeKey c.fields resolve) id }
  prefixes := ix.prefixes.map fun field m => removeFromPrefix m (resolve field) id

/-- What `clear` leaves: the indices, without their entries. -/
def clear (ix : Indices) : Indices where
  equality := ix.equality.map fun _ _ => .empty
  sorted := ix.sorted.map fun _ _ => []
  composite := ix.composite.map fun _ c => { c with map := .empty }
  prefixes := ix.prefixes.map fun _ _ => .empty

variable {ρ : Type*}

/-- The new index lists the records in their order. -/
def createIndex (ix : Indices) (records : InsertionMap Text ρ) (resolve : ρ → Text → Value)
    (field : Text) : Indices :=
  match ix.equality.get? field with
  | some _ => ix
  | none =>
    { ix with
      equality := ix.equality.set field
        (records.entries.foldl (fun m e => addToEquality m (resolve e.2 field) e.1) .empty) }

def createSortedIndex (ix : Indices) (records : InsertionMap Text ρ) (resolve : ρ → Text → Value)
    (field : Text) : Indices :=
  match ix.sorted.get? field with
  | some _ => ix
  | none =>
    { ix with
      sorted := ix.sorted.set field
        (records.entries.foldl (fun list e => addToSorted list (resolve e.2 field) e.1) []) }

def createCompositeIndex (ix : Indices) (records : InsertionMap Text ρ)
    (resolve : ρ → Text → Value) (fields : List Text) : Indices :=
  let compositeName := joinWith (text "___") fields
  match ix.composite.get? compositeName with
  | some _ => ix
  | none =>
    { ix with
      composite := ix.composite.set compositeName ⟨fields,
        records.entries.foldl
          (fun m e => post m (buildCompositeKey fields (resolve e.2)) e.1) .empty⟩ }

def createPrefixIndex (ix : Indices) (records : InsertionMap Text ρ) (resolve : ρ → Text → Value)
    (field : Text) : Indices :=
  match ix.prefixes.get? field with
  | some _ => ix
  | none =>
    { ix with
      prefixes := ix.prefixes.set field
        (records.entries.foldl (fun m e => addToPrefix m (resolve e.2 field) e.1) .empty) }

end Indices

end Lumi.Db
