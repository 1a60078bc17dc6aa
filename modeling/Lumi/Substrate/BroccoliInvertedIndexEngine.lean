import Mathlib.Algebra.Order.Ring.Int
import Mathlib.Data.List.Induction
import Lumi.Lib.InvertedIndex
import Lumi.Lib.JsValue
import Lumi.Lib.Run

/-!
# BroccoliInvertedIndexEngine

The postings of a table list, under each term, the documents that contain it, with the number of
times and the positions.  Whatever was indexed and removed before, the postings are those of the
texts that the documents have now (`Indexes`).
-/

namespace Lumi.Substrate

open Js InsertionMap Function Option

section

variable [Host]

/-- `[a-z0-9_\-\s]` -/
def isTokenChar (c : UInt16) : Bool :=
  (0x61 ≤ c && c ≤ 0x7A) || (0x30 ≤ c && c ≤ 0x39) || c = 0x5F || c = 0x2D || isWhiteSpace c

-- no part between two separators is empty, so that one separator is as good as several
def tokenize (s : Text) : List Text :=
  (((toLowerCase s).map fun c => if isTokenChar c then c else 0x20).splitOnP isWhiteSpace).filter
    fun t => 0 < t.length

structure PostingEntry where
  termFrequency : ℕ
  positions : List ℕ
  deriving DecidableEq

/-- term → (docId → PostingEntry) -/
abbrev Postings := InsertionMap Text (InsertionMap Text PostingEntry)

structure IndexedDoc where
  length : ℕ
  text : Text
  deriving DecidableEq

structure TableIndexState where
  docs : InsertionMap Text IndexedDoc
  postings : Postings
  totalDocLength : ℤ

structure BroccoliInvertedIndexEngine where
  tables : InsertionMap Text TableIndexState

namespace Postings

def entryOf (postings : Postings) (term docId : Text) : Option PostingEntry :=
  (postings.get? term).bind (·.get? docId)

/-- One pass of the loop over the positions. -/
def addPosition (docId : Text) (postings : Postings) (place : Text × ℕ) : Postings :=
  let termMap := (postings.get? place.1).getD InsertionMap.empty
  let entry := (termMap.get? docId).getD ⟨0, []⟩
  postings.set place.1
    (termMap.set docId ⟨entry.termFrequency + 1, entry.positions ++ [place.2]⟩)

def addTokens (docId : Text) (tokens : List Text) (postings : Postings) : Postings :=
  tokens.zipIdx.foldl (addPosition docId) postings

def removeDoc (postings : Postings) (docId : Text) : Postings :=
  postings.filterMap fun _ docMap =>
    if (docMap.delete docId).size = 0 then none else some (docMap.delete docId)

end Postings

namespace TableIndexState

def new : TableIndexState := ⟨InsertionMap.empty, InsertionMap.empty, 0⟩

def removeDocument (s : TableIndexState) (docId : Text) : TableIndexState :=
  match s.docs.get? docId with
  | none => s
  | some doc => ⟨s.docs.delete docId, s.postings.removeDoc docId, s.totalDocLength - doc.length⟩

def indexDocument (s : TableIndexState) (docId txt : Text) : TableIndexState :=
  let s := s.removeDocument docId
  let tokens := tokenize txt
  ⟨s.docs.set docId ⟨tokens.length, txt⟩, s.postings.addTokens docId tokens,
    s.totalDocLength + tokens.length⟩

end TableIndexState

/-- The calls that change the index. -/
inductive IndexCall
  | indexDocument (table docId txt : Text)
  | removeDocument (table docId : Text)

namespace BroccoliInvertedIndexEngine

def new : BroccoliInvertedIndexEngine := ⟨InsertionMap.empty⟩

def getOrCreateTableState (s : BroccoliInvertedIndexEngine) (table : Text) : TableIndexState :=
  (s.tables.get? table).getD TableIndexState.new

def indexDocument (s : BroccoliInvertedIndexEngine) (table docId txt : Text) :
    BroccoliInvertedIndexEngine :=
  ⟨s.tables.set table ((s.getOrCreateTableState table).indexDocument docId txt)⟩

def removeDocument (s : BroccoliInvertedIndexEngine) (table docId : Text) :
    Bool × BroccoliInvertedIndexEngine :=
  match s.tables.get? table with
  | none => (false, s)
  | some state =>
    if (state.docs.get? docId).isNone then (false, s)
    else (true, ⟨s.tables.set table (state.removeDocument docId)⟩)

def step (s : BroccoliInvertedIndexEngine) : IndexCall → BroccoliInvertedIndexEngine
  | .indexDocument table docId txt => s.indexDocument table docId txt
  | .removeDocument table docId => (s.removeDocument table docId).2

end BroccoliInvertedIndexEngine

end

/-! ## The postings of a text -/

/-- What the postings say about a document with these tokens. -/
def entryIn (tokens : List Text) (term : Text) : Option PostingEntry :=
  if term ∈ tokens then some ⟨tokens.count term, tokens.idxsOf term⟩ else none

theorem entryIn_getD (tokens : List Text) (term : Text) :
    (entryIn tokens term).getD ⟨0, []⟩ = ⟨tokens.count term, tokens.idxsOf term⟩ := by
  rw [entryIn]
  split
  · rfl
  · next hnot =>
    have hcount : tokens.count term = 0 := List.count_eq_zero.mpr hnot
    have hplaces : (tokens.idxsOf term).length = 0 := List.length_idxsOf.trans hcount
    rw [hcount, List.length_eq_zero_iff.mp hplaces]
    rfl

theorem entryIn_concat (tokens : List Text) (last term : Text) :
    entryIn (tokens ++ [last]) term =
      if term = last then
        some ⟨((entryIn tokens term).getD ⟨0, []⟩).termFrequency + 1,
          ((entryIn tokens term).getD ⟨0, []⟩).positions ++ [tokens.length]⟩
      else entryIn tokens term := by
  rw [entryIn_getD]
  by_cases hlast : term = last
  · subst hlast
    simp [entryIn, List.idxsOf_append]
  · have hlast' : ¬last = term := fun heq => hlast heq.symm
    simp [entryIn, List.idxsOf_append, hlast, hlast']

namespace Postings

variable {postings : Postings}

theorem entryOf_addPosition (docId last : Text) (n : ℕ) (term docId' : Text) :
    (addPosition docId postings (last, n)).entryOf term docId' =
      if docId' = docId ∧ term = last then
        some ⟨((postings.entryOf term docId).getD ⟨0, []⟩).termFrequency + 1,
          ((postings.entryOf term docId).getD ⟨0, []⟩).positions ++ [n]⟩
      else postings.entryOf term docId' := by
  simp only [addPosition, entryOf, get?_set]
  by_cases hterm : term = last
  · subst hterm
    rw [if_pos rfl, bind_some, get?_set]
    by_cases hdoc : docId' = docId
    · subst hdoc
      cases postings.get? term <;> simp
    · rw [if_neg hdoc, if_neg fun h => hdoc h.1]
      cases postings.get? term <;> simp
  · rw [if_neg hterm, if_neg fun h => hterm h.2]

/-- **Run lemma of the loop.**  A document without postings gets those of its tokens. -/
theorem entryOf_addTokens {docId : Text} (h : ∀ term, postings.entryOf term docId = none)
    (tokens : List Text) (term docId' : Text) :
    (postings.addTokens docId tokens).entryOf term docId' =
      if docId' = docId then entryIn tokens term else postings.entryOf term docId' := by
  induction tokens using List.reverseRecOn generalizing term docId' with
  | nil =>
    by_cases hdoc : docId' = docId
    · rw [if_pos hdoc, hdoc]
      exact h term
    · rw [if_neg hdoc]
      rfl
  | append_singleton tokens last ih =>
    have hsplit : postings.addTokens docId (tokens ++ [last]) =
        addPosition docId (postings.addTokens docId tokens) (last, tokens.length) := by
      simp [addTokens, List.zipIdx_append]
    rw [hsplit, entryOf_addPosition, ih, ih, entryIn_concat, if_pos rfl]
    by_cases hdoc : docId' = docId <;> by_cases hlast : term = last <;> simp [hdoc, hlast]

theorem entryOf_removeDoc (postings : Postings) (docId term docId' : Text) :
    (postings.removeDoc docId).entryOf term docId' =
      if docId' = docId then none else postings.entryOf term docId' := by
  rw [entryOf, removeDoc, get?_filterMap, entryOf]
  cases postings.get? term with
  | none => simp
  | some docMap =>
    rw [bind_some, bind_some, ← get?_delete]
    split
    · next hsize =>
      -- the map that is dropped has nothing left
      have hempty : (docMap.delete docId).entries = [] := List.length_eq_zero_iff.mp hsize
      rw [bind_none, InsertionMap.get?, hempty]
      rfl
    · rfl

end Postings

/-! ## Every run indexes the present texts -/

/-- The texts of the documents, table by table. -/
abbrev Documents := Text → Text → Option Text

def Documents.step (texts : Documents) : IndexCall → Documents
  | .indexDocument table docId txt =>
    Function.update texts table (Function.update (texts table) docId (some txt))
  | .removeDocument table docId =>
    Function.update texts table (Function.update (texts table) docId none)

variable [Host]

namespace TableIndexState

variable {s : TableIndexState} {texts : Text → Option Text}

/-- The documents have these texts, and the postings are those of their tokens. -/
structure Indexes (s : TableIndexState) (texts : Text → Option Text) : Prop where
  docs : ∀ docId, s.docs.get? docId =
    (texts docId).map fun txt => ⟨(tokenize txt).length, txt⟩
  postings : ∀ term docId, s.postings.entryOf term docId =
    (texts docId).bind fun txt => entryIn (tokenize txt) term

theorem indexes_new : new.Indexes fun _ => none :=
  ⟨fun _ => rfl, fun _ _ => rfl⟩

theorem Indexes.removeDocument (h : s.Indexes texts) (docId : Text) :
    (s.removeDocument docId).Indexes (Function.update texts docId none) := by
  rw [TableIndexState.removeDocument]
  split
  · next hnone =>
    have habsent : texts docId = none := by
      have hdocs := h.docs docId
      rw [hnone] at hdocs
      exact map_eq_none_iff.mp hdocs.symm
    rwa [← habsent, update_eq_self]
  · next doc hdoc =>
    constructor
    · intro docId'
      change (s.docs.delete docId).get? docId' = _
      rw [get?_delete, update_apply, h.docs]
      split <;> rfl
    · intro term docId'
      change (s.postings.removeDoc docId).entryOf term docId' = _
      rw [Postings.entryOf_removeDoc, update_apply, h.postings]
      split <;> rfl

theorem Indexes.indexDocument (h : s.Indexes texts) (docId txt : Text) :
    (s.indexDocument docId txt).Indexes (Function.update texts docId (some txt)) := by
  have hremoved := h.removeDocument docId
  -- after the removal nothing is posted for the document
  have hfree : ∀ term, (s.removeDocument docId).postings.entryOf term docId = none := by
    intro term
    rw [hremoved.postings, update_self]
    rfl
  constructor
  · intro docId'
    change ((s.removeDocument docId).docs.set docId _).get? docId' = _
    rw [get?_set, update_apply, hremoved.docs, update_apply]
    split <;> rfl
  · intro term docId'
    change ((s.removeDocument docId).postings.addTokens docId (tokenize txt)).entryOf term docId' = _
    rw [Postings.entryOf_addTokens hfree, update_apply, hremoved.postings,
      update_apply]
    split <;> rfl

end TableIndexState

namespace BroccoliInvertedIndexEngine

variable {s : BroccoliInvertedIndexEngine} {texts : Documents}

def Indexes (s : BroccoliInvertedIndexEngine) (texts : Documents) : Prop :=
  ∀ table, (s.getOrCreateTableState table).Indexes (texts table)

omit [Host] in
theorem getOrCreateTableState_set (state : TableIndexState) (table table' : Text) :
    getOrCreateTableState ⟨s.tables.set table state⟩ table' =
      if table' = table then state else s.getOrCreateTableState table' := by
  rw [getOrCreateTableState, get?_set]
  split <;> rfl

theorem indexes_new : new.Indexes fun _ _ => none :=
  fun _ => TableIndexState.indexes_new

theorem Indexes.set (h : s.Indexes texts) {table : Text} {state : TableIndexState}
    {inTable : Text → Option Text} (hstate : state.Indexes inTable) :
    Indexes ⟨s.tables.set table state⟩ (Function.update texts table inTable) := by
  intro table'
  rw [getOrCreateTableState_set, update_apply]
  split
  · exact hstate
  · exact h table'

omit [Host] in
theorem removeDocument_eq (s : BroccoliInvertedIndexEngine) (table docId : Text) :
    (s.removeDocument table docId).2 = s ∧
        (s.getOrCreateTableState table).removeDocument docId = s.getOrCreateTableState table ∨
      (s.removeDocument table docId).2 =
        ⟨s.tables.set table ((s.getOrCreateTableState table).removeDocument docId)⟩ := by
  rw [removeDocument, getOrCreateTableState]
  cases htable : s.tables.get? table with
  | none => exact .inl ⟨rfl, rfl⟩
  | some state =>
    dsimp only [getD_some]
    split
    · next hnone =>
      refine .inl ⟨rfl, ?_⟩
      rw [TableIndexState.removeDocument, isNone_iff_eq_none.mp hnone]
    · exact .inr rfl

/-- **Step lemma.** -/
theorem Indexes.step (h : s.Indexes texts) (call : IndexCall) :
    (s.step call).Indexes (texts.step call) := by
  cases call with
  | indexDocument table docId txt => exact h.set ((h table).indexDocument docId txt)
  | removeDocument table docId =>
    have hstate := (h table).removeDocument docId
    rcases s.removeDocument_eq table docId with ⟨hsame, hkept⟩ | hset
    · rw [BroccoliInvertedIndexEngine.step, hsame]
      intro table'
      rw [Documents.step, update_apply]
      split
      · next heq => rwa [heq, ← hkept]
      · exact h table'
    · rw [BroccoliInvertedIndexEngine.step, hset]
      exact h.set hstate

theorem Indexes.run (h : s.Indexes texts) (calls : List IndexCall) :
    (Run.run BroccoliInvertedIndexEngine.step s calls).Indexes
      (Run.run Documents.step texts calls) := by
  induction calls generalizing s texts with
  | nil => exact h
  | cons call rest ih => exact ih (h.step call)

end BroccoliInvertedIndexEngine

end Lumi.Substrate
