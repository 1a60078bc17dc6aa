import Lumi.Substrate.BroccoliInvertedIndexEngine

/-!
# Posting lists mirror the documents

After any calls the postings of a table are those of the texts that its documents have now, no term is
left without postings, and the total length is that of the documents (`postings_mirror`).
-/

namespace Lumi.Substrate

open Js InsertionMap List

theorem size_set_ne_zero {α : Type*} (m : InsertionMap Text α) (key : Text) (a : α) :
    (m.set key a).size ≠ 0 := by
  intro hzero
  have hmem := mem_entries_iff.mpr (get?_set_self m key a)
  rw [length_eq_zero_iff.mp hzero] at hmem
  cases hmem

variable [Host]

namespace Postings

/-- No term is listed without documents. -/
def NoneEmpty (postings : Postings) : Prop :=
  ∀ term docMap, postings.get? term = some docMap → docMap.size ≠ 0

variable {postings : Postings}

section

omit [Host]

theorem NoneEmpty.addPosition (h : postings.NoneEmpty) (docId : Text) (place : Text × ℕ) :
    (postings.addPosition docId place).NoneEmpty := by
  intro term docMap hget
  rw [Postings.addPosition, get?_set] at hget
  split at hget
  next =>
    rw [← Option.some.inj hget]
    exact size_set_ne_zero _ _ _
  next => exact h term docMap hget

theorem NoneEmpty.addTokens (h : postings.NoneEmpty) (docId : Text) (tokens : List Text) :
    (postings.addTokens docId tokens).NoneEmpty := by
  rw [Postings.addTokens]
  generalize tokens.zipIdx = places
  induction places generalizing postings with
  | nil => exact h
  | cons place rest ih => exact ih (h.addPosition docId place)

theorem noneEmpty_removeDoc (postings : Postings) (docId : Text) :
    (postings.removeDoc docId).NoneEmpty := by
  intro term docMap hget
  rw [removeDoc, get?_filterMap] at hget
  obtain ⟨before, -, hkept⟩ := Option.bind_eq_some_iff.mp hget
  split at hkept
  next => cases hkept
  next hsize =>
    rw [← Option.some.inj hkept]
    exact hsize

end

end Postings

namespace TableIndexState

/-- No term is without postings, and the lengths add up. -/
structure Tidy (s : TableIndexState) : Prop where
  noneEmpty : s.postings.NoneEmpty
  total : s.totalDocLength = ((s.docs.values.map (·.length)).sum : ℕ)

variable {s : TableIndexState}

section

omit [Host]

theorem tidy_new : new.Tidy := ⟨fun term docMap hget => (by cases hget), rfl⟩

theorem Tidy.removeDocument (h : s.Tidy) (docId : Text) : (s.removeDocument docId).Tidy := by
  rw [TableIndexState.removeDocument]
  split
  next => exact h
  next doc hdoc =>
    refine ⟨s.postings.noneEmpty_removeDoc docId, ?_⟩
    have hperm := ((perm_values_delete hdoc).map (·.length)).sum_nat
    rw [map_cons, sum_cons] at hperm
    change s.totalDocLength - doc.length = _
    rw [h.total, hperm]
    push_cast
    omega

theorem docs_removeDocument (s : TableIndexState) (docId : Text) :
    (s.removeDocument docId).docs.get? docId = none := by
  rw [TableIndexState.removeDocument]
  split
  next hnone => exact hnone
  next => exact get?_delete_self ..

end

theorem Tidy.indexDocument (h : s.Tidy) (docId txt : Text) : (s.indexDocument docId txt).Tidy := by
  obtain ⟨hnone, htotal⟩ := h.removeDocument docId
  refine ⟨hnone.addTokens docId _, ?_⟩
  have hfree := delete_eq_self_of_get?_eq_none (s.docs_removeDocument docId)
  have hperm := (((s.removeDocument docId).docs.perm_values_set docId
    ⟨(tokenize txt).length, txt⟩).map (·.length)).sum_nat
  rw [hfree, map_cons, sum_cons] at hperm
  change (s.removeDocument docId).totalDocLength + (tokenize txt).length
    = (((((s.removeDocument docId).docs.set docId ⟨(tokenize txt).length, txt⟩).values.map
      (·.length)).sum : ℕ) : ℤ)
  rw [htotal, hperm]
  push_cast
  omega

end TableIndexState

namespace BroccoliInvertedIndexEngine

variable {s : BroccoliInvertedIndexEngine}

/-- **Step lemma.** -/
theorem tidy_step (h : ∀ table, (s.getOrCreateTableState table).Tidy) (call : IndexCall)
    (table : Text) : ((s.step call).getOrCreateTableState table).Tidy := by
  have hset : ∀ {changed : Text} {state : TableIndexState}, state.Tidy →
      (getOrCreateTableState ⟨s.tables.set changed state⟩ table).Tidy := by
    intro changed state hstate
    rw [getOrCreateTableState_set]
    split
    · exact hstate
    · exact h table
  cases call with
  | indexDocument changed docId txt => exact hset ((h changed).indexDocument docId txt)
  | removeDocument changed docId =>
    rw [BroccoliInvertedIndexEngine.step]
    obtain ⟨hsame, -⟩ | hchanged := s.removeDocument_eq changed docId
    · rw [hsame]
      exact h table
    · rw [hchanged]
      exact hset ((h changed).removeDocument docId)

theorem tidy_run (h : ∀ table, (s.getOrCreateTableState table).Tidy) (calls : List IndexCall) :
    ∀ table, ((Run.run step s calls).getOrCreateTableState table).Tidy :=
  Run.run_invariant
    (P := fun s : BroccoliInvertedIndexEngine => ∀ table, (s.getOrCreateTableState table).Tidy)
    (fun _ call h => tidy_step h call) h calls

/-- **Posting lists mirror the documents.**  After any calls, in each table: the positions under a term
are those at which the text that the document has now holds it, in ascending order, and their number
is the frequency; nothing is posted for a document that is not there; no term is without postings; and
the total length is that of the tokens of all documents. -/
theorem postings_mirror (calls : List IndexCall) (table : Text) :
    let state := (Run.run step new calls).getOrCreateTableState table
    let texts := Run.run Documents.step (fun _ _ => none) calls table
    (∀ term docId, (state.postings.entryOf term docId).isSome = true ↔
      ∃ txt, texts docId = some txt ∧ term ∈ tokenize txt)
    ∧ (∀ term docId entry, state.postings.entryOf term docId = some entry →
      ∃ txt, texts docId = some txt ∧ entry.termFrequency = entry.positions.length
        ∧ entry.positions.Pairwise (· < ·)
        ∧ ∀ i, i ∈ entry.positions ↔ (tokenize txt)[i]? = some term)
    ∧ (∀ term docMap, state.postings.get? term = some docMap → docMap.size ≠ 0)
    ∧ (∀ docId, docId ∈ state.docs.keys ↔ (texts docId).isSome = true)
    ∧ state.totalDocLength
      = ((state.docs.keys.map fun docId => ((texts docId).map (tokenize · |>.length)).getD 0).sum : ℕ) := by
  intro state texts
  have hindexes := (BroccoliInvertedIndexEngine.indexes_new.run calls) table
  have htidy := tidy_run (s := new) (fun _ => TableIndexState.tidy_new) calls table
  have hkeys : ∀ docId, docId ∈ state.docs.keys ↔ (texts docId).isSome = true := by
    intro docId
    rw [mem_keys_iff, ← Option.isSome_iff_exists, hindexes.docs, Option.isSome_map]
  refine ⟨fun term docId => ?_, fun term docId entry hentry => ?_, htidy.noneEmpty, hkeys, ?_⟩
  · rw [hindexes.postings]
    cases htext : texts docId with
    | none => simp [texts] at htext; simp [htext]
    | some txt => simp [texts] at htext; simp [htext, entryIn]
  · rw [hindexes.postings] at hentry
    obtain ⟨txt, htext, hin⟩ := Option.bind_eq_some_iff.mp hentry
    rw [entryIn] at hin
    split at hin
    next =>
      rw [← Option.some.inj hin]
      refine ⟨txt, htext, length_idxsOf.symm, pairwise_idxsOf, fun i => ?_⟩
      rw [mem_idxsOf_iff_exists_getElem_pos, getElem?_eq_some_iff]
      simp
    next => cases hin
  · refine htidy.total.trans (congrArg _ (congrArg List.sum ?_))
    rw [InsertionMap.values, InsertionMap.keys, map_map, map_map]
    refine map_congr_left fun entry hentry => ?_
    have hdoc := mem_entries_iff.mp hentry
    rw [hindexes.docs] at hdoc
    obtain ⟨txt, htext, hlength⟩ := Option.map_eq_some_iff.mp hdoc
    dsimp only [Function.comp_apply]
    rw [show texts entry.1 = some txt from htext, ← hlength]
    rfl

end BroccoliInvertedIndexEngine

end Lumi.Substrate
