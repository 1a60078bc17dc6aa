import Lumi.Mvcc.VersionStore

/-!
# The engine simulates its version store

`denote_step` matches every call of the engine with the move of the version
store, and `denote_run` a whole interleaving.  `readRecord_eq` turns the loop of
`readRecord` into a search: the first version of the chain that the reader sees
decides, and its deletion stamp is consulted only then.
-/

namespace Lumi.Mvcc

open InsertionMap Function Option

variable {δ : Type*}

/-! ## Reading a version store -/

/-- What a version holds: a tombstone holds nothing. -/
def RecordVersion.value (v : RecordVersion δ) : Option δ := if v.isDeleted then none else v.data

namespace VersionStore

section

variable (S : VersionStore δ)

section

variable (txId : ℕ)

def isTxCommitted : Bool :=
  match S.status txId with
  | some status => status = .committed
  | none => true

/-- The reader stops at a version of this writer. -/
def seesWriter (txId writer : ℕ) : Bool :=
  writer = txId || (S.isTxCommitted writer && writer ≤ txId)

def sees (v : RecordVersion δ) : Bool := S.seesWriter txId v.txId

/-- `isDeletedForCurrentTx`, for a version of another transaction. -/
def deletedFor (v : RecordVersion δ) : Bool :=
  v.txId ≠ txId && (v.deletedTxId = some txId ||
    match v.deletedTxId with
    | none => false
    | some d => S.isTxCommitted d && d ≤ txId)

def readChain (chain : List (RecordVersion δ)) : Option δ :=
  (chain.find? (S.sees txId)).bind fun v => if S.deletedFor txId v then none else v.value

def read (key : RecordKey) (txId : ℕ) : Option δ :=
  S.readChain txId (S.chain key)

@[simp] theorem readChain_nil : S.readChain txId [] = none := rfl

end

end

theorem readChain_cons_of_sees {S : VersionStore δ} {txId : ℕ} {v : RecordVersion δ}
    (h : S.sees txId v = true) (rest : List (RecordVersion δ)) :
    S.readChain txId (v :: rest) = if S.deletedFor txId v then none else v.value := by
  simp [readChain, h]

theorem readChain_cons_of_not_sees {S : VersionStore δ} {txId : ℕ} {v : RecordVersion δ}
    (h : S.sees txId v = false) (rest : List (RecordVersion δ)) :
    S.readChain txId (v :: rest) = S.readChain txId rest := by
  simp [readChain, h]

end VersionStore

namespace MvccEngine

section

variable (e : MvccEngine δ)

/-- The version store an engine state denotes. -/
def denote : VersionStore δ :=
  ⟨e.currentTxSeq, e.statusOf, e.writtenBy, e.chainOf⟩

theorem isTxCommitted_denote (txId : ℕ) : e.denote.isTxCommitted txId = e.isTxCommitted txId := by
  cases h : e.transactions.get? txId <;>
    simp [VersionStore.isTxCommitted, isTxCommitted, denote, statusOf, h]

theorem readChain_denote (txId : ℕ) (chain : List (RecordVersion δ)) :
    e.readChain txId chain = e.denote.readChain txId chain := by
  induction chain with
  | nil => rfl
  | cons v rest ih =>
    by_cases hown : v.txId = txId
    · have hsees : e.denote.sees txId v = true := by
        simp [VersionStore.sees, VersionStore.seesWriter, hown]
      rw [VersionStore.readChain_cons_of_sees hsees]
      simp [readChain, VersionStore.deletedFor, RecordVersion.value, hown]
    · by_cases hcommitted : (e.isTxCommitted v.txId && v.txId ≤ txId) = true
      · have hsees : e.denote.sees txId v = true := by
          simpa [VersionStore.sees, VersionStore.seesWriter, hown, isTxCommitted_denote]
            using hcommitted
        rw [VersionStore.readChain_cons_of_sees hsees]
        simp only [readChain, if_neg hown, if_pos hcommitted, VersionStore.deletedFor,
          RecordVersion.value, isTxCommitted_denote]
        cases v.deletedTxId <;> simp [hown]
      · have hsees : e.denote.sees txId v = false := by
          simpa [VersionStore.sees, VersionStore.seesWriter, hown, isTxCommitted_denote]
            using hcommitted
        rw [VersionStore.readChain_cons_of_not_sees hsees, readChain, if_neg hown,
          if_neg hcommitted, ih]

theorem readRecord_eq (table recordId : String) (txId : ℕ) :
    e.readRecord table recordId txId = e.denote.read ⟨table, recordId⟩ txId := by
  unfold readRecord VersionStore.read
  cases htable : e.versionChains.get? table with
  | none => simp [denote, chainOf, htable]
  | some tableMap =>
    cases hchain : tableMap.get? recordId with
    | none => simp [denote, chainOf, htable, hchain]
    | some chain => simp [readChain_denote, denote, chainOf, htable, hchain]

end

/-! ## Calls as moves -/

variable {e : MvccEngine δ}

variable {txId : ℕ}

theorem not_active_of_get?_eq_none (h : e.transactions.get? txId = none) :
    ¬ e.denote.Active txId := by
  simp [VersionStore.Active, denote, statusOf, h]

variable {tx : MvccTransaction}

theorem active_denote_iff (h : e.transactions.get? txId = some tx) :
    e.denote.Active txId ↔ tx.status = .active := by
  simp [VersionStore.Active, denote, statusOf, h]

section

variable (e : MvccEngine δ)

/-- Transactions are stored under their own id. -/
def Keyed : Prop := ∀ t tx, e.transactions.get? t = some tx → tx.txId = t

theorem chainOf_set (table recordId : String) (tableMap : TableMap δ)
    (chain : List (RecordVersion δ))
    (htable : tableMap = (e.versionChains.get? table).getD .empty) (key : RecordKey) :
    (((e.versionChains.set table (tableMap.set recordId chain)).get? key.table).bind
        (·.get? key.recordId)).getD [] =
      Function.update e.chainOf ⟨table, recordId⟩ chain key := by
  obtain ⟨table', recordId'⟩ := key
  by_cases ht : table' = table
  · subst ht
    by_cases hr : recordId' = recordId
    · subst hr
      simp
    · have hne : (⟨table', recordId'⟩ : RecordKey) ≠ ⟨table', recordId⟩ := by simp [hr]
      rw [update_of_ne hne]
      cases h : e.versionChains.get? table' <;>
        simp [htable, chainOf, h, get?_set_of_ne _ _ hr]
  · have hne : (⟨table', recordId'⟩ : RecordKey) ≠ ⟨table, recordId⟩ := by simp [ht]
    simp [update_of_ne hne, get?_set_of_ne _ _ ht, chainOf]

theorem statusOf_set_status (t : ℕ) (tx : MvccTransaction) :
    (fun u => ((e.transactions.set t tx).get? u).map (·.status)) =
      Function.update e.statusOf t (some tx.status) := by
  funext u
  by_cases hu : u = t
  · subst hu
    simp
  · simp [update_of_ne hu, get?_set_of_ne _ _ hu, statusOf]

theorem writtenBy_set (t : ℕ) (tx : MvccTransaction) :
    (fun u => (((e.transactions.set t tx).get? u).map (·.writtenRecords)).getD []) =
      Function.update e.writtenBy t tx.writtenRecords := by
  funext u
  by_cases hu : u = t
  · subst hu
    simp
  · simp [update_of_ne hu, get?_set_of_ne _ _ hu, writtenBy]

end

theorem denote_prepend (htx : e.transactions.get? txId = some tx) {table recordId : String}
    {tableMap : TableMap δ} (htable : tableMap = (e.versionChains.get? table).getD .empty)
    {version : RecordVersion δ} (hversion : version.txId = txId) :
    (e.prepend tx tableMap table recordId ((tableMap.get? recordId).getD []) version txId).denote =
      e.denote.cover ⟨table, recordId⟩ version := by
  have hstatus : Function.update e.statusOf txId (some tx.status) = e.statusOf :=
    update_eq_self_iff.mpr (by simp [statusOf, htx])
  have hchain : (tableMap.get? recordId).getD [] = e.chainOf ⟨table, recordId⟩ := by
    subst htable
    cases h : e.versionChains.get? table <;> simp [chainOf, h]
  ext1
  · rfl
  · exact (statusOf_set_status e txId _).trans hstatus
  · refine (writtenBy_set e txId _).trans ?_
    simp [denote, VersionStore.cover, hversion, writtenBy, htx]
  · funext key
    refine (chainOf_set e table recordId tableMap _ htable key).trans ?_
    simp [denote, VersionStore.cover, hversion, hchain]

theorem denote_beginTransaction (e : MvccEngine δ) (level : IsolationLevel) :
    (e.beginTransaction level).2.denote = e.denote.begin := by
  ext1
  · rfl
  · exact statusOf_set_status e _ _
  · exact writtenBy_set e _ _
  · rfl

theorem denote_writeRecord (e : MvccEngine δ) (table recordId : String) (data : δ) (txId : ℕ) :
    (step e (.writeRecord table recordId data txId)).denote =
      e.denote.step (.writeRecord table recordId data txId) := by
  simp only [step, VersionStore.step, writeRecord]
  cases htx : e.transactions.get? txId with
  | none => simp [not_active_of_get?_eq_none htx, Except.toOption]
  | some tx =>
    by_cases hactive : tx.status = .active
    · have hS : e.denote.Active txId := (active_denote_iff htx).mpr hactive
      simp only [hactive, ne_eq, not_true_eq_false, if_false, if_pos hS, Except.toOption,
        getD_some]
      exact denote_prepend htx rfl rfl
    · have hS : ¬ e.denote.Active txId := fun h => hactive ((active_denote_iff htx).mp h)
      simp [hactive, hS, Except.toOption]

theorem denote_deleteRecord (e : MvccEngine δ) (table recordId : String) (txId : ℕ) :
    (step e (.deleteRecord table recordId txId)).denote =
      e.denote.step (.deleteRecord table recordId txId) := by
  simp only [step, VersionStore.step, deleteRecord]
  cases htx : e.transactions.get? txId with
  | none => simp [not_active_of_get?_eq_none htx, Except.toOption]
  | some tx =>
    by_cases hactive : tx.status = .active
    · have hS : e.denote.Active txId := (active_denote_iff htx).mpr hactive
      simp only [hactive, ne_eq, not_true_eq_false, if_false]
      cases htable : e.versionChains.get? table with
      | none => simp [denote, chainOf, htable, Except.toOption]
      | some tableMap =>
        cases hchain : tableMap.get? recordId with
        | none => simp [denote, chainOf, htable, hchain, Except.toOption]
        | some chain =>
          cases chain with
          | nil => simp [denote, chainOf, htable, hchain, Except.toOption]
          | cons v rest =>
            have hne : e.denote.chain ⟨table, recordId⟩ ≠ [] := by
              simp [denote, chainOf, htable, hchain]
            let tombstone : RecordVersion δ := ⟨recordId, txId, none, true, none⟩
            have hprepend : (e.prepend tx tableMap table recordId
                ((tableMap.get? recordId).getD []) tombstone txId).denote =
                  e.denote.cover ⟨table, recordId⟩ tombstone :=
              denote_prepend htx (by rw [htable]; rfl) rfl
            rw [hchain] at hprepend
            rw [if_pos ⟨hS, hne⟩]
            simpa [hchain, Except.toOption] using hprepend
    · have hS : ¬ e.denote.Active txId := fun h => hactive ((active_denote_iff htx).mp h)
      simp [hactive, hS, Except.toOption]

/-- Only the status of a transaction and the chains change. -/
theorem denote_setStatus (htx : e.transactions.get? txId = some tx) (status : TxStatus)
    {chains : InsertionMap String (TableMap δ)} {chain : RecordKey → List (RecordVersion δ)}
    (hchain : ∀ key : RecordKey,
      ((chains.get? key.table).bind (·.get? key.recordId)).getD [] = chain key) :
    denote { e with
        versionChains := chains
        transactions := e.transactions.set txId { tx with status } } =
      { e.denote with
        status := Function.update e.statusOf txId (some status)
        chain } := by
  ext1
  · rfl
  · exact statusOf_set_status e txId _
  · refine (writtenBy_set e txId _).trans ?_
    exact update_eq_self_iff.mpr (by simp [writtenBy, htx])
  · funext key
    exact hchain key

theorem denote_commitTransaction (e : MvccEngine δ) (txId : ℕ) :
    (step e (.commitTransaction txId)).denote = e.denote.step (.commitTransaction txId) := by
  simp only [step, VersionStore.step, commitTransaction]
  cases htx : e.transactions.get? txId with
  | none => simp [not_active_of_get?_eq_none htx]
  | some tx =>
    by_cases hactive : tx.status = .active
    · have hS : e.denote.Active txId := (active_denote_iff htx).mpr hactive
      simp only [hactive, ne_eq, not_true_eq_false, if_false, if_pos hS]
      exact denote_setStatus htx .committed fun _ => rfl
    · have hS : ¬ e.denote.Active txId := fun h => hactive ((active_denote_iff htx).mp h)
      simp [hactive, hS]

/-- A round of the rollback loop that finds its chain rewrites that chain only. -/
theorem removeVersions_eq_set (txId : ℕ) {chains : InsertionMap String (TableMap δ)}
    {table recordId : String} {tableMap : TableMap δ} {chain : List (RecordVersion δ)}
    (htable : chains.get? table = some tableMap) (hchain : tableMap.get? recordId = some chain) :
    ∃ tableMap' : TableMap δ,
      removeVersions txId chains ⟨table, recordId⟩ = chains.set table tableMap' ∧
      ∀ recordId', (tableMap'.get? recordId').getD [] =
        if recordId' = recordId then chain.filter fun v => v.txId ≠ txId
        else (tableMap.get? recordId').getD [] := by
  simp only [removeVersions, htable, hchain]
  by_cases hempty : (chain.filter fun v => v.txId ≠ txId).length = 0
  · refine ⟨tableMap.delete recordId, if_pos hempty, fun recordId' => ?_⟩
    rw [get?_delete, List.length_eq_zero_iff.mp hempty]
    split <;> rfl
  · refine ⟨tableMap.set recordId _, if_neg hempty, fun recordId' => ?_⟩
    rw [get?_set]
    split <;> rfl

/-- One round of the rollback loop filters one chain. -/
theorem chainOf_removeVersions (txId : ℕ) (chains : InsertionMap String (TableMap δ))
    (item key : RecordKey) :
    (((removeVersions txId chains item).get? key.table).bind (·.get? key.recordId)).getD [] =
      if key = item then
        (((chains.get? key.table).bind (·.get? key.recordId)).getD []).filter fun v => v.txId ≠ txId
      else ((chains.get? key.table).bind (·.get? key.recordId)).getD [] := by
  obtain ⟨table, recordId⟩ := key
  obtain ⟨table', recordId'⟩ := item
  -- a record without a chain has no version to drop
  have hmissing : (chains.get? table').bind (·.get? recordId') = none →
      removeVersions txId chains ⟨table', recordId'⟩ = chains := by
    intro h
    cases htable : chains.get? table' with
    | none => simp [removeVersions, htable]
    | some tableMap =>
      rw [htable, bind_some] at h
      simp [removeVersions, htable, h]
  cases hfound : (chains.get? table').bind (·.get? recordId') with
  | none =>
    rw [hmissing hfound]
    split
    · rename_i hkey
      obtain ⟨rfl, rfl⟩ := RecordKey.mk.inj hkey
      simp [hfound]
    · rfl
  | some chain =>
    obtain ⟨tableMap, htable, hchain⟩ := bind_eq_some_iff.mp hfound
    obtain ⟨tableMap', heq, hget⟩ := removeVersions_eq_set txId htable hchain
    rw [heq]
    by_cases ht : table = table'
    · subst ht
      rw [get?_set_self, bind_some, hget]
      by_cases hr : recordId = recordId'
      · subst hr
        simp [htable, hchain]
      · simp [hr, htable]
    · simp [ht, get?_set_of_ne _ _ ht]

theorem chainOf_foldl_removeVersions (txId : ℕ) (items : List RecordKey)
    (chains : InsertionMap String (TableMap δ)) (key : RecordKey) :
    (((items.foldl (removeVersions txId) chains).get? key.table).bind
        (·.get? key.recordId)).getD [] =
      if key ∈ items then
        (((chains.get? key.table).bind (·.get? key.recordId)).getD []).filter fun v => v.txId ≠ txId
      else ((chains.get? key.table).bind (·.get? key.recordId)).getD [] := by
  induction items generalizing chains with
  | nil => simp
  | cons item rest ih =>
    rw [List.foldl_cons, ih, chainOf_removeVersions]
    by_cases hk : key = item
    · subst hk
      by_cases hmem : key ∈ rest
      · simp [hmem]
      · simp [hmem]
    · simp [hk]

theorem denote_rollbackTransaction (e : MvccEngine δ) (h : e.denote.Coherent) (txId : ℕ) :
    (step e (.rollbackTransaction txId)).denote = e.denote.step (.rollbackTransaction txId) := by
  simp only [step, VersionStore.step, rollbackTransaction]
  cases htx : e.transactions.get? txId with
  | none => simp [not_active_of_get?_eq_none htx]
  | some tx =>
    by_cases hactive : tx.status = .active
    · have hS : e.denote.Active txId := (active_denote_iff htx).mpr hactive
      simp only [hactive, ne_eq, not_true_eq_false, if_false, if_pos hS]
      refine denote_setStatus htx .rolledBack fun key => ?_
      refine (chainOf_foldl_removeVersions txId _ e.versionChains key).trans ?_
      split
      · rfl
      · rename_i hkey
        -- a record the transaction has not noted holds none of its versions
        refine (List.filter_eq_self.mpr fun v hv => ?_).symm
        have hnoted := h.writer_noted key v hv
        simp only [decide_eq_true_eq]
        rintro rfl
        exact hkey (by simpa [denote, writtenBy, htx] using hnoted)
    · have hS : ¬ e.denote.Active txId := fun h => hactive ((active_denote_iff htx).mp h)
      simp [hactive, hS]

/-! ### Vacuum -/

/-- What the loop over the transactions finds, started from `acc`. -/
theorem foldl_oldest (txs : List MvccTransaction) (acc : Option ℕ) :
    let result := txs.foldl (fun minId tx =>
      if tx.status = .active then
        match minId with
        | none => some tx.txId
        | some m => if tx.txId < m then some tx.txId else some m
      else minId) acc
    (result = none → acc = none ∧ ∀ tx ∈ txs, tx.status ≠ .active) ∧
      ∀ m, result = some m →
        (acc = some m ∨ ∃ tx ∈ txs, tx.status = .active ∧ tx.txId = m) ∧
          (∀ a, acc = some a → m ≤ a) ∧ ∀ tx ∈ txs, tx.status = .active → m ≤ tx.txId := by
  induction txs generalizing acc with
  | nil => simp +contextual
  | cons tx rest ih =>
    simp only [List.foldl_cons, List.forall_mem_cons, List.exists_mem_cons_iff]
    by_cases hactive : tx.status = .active
    · simp only [hactive, if_true]
      cases acc with
      | none =>
        obtain ⟨hnone, hsome⟩ := ih (some tx.txId)
        refine ⟨fun h => absurd (hnone h).1 (by simp), fun m hm => ?_⟩
        obtain ⟨hfrom, hacc, hrest⟩ := hsome m hm
        refine ⟨.inr ?_, by simp, fun _ => hacc _ rfl, hrest⟩
        rcases hfrom with heq | hmem
        · exact .inl ⟨trivial, Option.some.inj heq⟩
        · exact .inr hmem
      | some a =>
        by_cases hlt : tx.txId < a
        · simp only [if_pos hlt]
          obtain ⟨hnone, hsome⟩ := ih (some tx.txId)
          refine ⟨fun h => absurd (hnone h).1 (by simp), fun m hm => ?_⟩
          obtain ⟨hfrom, hacc, hrest⟩ := hsome m hm
          have hle := hacc _ rfl
          refine ⟨.inr ?_, fun b hb => ?_, fun _ => hle, hrest⟩
          · rcases hfrom with heq | hmem
            · exact .inl ⟨trivial, Option.some.inj heq⟩
            · exact .inr hmem
          · obtain rfl := Option.some.inj hb
            omega
        · simp only [if_neg hlt]
          obtain ⟨hnone, hsome⟩ := ih (some a)
          refine ⟨fun h => absurd (hnone h).1 (by simp), fun m hm => ?_⟩
          obtain ⟨hfrom, hacc, hrest⟩ := hsome m hm
          have hle := hacc _ rfl
          refine ⟨?_, hacc, fun _ => by omega, hrest⟩
          rcases hfrom with heq | hmem
          · exact .inl heq
          · exact .inr (.inr hmem)
    · simp only [hactive, if_false, false_and, false_or, false_implies, true_and, ne_eq,
        not_false_eq_true]
      exact ih acc

theorem exists_active_mem_values (hkeyed : e.Keyed) {t : ℕ} :
    e.denote.Active t ↔ ∃ tx ∈ e.transactions.values, tx.status = .active ∧ tx.txId = t := by
  constructor
  · intro ht
    obtain ⟨tx, htx, hstatus⟩ := map_eq_some_iff.mp ht
    refine ⟨tx, List.mem_map.mpr ⟨(t, tx), ?_, rfl⟩, hstatus, hkeyed t tx htx⟩
    exact mem_entries_iff.mpr htx
  · rintro ⟨tx, hmem, hstatus, rfl⟩
    obtain ⟨⟨k, tx'⟩, hentry, rfl⟩ := List.mem_map.mp hmem
    have hget := mem_entries_iff.mp hentry
    obtain rfl := hkeyed k tx' hget
    exact (active_denote_iff hget).mpr hstatus

theorem oldestActive_denote (hkeyed : e.Keyed) (h : e.denote.Coherent) :
    e.getOldestActiveTxId.getD (e.currentTxSeq + 1) = e.denote.oldestActive := by
  obtain ⟨hnone, hsome⟩ := foldl_oldest e.transactions.values none
  have hseq : e.denote.seq = e.currentTxSeq := rfl
  unfold getOldestActiveTxId VersionStore.oldestActive
  generalize e.transactions.values.foldl _ none = result at hnone hsome ⊢
  cases result with
  | none =>
    obtain ⟨-, hall⟩ := hnone rfl
    have hfind : (List.range (e.denote.seq + 1)).find?
        (fun t => decide (e.denote.status t = some .active)) = none := by
      rw [List.find?_eq_none]
      intro t _
      simp only [decide_eq_true_eq]
      intro ht
      obtain ⟨tx, hmem, hstatus, -⟩ := (exists_active_mem_values hkeyed).mp ht
      exact hall tx hmem hstatus
    rw [hfind, hseq, getD_none]
  | some m =>
    obtain ⟨hfrom, -, hmin⟩ := hsome m rfl
    have hm : e.denote.Active m :=
      (exists_active_mem_values hkeyed).mpr (by simpa using hfrom)
    have hfind : (List.range (e.denote.seq + 1)).find?
        (fun t => decide (e.denote.status t = some .active)) = some m := by
      rw [List.find?_range_eq_some]
      refine ⟨by simpa using hm, by have := (h.active_bounds hm).2; simp; omega, ?_⟩
      intro j hj
      simp only [Bool.not_eq_eq_eq_not, Bool.not_true, decide_eq_false_iff_not]
      intro hactive
      obtain ⟨tx, hmem, hstatus, rfl⟩ := (exists_active_mem_values hkeyed).mp hactive
      exact absurd (hmin tx hmem hstatus) (by omega)
    rw [hfind, getD_some, getD_some]

theorem denote_vacuum (hkeyed : e.Keyed) (h : e.denote.Coherent) (minActiveTxId : Option ℕ) :
    (step e (.vacuum minActiveTxId)).denote = e.denote.step (.vacuum minActiveTxId) := by
  have hthreshold : e.vacuumThreshold minActiveTxId =
      minActiveTxId.getD e.denote.oldestActive := by
    rw [← oldestActive_denote hkeyed h, vacuumThreshold]
    cases minActiveTxId <;> simp
  ext1
  · rfl
  · rfl
  · rfl
  · funext key
    simp only [step, vacuum, VersionStore.step, VersionStore.purge, hthreshold, denote, chainOf,
      get?_filterMap]
    cases htable : e.versionChains.get? key.table with
    | none => simp [vacuumChain]
    | some tableMap =>
      cases hchain : tableMap.get? key.recordId <;>
        simp [get?_filterMap, hchain, vacuumChain]

/-! ## Runs -/

theorem keyed_set {e e' : MvccEngine δ} (hkeyed : e.Keyed) {t : ℕ}
    (heq : e'.transactions = e.transactions.set t tx) (htx : tx.txId = t) : e'.Keyed := by
  intro u tx' hget
  rw [heq] at hget
  by_cases hu : u = t
  · subst hu
    obtain rfl : tx = tx' := by simpa using hget
    exact htx
  · rw [get?_set_of_ne _ _ hu] at hget
    exact hkeyed u tx' hget

theorem keyed_step (hkeyed : e.Keyed) (call : MvccCall δ) : (step e call).Keyed := by
  cases call with
  | beginTransaction level => exact keyed_set hkeyed rfl rfl
  | writeRecord table recordId data txId =>
    simp only [step, writeRecord]
    cases htx : e.transactions.get? txId with
    | none => exact hkeyed
    | some tx =>
      simp only
      split
      · exact hkeyed
      · exact keyed_set hkeyed rfl (hkeyed txId tx htx)
  | deleteRecord table recordId txId =>
    simp only [step, deleteRecord]
    cases htx : e.transactions.get? txId with
    | none => exact hkeyed
    | some tx =>
      simp only
      split
      · exact hkeyed
      · split
        · exact hkeyed
        · split
          · exact hkeyed
          · exact hkeyed
          · exact keyed_set hkeyed rfl (hkeyed txId tx htx)
  | commitTransaction txId =>
    simp only [step, commitTransaction]
    cases htx : e.transactions.get? txId with
    | none => exact hkeyed
    | some tx =>
      simp only
      split
      · exact hkeyed
      · exact keyed_set hkeyed rfl (hkeyed txId tx htx)
  | rollbackTransaction txId =>
    simp only [step, rollbackTransaction]
    cases htx : e.transactions.get? txId with
    | none => exact hkeyed
    | some tx =>
      simp only
      split
      · exact hkeyed
      · exact keyed_set hkeyed rfl (hkeyed txId tx htx)
  | vacuum => exact hkeyed

/-- **One call is one move.** -/
theorem denote_step (hkeyed : e.Keyed) (h : e.denote.Coherent) (call : MvccCall δ) :
    (step e call).denote = e.denote.step call := by
  cases call with
  | beginTransaction level => exact denote_beginTransaction e level
  | writeRecord table recordId data txId => exact denote_writeRecord e table recordId data txId
  | deleteRecord table recordId txId => exact denote_deleteRecord e table recordId txId
  | commitTransaction txId => exact denote_commitTransaction e txId
  | rollbackTransaction txId => exact denote_rollbackTransaction e h txId
  | vacuum minActiveTxId => exact denote_vacuum hkeyed h minActiveTxId

/-- **An interleaving denotes the same run of the version store.** -/
theorem denote_run_of (hkeyed : e.Keyed) (h : e.denote.Coherent) (calls : List (MvccCall δ)) :
    (Run.run step e calls).denote = Run.run VersionStore.step e.denote calls := by
  induction calls generalizing e with
  | nil => rfl
  | cons call rest ih =>
    have hstep := denote_step hkeyed h call
    rw [Run.run_cons, Run.run_cons, ← hstep]
    exact ih (keyed_step hkeyed call) (hstep ▸ VersionStore.coherent_step h call)

theorem keyed_init : (init : MvccEngine δ).Keyed := fun t tx h => by simp [init] at h

theorem keyed_run (calls : List (MvccCall δ)) : (Run.run step init calls : MvccEngine δ).Keyed :=
  Run.run_invariant (P := Keyed) (fun _ call h => keyed_step h call) keyed_init calls

theorem denote_run (calls : List (MvccCall δ)) :
    (Run.run step init calls).denote = Run.run VersionStore.step VersionStore.init calls :=
  denote_run_of keyed_init VersionStore.coherent_init calls

end MvccEngine

/-- Every reachable version store is coherent. -/
theorem VersionStore.coherent_run (calls : List (MvccCall δ)) :
    (Run.run step init calls : VersionStore δ).Coherent :=
  Run.run_invariant (P := Coherent) (fun _ call h => coherent_step h call) coherent_init calls

theorem MvccEngine.coherent_run (calls : List (MvccCall δ)) :
    (Run.run Mvcc.step init calls : MvccEngine δ).denote.Coherent :=
  denote_run calls ▸ VersionStore.coherent_run calls

/-- **The engine refines the version store.**  After any interleaving of calls, vacuums among them,
the transactions have the status that they have in the store after the same moves, and every read
finds what it finds there. -/
theorem engine_refines_store (calls : List (MvccCall δ)) :
    let e := Run.run step .init calls
    let S := Run.run VersionStore.step .init calls
    (∀ txId, (e.transactions.get? txId).map (·.status) = S.status txId) ∧
      ∀ table recordId txId, e.readRecord table recordId txId = S.read ⟨table, recordId⟩ txId := by
  intro e S
  have hdenote : e.denote = S := MvccEngine.denote_run calls
  refine ⟨fun txId => congrFun (congrArg VersionStore.status hdenote) txId,
    fun table recordId txId => ?_⟩
  rw [← hdenote]
  exact e.readRecord_eq table recordId txId

end Lumi.Mvcc
