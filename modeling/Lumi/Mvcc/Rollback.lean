import Lumi.Mvcc.Commit

/-!
# Rollback erases a transaction

Two runs of the version store are compared: one in which a transaction writes and
is rolled back in the end, and the same run without its writes and deletions.
Up to stamps, and up to tombstones at the bottom of a chain, the second run holds
what the first one holds without the versions of the transaction (`Erased`).  The
tombstones come from deletions that find a record only because the transaction
wrote one.

Stamps the transaction leaves behind do not matter to a reader, with one
exception: a transaction that was rolled back and goes on reading may find its
own stamp in one of the runs only (`rolled_back_reader_sees_rollback`).
-/

open List Function

namespace Lumi.Mvcc
variable {δ : Type*}

/-- The call is a write or a deletion by the transaction. -/
def MvccCall.isUpdateBy (t : ℕ) (call : MvccCall δ) : Bool :=
  match call.version? with
  | some (_, version) => version.txId = t
  | none => false

/-- The calls without the writes and deletions of the transaction. -/
def withoutUpdatesBy (t : ℕ) (calls : List (MvccCall δ)) : List (MvccCall δ) :=
  calls.filter fun call => !call.isUpdateBy t

namespace VersionStore

open MvccEngine (markHead)

/-- What a chain holds without its stamps and without the versions of `t`. -/
def others (t : ℕ) (chain : List (RecordVersion δ)) : List (RecordVersion δ) :=
  (chain.map (·.unmarked)).filter fun v => v.txId ≠ t

/-- The second chain is the first one with `t` erased. -/
def ErasedChain (t : ℕ) (chain chain' : List (RecordVersion δ)) : Prop :=
  ∃ tombstones, others t chain = chain'.map (·.unmarked) ++ tombstones ∧
    ∀ v ∈ tombstones, v.value = none

/-- `S'` is `S` with `t` erased. -/
structure Erased (t : ℕ) (S S' : VersionStore δ) : Prop where
  coherent : S.Coherent
  coherent' : S'.Coherent
  stamped : S.Stamped
  stamped' : S'.Stamped
  seq : S'.seq = S.seq
  status : S'.status = S.status
  chains : ∀ key, ErasedChain t (S.chain key) (S'.chain key)

/-! ## One call -/

variable {version : RecordVersion δ} {t : ℕ}

theorem others_cover_of_eq (hversion : version.txId = t) (chain : List (RecordVersion δ)) :
    others t (version :: markHead version.txId chain) = others t chain := by
  simp [others, MvccEngine.map_unmarked_markHead, hversion]

theorem others_cover_of_ne (hversion : version.txId ≠ t) (chain : List (RecordVersion δ)) :
    others t (version :: markHead version.txId chain) = version.unmarked :: others t chain := by
  simp [others, MvccEngine.map_unmarked_markHead, hversion]

theorem others_filter (t u : ℕ) (chain : List (RecordVersion δ)) :
    others t (chain.filter fun v => v.txId ≠ u) =
      (others t chain).filter fun v => v.txId ≠ u := by
  simp only [others, filter_map, filter_filter, comp_def,
    RecordVersion.txId_unmarked]
  congr 2
  funext v
  exact Bool.and_comm ..

theorem erasedChain_cover {chain chain' : List (RecordVersion δ)} (h : ErasedChain t chain chain')
    (hversion : version.txId ≠ t) :
    ErasedChain t (version :: markHead version.txId chain)
      (version :: markHead version.txId chain') := by
  obtain ⟨tombstones, hchain, htombstones⟩ := h
  refine ⟨tombstones, ?_, htombstones⟩
  rw [others_cover_of_ne hversion, hchain, map_cons, MvccEngine.map_unmarked_markHead,
    cons_append]

/-- A deletion that finds the record in the first run only. -/
theorem erasedChain_tombstone {chain : List (RecordVersion δ)} (h : ErasedChain t chain [])
    (hversion : version.txId ≠ t) (hvalue : version.value = none) :
    ErasedChain t (version :: markHead version.txId chain) [] := by
  obtain ⟨tombstones, hchain, htombstones⟩ := h
  refine ⟨version.unmarked :: tombstones, ?_, ?_⟩
  · rw [others_cover_of_ne hversion, hchain]
    rfl
  · rintro v hv
    rcases mem_cons.mp hv with rfl | hv
    · exact hvalue
    · exact htombstones v hv

theorem erasedChain_rollback {chain chain' : List (RecordVersion δ)}
    (h : ErasedChain t chain chain') (u : ℕ) :
    ErasedChain t (chain.filter fun v => v.txId ≠ u) (chain'.filter fun v => v.txId ≠ u) := by
  obtain ⟨tombstones, hchain, htombstones⟩ := h
  refine ⟨tombstones.filter fun v => v.txId ≠ u, ?_, ?_⟩
  · rw [others_filter, hchain, filter_append, filter_map]
    rfl
  · exact fun v hv => htombstones v (mem_filter.mp hv).1

variable {S S' : VersionStore δ}

variable {call : MvccCall δ}

/-- An update by `t` leaves no trace. -/
theorem erased_own_update (h : Erased t S S') (hcall : call.isUpdateBy t = true) :
    Erased t (S.step call) S' := by
  cases hversion : call.version? with
  | none => simp [MvccCall.isUpdateBy, hversion] at hcall
  | some update =>
    obtain ⟨key, version⟩ := update
    obtain rfl : version.txId = t := by simpa [MvccCall.isUpdateBy, hversion] using hcall
    rw [step_of_version? S hversion]
    split
    · rename_i hactive
      have hmark := (unmarked_of_version? hversion).1
      refine ⟨coherent_cover h.coherent hactive.1 hmark, h.coherent',
        stamped_cover h.stamped key hmark, h.stamped', h.seq, h.status, fun key' => ?_⟩
      obtain ⟨tombstones, hchain, htombstones⟩ := h.chains key'
      refine ⟨tombstones, ?_, htombstones⟩
      by_cases hk : key' = key
      · subst hk
        simp only [cover, update_self]
        rw [others_cover_of_eq rfl, hchain]
      · simp only [cover, update_of_ne hk]
        exact hchain
    · exact h

theorem chain_update_self (S : VersionStore δ) (key : RecordKey) (version : RecordVersion δ)
    (p : Prop) [Decidable p] :
    (if p then S.cover key version else S).chain key =
      if p then version :: markHead version.txId (S.chain key) else S.chain key := by
  split
  · simp [cover]
  · rfl

theorem chain_update_of_ne (S : VersionStore δ) {key key' : RecordKey} (hk : key' ≠ key)
    (version : RecordVersion δ) (p : Prop) [Decidable p] :
    (if p then S.cover key version else S).chain key' = S.chain key' := by
  split
  · simp only [cover, update_of_ne hk]
  · rfl

/-- An update by anybody else happens in both runs. -/
theorem erasedChain_update (h : Erased t S S') {key : RecordKey}
    (hcall : call.version? = some (key, version)) (hversion : version.txId ≠ t) (key' : RecordKey) :
    ErasedChain t ((S.step call).chain key') ((S'.step call).chain key') := by
  rw [step_of_version? S hcall, step_of_version? S' hcall]
  by_cases hk : key' = key
  · subst hk
    have hactive : S'.Active version.txId ↔ S.Active version.txId := by rw [Active, h.status]
    have hchain := h.chains key'
    rw [chain_update_self, chain_update_self]
    split
    · rename_i hfound
      split
      · exact erasedChain_cover hchain hversion
      · -- only the first run has the record that is deleted
        rename_i hmissing
        obtain ⟨hdeleted, hempty⟩ := Classical.not_imp.mp
          fun hfound' => hmissing ⟨hactive.mpr hfound.1, hfound'⟩
        rw [not_not.mp hempty] at hchain ⊢
        exact erasedChain_tombstone hchain hversion ((unmarked_of_version? hcall).2 hdeleted)
    · rename_i hmissing
      rw [if_neg]
      · exact hchain
      · -- what the first run does not have, the second has not either
        rintro ⟨hactive', hfound'⟩
        refine hmissing ⟨hactive.mp hactive', fun hdeleted hempty => hfound' hdeleted ?_⟩
        obtain ⟨tombstones, heq, -⟩ := hchain
        rw [hempty] at heq
        simpa using (append_eq_nil_iff.mp heq.symm).1
  · rw [chain_update_of_ne S hk, chain_update_of_ne S' hk]
    exact h.chains key'

theorem erased_step (h : Erased t S S') (hcall : call.isUpdateBy t = false)
    (hvacuum : call.isVacuum = false) : Erased t (S.step call) (S'.step call) := by
  suffices hstep : (S'.step call).seq = (S.step call).seq ∧
      (S'.step call).status = (S.step call).status ∧
      ∀ key, ErasedChain t ((S.step call).chain key) ((S'.step call).chain key) from
    ⟨coherent_step h.coherent call, coherent_step h.coherent' call,
      stamped_step h.coherent h.stamped hvacuum, stamped_step h.coherent' h.stamped' hvacuum,
      hstep.1, hstep.2.1, hstep.2.2⟩
  have hactive : ∀ u, S'.Active u ↔ S.Active u := fun u => by rw [Active, h.status]
  have hupdate : ∀ key version, call.version? = some (key, version) →
      (S'.step call).seq = (S.step call).seq ∧ (S'.step call).status = (S.step call).status ∧
        ∀ key', ErasedChain t ((S.step call).chain key') ((S'.step call).chain key') := by
    intro key version hversion
    have hne : version.txId ≠ t := by simpa [MvccCall.isUpdateBy, hversion] using hcall
    have hchains := erasedChain_update h hversion hne
    rw [step_of_version? S hversion, step_of_version? S' hversion] at hchains ⊢
    refine ⟨?_, ?_, hchains⟩
    · split <;> split <;> exact h.seq
    · split <;> split <;> exact h.status
  cases call with
  | beginTransaction => exact ⟨by simp [step, begin, h.seq], by simp [step, begin, h.seq, h.status],
      h.chains⟩
  | writeRecord => exact hupdate _ _ rfl
  | deleteRecord => exact hupdate _ _ rfl
  | commitTransaction u =>
    simp only [step, hactive]
    split
    · exact ⟨h.seq, by simp [commit, h.status], h.chains⟩
    · exact ⟨h.seq, h.status, h.chains⟩
  | rollbackTransaction u =>
    simp only [step, hactive]
    split
    · exact ⟨h.seq, by simp [rollback, h.status],
        fun key => erasedChain_rollback (h.chains key) u⟩
    · exact ⟨h.seq, h.status, h.chains⟩
  | vacuum => cases hvacuum

theorem erased_run (h : Erased t S S') {calls : List (MvccCall δ)}
    (hvacuum : ∀ call ∈ calls, call.isVacuum = false) :
    Erased t (Run.run step S calls) (Run.run step S' (withoutUpdatesBy t calls)) := by
  induction calls generalizing S S' with
  | nil => exact h
  | cons call rest ih =>
    rw [forall_mem_cons] at hvacuum
    cases hcall : call.isUpdateBy t with
    | true =>
      have hskip : withoutUpdatesBy t (call :: rest) = withoutUpdatesBy t rest := by
        simp [withoutUpdatesBy, hcall]
      rw [hskip]
      exact ih (erased_own_update h hcall) hvacuum.2
    | false =>
      have hkeep : withoutUpdatesBy t (call :: rest) = call :: withoutUpdatesBy t rest := by
        simp [withoutUpdatesBy, hcall]
      rw [hkeep]
      exact ih (erased_step h hcall hvacuum.1) hvacuum.2

theorem erased_init (t : ℕ) : Erased t (init : VersionStore δ) init where
  coherent := coherent_init
  coherent' := coherent_init
  stamped key newer v older hsplit := by simp [init] at hsplit
  stamped' key newer v older hsplit := by simp [init] at hsplit
  seq := rfl
  status := rfl
  chains _ := ⟨[], rfl, by simp⟩

/-! ## Reading -/

/-- **A reader does not notice the erasure**, as long as `t` has not committed and
the reader was not rolled back itself. -/
theorem Erased.read_eq (h : Erased t S S') (ht : S.status t ≠ some .committed) {reader : ℕ}
    (hreader : reader ≠ t) (hrolled : S.status reader ≠ some .rolledBack) (key : RecordKey) :
    S.read key reader = S'.read key reader := by
  obtain ⟨tombstones, hchain, htombstones⟩ := h.chains key
  have hsees : S'.seesWriter reader = S.seesWriter reader := by
    funext writer
    simp only [seesWriter, isTxCommitted_congr (congrFun h.status writer)]
  -- the reader passes over the versions of `t`
  have hskip : ∀ v ∈ (S.chain key).map (·.unmarked), S.seesWriter reader v.txId = true →
      v.txId ≠ t := by
    rintro v hv hseen rfl
    obtain ⟨w, hw, rfl⟩ := mem_map.mp hv
    rw [RecordVersion.txId_unmarked] at hseen hreader ht
    have hcommitted : S.isTxCommitted w.txId = false :=
      Bool.eq_false_iff.mpr fun h' => ht ((isTxCommitted_writer h.coherent hw).mp h')
    simp [seesWriter, hreader.symm, hcommitted] at hseen
  calc S.read key reader
      = firstValue (S.seesWriter reader) (S.chain key) := (h.stamped key).readChain_eq hrolled
    _ = firstValue (S.seesWriter reader) ((S.chain key).map (·.unmarked)) :=
        (firstValue_map_unmarked _ _).symm
    _ = firstValue (S.seesWriter reader) (others t (S.chain key)) :=
        (firstValue_filter (q := fun writer => decide (writer ≠ t))
          fun v hv hseen => decide_eq_true (hskip v hv hseen)).symm
    _ = firstValue (S.seesWriter reader) ((S'.chain key).map (·.unmarked)) := by
        rw [hchain, firstValue_append_tombstones _ htombstones]
    _ = firstValue (S'.seesWriter reader) (S'.chain key) := by
        rw [hsees, firstValue_map_unmarked]
    _ = S'.read key reader :=
        ((h.stamped' key).readChain_eq (by rwa [h.status])).symm

end VersionStore

/-- **Rollback erases a transaction.**  If `t` ends rolled back, every read by another
transaction that is not rolled back itself gives, wherever in the run it happens,
what it gives in the run without the writes and deletions of `t`. -/
theorem rollback_erases (calls : List (MvccCall δ))
    (hvacuum : ∀ call ∈ calls, call.isVacuum = false) (t : ℕ)
    (ht : (Run.run step .init calls).statusOf t = some .rolledBack)
    (first second : List (MvccCall δ)) (hsplit : calls = first ++ second) (reader : ℕ)
    (hreader : reader ≠ t) (hrolled : (Run.run step .init first).statusOf reader ≠ some .rolledBack)
    (table recordId : String) :
    (Run.run step .init first).readRecord table recordId reader =
      (Run.run step .init (withoutUpdatesBy t first)).readRecord table recordId reader := by
  subst hsplit
  have herased : VersionStore.Erased t (Run.run VersionStore.step .init first)
      (Run.run VersionStore.step .init (withoutUpdatesBy t first)) :=
    VersionStore.erased_run (VersionStore.erased_init t)
      fun call hcall => hvacuum call (mem_append_left _ hcall)
  rw [MvccEngine.readRecord_eq, MvccEngine.readRecord_eq]
  rw [← MvccEngine.denote_run, ← MvccEngine.denote_run] at herased
  refine herased.read_eq (fun hcommitted => ?_) hreader hrolled ⟨table, recordId⟩
  -- a committed transaction stays committed
  rw [MvccEngine.denote_run] at hcommitted
  have hend := VersionStore.finished_run (VersionStore.coherent_run first) second (by decide)
    hcommitted
  rw [← Run.run_append, ← MvccEngine.denote_run] at hend
  have := hend.symm.trans ht
  cases this

/-- Transaction 2 overwrites a committed record and is rolled back. -/
theorem rollback_erases_overwrite :
    (Run.run step (.init : MvccEngine String) [.beginTransaction .snapshotIsolation,
      .writeRecord "users" "usr_100" "Alice" 1, .commitTransaction 1,
      .beginTransaction .snapshotIsolation, .writeRecord "users" "usr_100" "Bob" 2,
      .rollbackTransaction 2, .beginTransaction .snapshotIsolation]).readRecord "users"
        "usr_100" 3 =
    (Run.run step (.init : MvccEngine String) [.beginTransaction .snapshotIsolation,
      .writeRecord "users" "usr_100" "Alice" 1, .commitTransaction 1,
      .beginTransaction .snapshotIsolation, .rollbackTransaction 2,
      .beginTransaction .snapshotIsolation]).readRecord "users" "usr_100" 3 :=
  rollback_erases [.beginTransaction .snapshotIsolation,
      .writeRecord "users" "usr_100" "Alice" 1, .commitTransaction 1,
      .beginTransaction .snapshotIsolation, .writeRecord "users" "usr_100" "Bob" 2,
      .rollbackTransaction 2, .beginTransaction .snapshotIsolation]
    (by simp [MvccCall.isVacuum]) 2 (by decide) _ [] (append_nil _).symm 3 (by decide)
    (by decide) "users" "usr_100"

/-- Transactions 2 and 3 overwrite a committed record, and both are rolled back.  Then
transaction 3, if it still reads, finds its own stamp on the record only in the run in
which transaction 2 did not stamp it before. -/
theorem rolled_back_reader_sees_rollback :
    ¬ ∀ (calls : List (MvccCall String)) (t : ℕ), (∀ call ∈ calls, call.isVacuum = false) →
      (Run.run step .init calls).statusOf t = some .rolledBack →
      ∀ first second, calls = first ++ second → ∀ reader, reader ≠ t → ∀ table recordId,
      (Run.run step .init first).readRecord table recordId reader =
        (Run.run step .init (withoutUpdatesBy t first)).readRecord table recordId reader := by
  intro h
  have hread := h [.beginTransaction .snapshotIsolation,
    .writeRecord "users" "usr_100" "Alice" 1, .commitTransaction 1,
    .beginTransaction .snapshotIsolation, .beginTransaction .snapshotIsolation,
    .writeRecord "users" "usr_100" "Bob" 2, .writeRecord "users" "usr_100" "Carol" 3,
    .rollbackTransaction 3, .rollbackTransaction 2] 2 (by simp [MvccCall.isVacuum]) (by decide) _ []
    (append_nil _).symm 3 (by decide) "users" "usr_100"
  exact absurd hread (by decide)

end Lumi.Mvcc
