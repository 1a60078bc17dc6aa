import Lumi.Mvcc.Visibility

/-!
# The last writer wins

`commitTransaction` looks at the committing transaction only: it succeeds as long
as the transaction is active, whoever else wrote the same records.  So two
transactions that overlap may both update a record and both commit, and then
the order of their writes decides: whoever begins later reads the version that
was written last, whichever of the two committed first
(`overlapping_writers_last_write_wins`).
-/

namespace Lumi.Mvcc

open Function

variable {δ : Type*}

/-- The version that a write or a deletion prepends, and the record it is for. -/
def MvccCall.version? : MvccCall δ → Option (RecordKey × RecordVersion δ)
  | .writeRecord table recordId data txId =>
    some (⟨table, recordId⟩, ⟨recordId, txId, none, false, some data⟩)
  | .deleteRecord table recordId txId =>
    some (⟨table, recordId⟩, ⟨recordId, txId, none, true, none⟩)
  | _ => none

/-- The call is a write or a deletion of the record. -/
def MvccCall.Updates (call : MvccCall δ) (key : RecordKey) : Prop :=
  ∃ version, call.version? = some (key, version)

section

variable (calls : List (MvccCall δ))

/-- Both transactions are active in some state of the run. -/
def Overlap (s t : ℕ) : Prop :=
  ∃ first second, calls = first ++ second ∧ (Run.run step .init first).denote.Active s ∧
    (Run.run step .init first).denote.Active t

/-- Some commit of the transaction answers `true`. -/
def CommitSucceeds (t : ℕ) : Prop :=
  ∃ first second, calls = first ++ .commitTransaction t :: second ∧
    ((Run.run step .init first).commitTransaction t).1 = true

/-- Of two overlapping writers of one record at most one commits. -/
def FirstCommitterWins : Prop :=
  ∀ s t key, s ≠ t → Overlap calls s t → key ∈ (Run.run step .init calls).writtenBy s →
    key ∈ (Run.run step .init calls).writtenBy t →
    ¬ (CommitSucceeds calls s ∧ CommitSucceeds calls t)

end

namespace VersionStore

open MvccEngine (markHead)

/-- The newest version of the record is the transaction's, and holds `value`; or
there is no version, and `value` is no value. -/
def Topped (S : VersionStore δ) (key : RecordKey) (t : ℕ) (value : Option δ) : Prop :=
  (S.chain key = [] ∧ value = none) ∨
    ∃ v rest, S.chain key = v :: rest ∧ v.txId = t ∧ v.deletedTxId = none ∧ v.value = value

variable {key : RecordKey}

variable {version : RecordVersion δ} {call : MvccCall δ}

theorem unmarked_of_version? (hcall : call.version? = some (key, version)) :
    version.deletedTxId = none ∧ (version.isDeleted = true → version.value = none) := by
  cases call with
  | writeRecord =>
    cases hcall
    exact ⟨rfl, by simp⟩
  | deleteRecord =>
    cases hcall
    exact ⟨rfl, fun _ => rfl⟩
  | _ => cases hcall

/-- An update by an active writer covers the chain; only the deletion of a record
without a version does nothing. -/
theorem step_of_version? (S : VersionStore δ) (hcall : call.version? = some (key, version)) :
    S.step call =
      if S.Active version.txId ∧ (version.isDeleted = true → S.chain key ≠ []) then
        S.cover key version
      else S := by
  cases call with
  | writeRecord =>
    cases hcall
    simp [step]
  | deleteRecord =>
    cases hcall
    simp [step]
  | _ => cases hcall

variable {S : VersionStore δ}

/-- A writer that is active tops the record. -/
theorem topped_update (hcall : call.version? = some (key, version))
    (hactive : S.Active version.txId) : (S.step call).Topped key version.txId version.value := by
  obtain ⟨hmark, hvalue⟩ := unmarked_of_version? hcall
  rw [step_of_version? S hcall]
  split
  · exact .inr ⟨version, markHead version.txId (S.chain key), by simp [cover], rfl, hmark, rfl⟩
  · rename_i hnot
    obtain ⟨hdeleted, hempty⟩ := Classical.not_imp.mp fun h => hnot ⟨hactive, h⟩
    exact .inl ⟨not_not.mp hempty, hvalue hdeleted⟩

variable {value : Option δ}

/-- A call that does not update the record, nor rolls the writer back, leaves it topped. -/
theorem topped_step {t : ℕ} (h : S.Topped key t value) (hcall : ¬ call.Updates key)
    (hvacuum : call.isVacuum = false) (hrolled : (S.step call).status t ≠ some .rolledBack) :
    (S.step call).Topped key t value := by
  -- the chain stays what it is, unless somebody else is rolled back
  have hsame : (S.step call).chain key = S.chain key → (S.step call).Topped key t value := by
    intro heq
    rwa [Topped, heq]
  cases call with
  | beginTransaction => exact hsame rfl
  | writeRecord table recordId data txId =>
    refine hsame ?_
    have hne : key ≠ ⟨table, recordId⟩ := by
      rintro rfl
      exact hcall ⟨_, rfl⟩
    simp only [step]
    split
    · simp only [cover, update_of_ne hne]
    · rfl
  | deleteRecord table recordId txId =>
    refine hsame ?_
    have hne : key ≠ ⟨table, recordId⟩ := by
      rintro rfl
      exact hcall ⟨_, rfl⟩
    simp only [step]
    split
    · simp only [cover, update_of_ne hne]
    · rfl
  | commitTransaction =>
    refine hsame ?_
    simp only [step]
    split <;> rfl
  | rollbackTransaction txId =>
    simp only [step] at hrolled hsame ⊢
    split at hrolled
    · rename_i hactive
      rw [if_pos hactive]
      have hne : t ≠ txId := by
        rintro rfl
        exact hrolled (update_self ..)
      rcases h with ⟨hempty, hvalue⟩ | ⟨v, rest, hchain, hwriter, hmark, hvalue⟩
      · exact .inl ⟨by simp [rollback, hempty], hvalue⟩
      · refine .inr ⟨v, rest.filter fun v => v.txId ≠ txId, ?_, hwriter, hmark, hvalue⟩
        simp [rollback, hchain, hwriter, hne]
    · rename_i hactive
      exact hsame (by rw [if_neg hactive])
  | vacuum => cases hvacuum

theorem topped_run (hcoherent : S.Coherent) {calls : List (MvccCall δ)} {t : ℕ}
    (h : S.Topped key t value) (hcalls : ∀ call ∈ calls, ¬ call.Updates key)
    (hvacuum : ∀ call ∈ calls, call.isVacuum = false)
    (hrolled : (Run.run step S calls).status t ≠ some .rolledBack) :
    (Run.run step S calls).Topped key t value := by
  induction calls generalizing S with
  | nil => exact h
  | cons call rest ih =>
    rw [List.forall_mem_cons] at hcalls hvacuum
    have hnext := coherent_step hcoherent call
    refine ih hnext (topped_step h hcalls.1 hvacuum.1 fun hback => hrolled ?_) hcalls.2
      hvacuum.2 hrolled
    exact finished_run hnext rest (by decide) hback

/-- A transaction that begins after the commit reads what tops the record. -/
theorem Topped.read_begin (hcoherent : S.Coherent) {t : ℕ} (h : S.Topped key t value)
    (ht : S.status t = some .committed) : S.begin.read key (S.seq + 1) = value := by
  have hle := ((hcoherent.known t).mp (by simp [ht])).2
  have hne : t ≠ S.seq + 1 := by omega
  rcases h with ⟨hempty, rfl⟩ | ⟨v, rest, hchain, hwriter, hmark, rfl⟩
  · simp [read, begin, hempty]
  · have hcommitted : S.begin.isTxCommitted t = true := by
      simp [isTxCommitted, begin, update_of_ne hne, ht]
    have hsees : S.begin.sees (S.seq + 1) v = true := by
      simp only [sees, seesWriter, hwriter, hcommitted, Bool.true_and, Bool.or_eq_true,
        decide_eq_true_eq]
      omega
    have hchain' : S.begin.chain key = v :: rest := hchain
    rw [read, hchain', readChain_cons_of_sees hsees]
    simp [deletedFor, hmark]

end VersionStore

theorem commitTransaction_eq_true_iff (e : MvccEngine δ) (t : ℕ) :
    (e.commitTransaction t).1 = true ↔ e.denote.Active t := by
  unfold MvccEngine.commitTransaction
  cases htx : e.transactions.get? t with
  | none => simp [MvccEngine.not_active_of_get?_eq_none htx]
  | some tx => by_cases hactive : tx.status = .active <;>
      simp [MvccEngine.active_denote_iff htx, hactive]

/-- **The last writer wins.**  A commit succeeds exactly if its transaction is still
active.  Of two transactions that were active together and updated one record both
commit, if neither is rolled back, and the later update is what every transaction
that begins afterwards reads. -/
theorem overlapping_writers_last_write_wins (calls : List (MvccCall δ)) :
    (∀ first t second, calls = first ++ .commitTransaction t :: second →
      (((Run.run step .init first).commitTransaction t).1 = true ↔
        (Run.run step .init first).statusOf t = some .active)) ∧
    ∀ before call after, calls = before ++ call :: after →
      (∀ call ∈ calls, call.isVacuum = false) → ∀ key version,
      call.version? = some (key, version) →
      (Run.run step .init before).statusOf version.txId = some .active →
      (∀ call ∈ after, ¬ call.Updates key) →
      (Run.run step .init calls).statusOf version.txId = some .committed → ∀ isolationLevel,
      (Run.run step .init (calls ++ [.beginTransaction isolationLevel])).readRecord key.table
        key.recordId ((Run.run step .init calls).currentTxSeq + 1) = version.value := by
  refine ⟨fun first t _ _ => commitTransaction_eq_true_iff _ t, ?_⟩
  rintro before call after rfl hvacuum key version hcall hactive hafter hcommitted isolationLevel
  have hcoherent := MvccEngine.coherent_run (before ++ call :: after)
  have htopped : (Run.run step .init (before ++ call :: after)).denote.Topped key version.txId
      version.value := by
    have hrun : (Run.run step .init (before ++ call :: after)).denote =
        Run.run VersionStore.step ((Run.run VersionStore.step .init before).step call) after := by
      rw [MvccEngine.denote_run, Run.run_append, Run.run_cons]
    rw [hrun]
    refine VersionStore.topped_run
      (VersionStore.coherent_step (VersionStore.coherent_run before) call)
      (VersionStore.topped_update hcall ?_) hafter
      (fun call hcall => hvacuum call (by simp [hcall])) ?_
    · rw [← MvccEngine.denote_run]
      exact hactive
    · rw [← hrun]
      simp [MvccEngine.denote, hcommitted]
  rw [MvccEngine.readRecord_eq, Run.run_append, Run.run_cons, Run.run_nil, step,
    MvccEngine.denote_beginTransaction]
  exact htopped.read_begin hcoherent hcommitted

/-- Bob is written last and stays, although the writer of Alice commits last. -/
theorem last_write_wins_over_last_commit :
    (Run.run step (.init : MvccEngine String) [.beginTransaction .snapshotIsolation,
      .beginTransaction .snapshotIsolation, .writeRecord "users" "usr_100" "Alice" 1,
      .writeRecord "users" "usr_100" "Bob" 2, .commitTransaction 2, .commitTransaction 1,
      .beginTransaction .snapshotIsolation]).readRecord "users" "usr_100" 3 = some "Bob" :=
  (overlapping_writers_last_write_wins [.beginTransaction .snapshotIsolation,
    .beginTransaction .snapshotIsolation, .writeRecord "users" "usr_100" "Alice" 1,
    .writeRecord "users" "usr_100" "Bob" 2, .commitTransaction 2, .commitTransaction 1]).2
    [.beginTransaction .snapshotIsolation, .beginTransaction .snapshotIsolation,
      .writeRecord "users" "usr_100" "Alice" 1] (.writeRecord "users" "usr_100" "Bob" 2)
    [.commitTransaction 2, .commitTransaction 1] rfl (by simp [MvccCall.isVacuum])
    ⟨"users", "usr_100"⟩ ⟨"usr_100", 2, none, false, some "Bob"⟩ rfl (by decide)
    (by simp [MvccCall.Updates, MvccCall.version?]) (by decide) .snapshotIsolation

/-- Two writers of one record, active together: both commits answer `true`. -/
theorem both_overlapping_writers_commit :
    ¬ FirstCommitterWins ([.beginTransaction .snapshotIsolation,
      .beginTransaction .snapshotIsolation, .writeRecord "users" "usr_100" "Alice" 1,
      .writeRecord "users" "usr_100" "Bob" 2, .commitTransaction 1,
      .commitTransaction 2] : List (MvccCall String)) := by
  intro h
  refine h 1 2 ⟨"users", "usr_100"⟩ (by decide) ⟨[.beginTransaction .snapshotIsolation,
    .beginTransaction .snapshotIsolation], _, rfl, by decide, by decide⟩ (by decide) (by decide)
    ⟨⟨[.beginTransaction .snapshotIsolation, .beginTransaction .snapshotIsolation,
      .writeRecord "users" "usr_100" "Alice" 1, .writeRecord "users" "usr_100" "Bob" 2],
      [.commitTransaction 2], rfl, by decide⟩,
    ⟨[.beginTransaction .snapshotIsolation, .beginTransaction .snapshotIsolation,
      .writeRecord "users" "usr_100" "Alice" 1, .writeRecord "users" "usr_100" "Bob" 2,
      .commitTransaction 1], [], rfl, by decide⟩⟩

end Lumi.Mvcc
