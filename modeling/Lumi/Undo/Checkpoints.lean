import Lumi.Undo.ToolTransactionJournal

/-!
# What a checkpoint restores

A checkpoint is a number of transactions.  Taking back what lies behind it leads to the files as
they were, as long as the number keeps its meaning: nothing in front of it is taken back, and
what goes from behind it does not take its file past a transaction that stays.
-/

namespace Lumi.Undo

open Js Run List

variable (cwd : Text)

/-- Two transactions that bring the same file back to different contents. -/
def Disturbs (earlier later : MutationTransaction) : Prop :=
  fileAt cwd earlier.targetPath = fileAt cwd later.targetPath ∧ earlier.restored? ≠ none ∧
    later.restored? ≠ none ∧ earlier.restored? ≠ later.restored?

instance (earlier later : MutationTransaction) : Decidable (Disturbs cwd earlier later) :=
  inferInstanceAs (Decidable (_ ∧ _))

/-- Taking back the transaction settles what the file holds. -/
def Settles (tx : MutationTransaction) (path : Text) : Prop :=
  fileAt cwd tx.targetPath = fileAt cwd path ∧ tx.restored? ≠ none

instance (tx : MutationTransaction) (path : Text) : Decidable (Settles cwd tx path) :=
  inferInstanceAs (Decidable (_ ∧ _))

/-- **The steps that leave the checkpoint its meaning.**  A file that changes has been recorded
behind the checkpoint, and the record is still there; what is taken back lies behind it; a turn
that is taken back leaves no later transaction that its own ones disturb. -/
def KeepsCheckpoint (id : Text) (count : ℕ) (s : Workspace) : JournalAction → Prop
  | .apply path content =>
    s.files.read cwd path = content ∨
      ∃ tx ∈ s.journal.transactions.drop count, Settles cwd tx path
  | .rollbackLast =>
    s.journal.transactions = [] ∨ count < s.journal.transactions.length
  | .rollbackTurn targetTurnId =>
    let turnId := targetTurnId.getD s.journal.currentTurnId
    (∀ tx ∈ s.journal.transactions.take count, tx.turnId ≠ turnId) ∧
      (s.journal.transactions.drop count).Pairwise fun earlier later =>
        earlier.turnId = turnId → later.turnId ≠ turnId → ¬Disturbs cwd earlier later
  | .createCheckpoint id' _ _ => id' ≠ id
  | .restoreCheckpoint id' =>
    ∀ checkpoint, s.journal.checkpoints.get? id' = some checkpoint →
      count ≤ checkpoint.transactionCount
  | _ => True

instance (id : Text) (count : ℕ) (s : Workspace) :
    (a : JournalAction) → Decidable (KeepsCheckpoint cwd id count s a)
  | .apply .. => inferInstanceAs (Decidable (_ ∨ _))
  | .rollbackLast => inferInstanceAs (Decidable (_ ∨ _))
  | .rollbackTurn _ => inferInstanceAs (Decidable (_ ∧ _))
  | .createCheckpoint .. => inferInstanceAs (Decidable (_ ≠ _))
  | .restoreCheckpoint id' =>
    inferInstanceAs (Decidable (∀ checkpoint ∈ s.journal.checkpoints.get? id', _))
  | .setTurnId _ | .recordFileMutation .. | .recordFileDeletion .. => isTrue trivial

/-! ## Taking back transactions -/

section

variable {cwd} {tx : MutationTransaction} {files : Files}

theorem put_read (path : Text) : files.put cwd path (files.read cwd path) = files :=
  Function.update_eq_self _ files

theorem revert_recorded {path : Text} (hpath : tx.targetPath = path)
    (h : tx.restored? = some (files.read cwd path)) : tx.revert cwd files = files := by
  rw [MutationTransaction.revert, h, hpath]
  exact put_read path

theorem mutation_restored? (journal : ToolTransactionJournal) (files : Files)
    (id toolName targetPath : Text) (newContent : Option Text) (timestamp : ℚ) :
    (journal.mutation cwd files id toolName targetPath newContent timestamp).restored? =
      some (files.read cwd (PosixPath.normalize targetPath)) := by
  cases hread : files.read cwd (PosixPath.normalize targetPath) <;>
    simp [MutationTransaction.restored?, ToolTransactionJournal.mutation, hread]

theorem deletion_restored? {journal : ToolTransactionJournal} {id toolName targetPath : Text}
    {timestamp : ℚ} {content : Text}
    (hread : files.read cwd (PosixPath.normalize targetPath) = some content) :
    (journal.deletion cwd files id toolName targetPath timestamp).restored? =
      some (files.read cwd (PosixPath.normalize targetPath)) := by
  simp [MutationTransaction.restored?, ToolTransactionJournal.deletion, hread]

variable {files' : Files}

theorem revert_put_of_settles {path : Text} (h : Settles cwd tx path)
    (hsame : ∀ file, file ≠ fileAt cwd path → files' file = files file) :
    tx.revert cwd files' = tx.revert cwd files := by
  obtain ⟨content, hcontent⟩ := Option.ne_none_iff_exists'.mp h.2
  simp only [MutationTransaction.revert, hcontent, Files.put, h.1]
  funext file
  rcases eq_or_ne file (fileAt cwd path) with rfl | hne
  · simp
  · simp [hne, hsame file hne]

/-- Taking back keeps the agreement of two contents everywhere but on one file. -/
theorem revert_agree {file : File} (hsame : ∀ other, other ≠ file → files' other = files other) :
    ∀ other, other ≠ file → tx.revert cwd files' other = tx.revert cwd files other := by
  intro other hother
  unfold MutationTransaction.revert
  cases tx.restored? with
  | none => exact hsame other hother
  | some content =>
    rcases eq_or_ne other (fileAt cwd tx.targetPath) with rfl | hne
    · simp [Files.put]
    · simp [Files.put, hne, hsame other hother]

theorem revertAll_agree {file : File} (hsame : ∀ other, other ≠ file → files' other = files other)
    (txs : List MutationTransaction) :
    ∀ other, other ≠ file →
      ToolTransactionJournal.revertAll cwd txs files' other =
        ToolTransactionJournal.revertAll cwd txs files other := by
  induction txs with
  | nil => exact hsame
  | cons tx txs ih => exact revert_agree ih

/-- What a file holds does not matter once a transaction settles it. -/
theorem revertAll_put {path : Text} (content : Option Text) {txs : List MutationTransaction}
    (h : ∃ tx ∈ txs, Settles cwd tx path) :
    ToolTransactionJournal.revertAll cwd txs (files.put cwd path content) =
      ToolTransactionJournal.revertAll cwd txs files := by
  induction txs with
  | nil => simp at h
  | cons tx txs ih =>
    have hoff : ∀ other, other ≠ fileAt cwd path →
        files.put cwd path content other = files other := fun other hne => by
      simp [Files.put, hne]
    obtain ⟨settling, hmem, hsettles⟩ := h
    rcases mem_cons.mp hmem with rfl | hmem
    · exact revert_put_of_settles hsettles (revertAll_agree hoff txs)
    · exact congrArg (tx.revert cwd) (ih ⟨settling, hmem, hsettles⟩)

theorem commute_of_not_disturbs {earlier later : MutationTransaction}
    (h : ¬Disturbs cwd earlier later) :
    UndoLog.Commute (MutationTransaction.revert cwd) earlier later := by
  intro files
  unfold MutationTransaction.revert
  cases hearlier : earlier.restored? with
  | none => rfl
  | some content =>
    cases hlater : later.restored? with
    | none => rfl
    | some content' =>
      simp only [Files.put]
      by_cases hfile : fileAt cwd earlier.targetPath = fileAt cwd later.targetPath
      · have hsame : content = content' := by
          by_contra hne
          refine h ⟨hfile, ?_, ?_, ?_⟩ <;> simp [hearlier, hlater, hne]
        rw [hfile, hsame]
      · exact Function.update_comm (Ne.symm hfile) _ _ _

end

/-! ## One step -/

/-- The checkpoint counts transactions that are still there, and taking back what lies behind
them leads to these files. -/
structure Restores (id : Text) (count : ℕ) (files : Files) (s : Workspace) : Prop where
  counted : ∃ checkpoint, s.journal.checkpoints.get? id = some checkpoint ∧
    checkpoint.transactionCount = count
  behind : count ≤ s.journal.transactions.length
  leads : ToolTransactionJournal.revertAll cwd (s.journal.transactions.drop count) s.files = files

section

variable {cwd} {id : Text} {count : ℕ} {files : Files} {s : Workspace}

theorem restores_created (s : Workspace) (id : Text) (label : Option Text) (timestamp : ℚ) :
    Restores cwd id s.journal.transactions.length s.files
      (s.step cwd (.createCheckpoint id label timestamp)) where
  counted := ⟨_, InsertionMap.get?_set_self _ _ _, rfl⟩
  behind := le_rfl
  leads := by
    change ToolTransactionJournal.revertAll cwd (s.journal.transactions.drop _) s.files = s.files
    rw [drop_length]
    rfl

section

variable (h : Restores cwd id count files s)
include h

/-- A transaction that records the present content changes nothing behind the checkpoint. -/
theorem Restores.record (tx : MutationTransaction) (htx : tx.revert cwd s.files = s.files) :
    Restores cwd id count files { s with journal := s.journal.push tx } where
  counted := h.counted
  behind := by
    rw [ToolTransactionJournal.push, length_append]
    exact Nat.le_add_right_of_le h.behind
  leads := by
    change ToolTransactionJournal.revertAll cwd ((s.journal.transactions ++ [tx]).drop count) _ = _
    rw [drop_append_of_le_length h.behind]
    exact (UndoLog.undo_concat _ htx).trans h.leads

theorem Restores.rollbackLast
    (hguard : s.journal.transactions = [] ∨ count < s.journal.transactions.length) :
    Restores cwd id count files (s.step cwd .rollbackLast) := by
  rcases eq_nil_or_concat s.journal.transactions with hnil | ⟨front, last, hlast⟩
  · simpa [Workspace.step, ToolTransactionJournal.rollbackLast, hnil] using h
  · rw [concat_eq_append] at hlast
    have hlength : s.journal.transactions.length = front.length + 1 := by simp [hlast]
    have hfront : count ≤ front.length := by
      rcases hguard with hnil | hlt
      · simp [hnil] at hlast
      · omega
    have hstep : s.step cwd .rollbackLast =
        ⟨{ s.journal with transactions := front }, last.revert cwd s.files⟩ := by
      simp [Workspace.step, ToolTransactionJournal.rollbackLast, hlast]
    rw [hstep]
    refine ⟨h.counted, hfront, ?_⟩
    calc ToolTransactionJournal.revertAll cwd (front.drop count) (last.revert cwd s.files)
        = ToolTransactionJournal.revertAll cwd (front.drop count ++ [last]) s.files :=
          (UndoLog.undo_append (front.drop count) [last] s.files).symm
      _ = ToolTransactionJournal.revertAll cwd (s.journal.transactions.drop count) s.files := by
          rw [hlast, drop_append_of_le_length hfront]
      _ = files := h.leads

theorem Restores.rollbackTurn {targetTurnId : Option Text}
    (hguard : KeepsCheckpoint cwd id count s (.rollbackTurn targetTurnId)) :
    Restores cwd id count files (s.step cwd (.rollbackTurn targetTurnId)) := by
  obtain ⟨hfront, hbehind⟩ := hguard
  simp only [Workspace.step, ToolTransactionJournal.rollbackTurn]
  generalize targetTurnId.getD s.journal.currentTurnId = turnId at hfront hbehind
  split_ifs with hnone
  · exact h
  -- nothing goes in front of the checkpoint, so what goes lies behind it
  have hsplit := take_append_drop count s.journal.transactions
  have htake : (s.journal.transactions.take count).filter (·.turnId = turnId) = [] := by
    rw [filter_eq_nil_iff]
    exact fun tx htx => by simpa using hfront tx htx
  have hstay : (s.journal.transactions.take count).filter (·.turnId ≠ turnId) =
      s.journal.transactions.take count := by
    rw [filter_eq_self]
    exact fun tx htx => by simpa using hfront tx htx
  have hgone : s.journal.transactions.filter (·.turnId = turnId) =
      (s.journal.transactions.drop count).filter (·.turnId = turnId) := by
    conv_lhs => rw [← hsplit, filter_append, htake, nil_append]
  have hkept : s.journal.transactions.filter (·.turnId ≠ turnId) =
      s.journal.transactions.take count ++
        (s.journal.transactions.drop count).filter (·.turnId ≠ turnId) := by
    conv_lhs => rw [← hsplit, filter_append, hstay]
  have hlength : (s.journal.transactions.take count).length = count := by
    rw [length_take, Nat.min_eq_left h.behind]
  refine ⟨h.counted, ?_, ?_⟩
  · change count ≤ (s.journal.transactions.filter (·.turnId ≠ turnId)).length
    rw [hkept, length_append, hlength]
    exact Nat.le_add_right _ _
  · change ToolTransactionJournal.revertAll cwd
      ((s.journal.transactions.filter (·.turnId ≠ turnId)).drop count)
      (ToolTransactionJournal.revertAll cwd
        (s.journal.transactions.filter (·.turnId = turnId)) s.files) = files
    rw [hkept, hgone, drop_left' hlength, ← h.leads]
    have hthin := @UndoLog.undo_thin _ _ (MutationTransaction.revert cwd)
      (fun tx => decide (tx.turnId = turnId)) _ (hbehind.imp fun hpair hgoes hstays =>
        commute_of_not_disturbs (hpair (by simpa using hgoes) (by simpa using hstays))) s.files
    simpa [ToolTransactionJournal.revertAll] using hthin

theorem Restores.restoreCheckpoint {checkpointId : Text}
    (hguard : KeepsCheckpoint cwd id count s (.restoreCheckpoint checkpointId)) :
    Restores cwd id count files (s.step cwd (.restoreCheckpoint checkpointId)) := by
  simp only [Workspace.step, ToolTransactionJournal.restoreCheckpoint]
  cases hget : s.journal.checkpoints.get? checkpointId with
  | none => exact h
  | some checkpoint =>
    dsimp only
    split_ifs with hshort
    · exact h
    have hcount : count ≤ checkpoint.transactionCount := hguard checkpoint hget
    refine ⟨h.counted, ?_, ?_⟩
    · change count ≤ (s.journal.transactions.take checkpoint.transactionCount).length
      rw [length_take]
      exact Nat.le_min.mpr ⟨hcount, h.behind⟩
    · -- what lies behind the other checkpoint is the end of what lies behind this one
      have hsplit : (s.journal.transactions.take checkpoint.transactionCount).drop count ++
          s.journal.transactions.drop checkpoint.transactionCount =
            s.journal.transactions.drop count := by
        have hrest : s.journal.transactions.drop checkpoint.transactionCount =
            (s.journal.transactions.drop count).drop (checkpoint.transactionCount - count) := by
          rw [drop_drop, Nat.add_sub_cancel' hcount]
        rw [drop_take, hrest, take_append_drop]
      rw [← h.leads, ← hsplit]
      exact (UndoLog.undo_append _ _ _).symm

/-- **Step lemma.** -/
theorem Restores.step {a : JournalAction} (hguard : KeepsCheckpoint cwd id count s a) :
    Restores cwd id count files (s.step cwd a) := by
  cases a with
  | setTurnId turnId => exact ⟨h.counted, h.behind, h.leads⟩
  | recordFileMutation id' toolName targetPath newContent timestamp =>
    refine h.record _ (revert_recorded rfl ?_)
    exact mutation_restored? ..
  | recordFileDeletion id' toolName targetPath timestamp =>
    refine h.record _ ?_
    cases hread : s.files.read cwd (PosixPath.normalize targetPath) with
    | none =>
      rw [MutationTransaction.revert, MutationTransaction.restored?,
        ToolTransactionJournal.deletion, hread]
      rfl
    | some content => exact revert_recorded rfl (deletion_restored? hread)
  | apply path content =>
    refine ⟨h.counted, h.behind, ?_⟩
    rcases hguard with hsame | hsettles
    · change ToolTransactionJournal.revertAll cwd _ (s.files.put cwd path content) = files
      rw [← hsame, put_read]
      exact h.leads
    · exact (revertAll_put content hsettles).trans h.leads
  | rollbackLast => exact h.rollbackLast hguard
  | rollbackTurn targetTurnId => exact h.rollbackTurn hguard
  | createCheckpoint id' label timestamp =>
    refine ⟨?_, h.behind, h.leads⟩
    obtain ⟨checkpoint, hget, hcount⟩ := h.counted
    refine ⟨checkpoint, ?_, hcount⟩
    change (s.journal.checkpoints.set id' _).get? id = some checkpoint
    rw [InsertionMap.get?_set_of_ne _ _ (Ne.symm hguard), hget]
  | restoreCheckpoint checkpointId => exact h.restoreCheckpoint hguard

/-- What a restored checkpoint makes of the files. -/
theorem Restores.files_eq : (s.step cwd (.restoreCheckpoint id)).files = files := by
  obtain ⟨checkpoint, hget, rfl⟩ := h.counted
  simp only [Workspace.step, ToolTransactionJournal.restoreCheckpoint, hget]
  split_ifs with hshort
  · rw [← h.leads, drop_of_length_le hshort]
    rfl
  · exact h.leads

end

end

/-- **A checkpoint restores the files.**  Whatever the journal was when the checkpoint was made,
every run whose steps leave the checkpoint its meaning can be taken back to it. -/
theorem restoreCheckpoint_restores (s : Workspace) (id : Text) (label : Option Text)
    (timestamp : ℚ) {inputs : List JournalAction}
    (hkeeps : Guarded (Workspace.step cwd) (KeepsCheckpoint cwd id s.journal.transactions.length)
      (s.step cwd (.createCheckpoint id label timestamp)) inputs) :
    ((run (Workspace.step cwd) (s.step cwd (.createCheckpoint id label timestamp)) inputs).step cwd
      (.restoreCheckpoint id)).files = s.files :=
  (run_preserves (P := Restores cwd id s.journal.transactions.length s.files)
    (fun _ _ h hguard => h.step hguard) (restores_created s id label timestamp) hkeeps).files_eq

/-! ## Two runs -/

/-- A tool writes a file, which is recorded before. -/
def journaledWrite (id path content : Text) : List JournalAction :=
  [.recordFileMutation id (text "write_file") path (some content) 0, .apply path (some content)]

/-- A workspace with one written file. -/
def workspaceWithFile : Workspace :=
  run (Workspace.step (text "/w")) ⟨.new, fun _ => none⟩
    (journaledWrite (text "tx_1") (text "a") (text "old"))

theorem checkpoint_restored_over_writes :
    ((run (Workspace.step (text "/w"))
      (workspaceWithFile.step (text "/w") (.createCheckpoint (text "chk") none 1))
      (journaledWrite (text "tx_2") (text "./a") (text "new") ++
        journaledWrite (text "tx_3") (text "b") (text "more") ++ [.rollbackLast])).step (text "/w")
      (.restoreCheckpoint (text "chk"))).files = workspaceWithFile.files :=
  restoreCheckpoint_restores (text "/w") workspaceWithFile (text "chk") none 1 (by decide +kernel)

/-- The last mutation before the checkpoint is rolled back, another file is written, and the
checkpoint restores neither. -/
theorem checkpoint_misses_rolled_back_write :
    workspaceWithFile.files.read (text "/w") (text "a") = some (text "old") ∧
    workspaceWithFile.files.read (text "/w") (text "b") = none ∧
    let restored := (run (Workspace.step (text "/w"))
      (workspaceWithFile.step (text "/w") (.createCheckpoint (text "chk") none 1))
      (.rollbackLast :: journaledWrite (text "tx_2") (text "b") (text "new"))).step (text "/w")
        (.restoreCheckpoint (text "chk"))
    restored.files.read (text "/w") (text "a") = none ∧
      restored.files.read (text "/w") (text "b") = some (text "new") := by
  decide +kernel

end Lumi.Undo
