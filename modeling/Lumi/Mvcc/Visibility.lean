import Lumi.Mvcc.Simulation

/-!
# Deletion stamps without a vacuum

A writer stamps the version it covers, and `rollbackTransaction` leaves the
stamps of the transaction behind.  Without a vacuum the stamps carry no
information a reader does not have already: a stamp belongs either to a
transaction that was rolled back, or to one that has a version further up in the
same chain (`Stamped`).  So whoever would be turned away by the stamp has been
stopped by that newer version before, and a read is the value of the first
version seen (`StampedChain.readChain_eq`).  The one reader this argument excludes is a
transaction that was itself rolled back.
-/

open List Function

namespace Lumi.Mvcc
variable {δ : Type*}

open MvccEngine (markHead)

def MvccCall.isVacuum : MvccCall δ → Bool
  | .vacuum _ => true
  | _ => false

/-- A version without its stamp. -/
def RecordVersion.unmarked (v : RecordVersion δ) : RecordVersion δ := { v with deletedTxId := none }

@[simp] theorem RecordVersion.txId_unmarked (v : RecordVersion δ) : v.unmarked.txId = v.txId := rfl

@[simp] theorem RecordVersion.value_unmarked (v : RecordVersion δ) : v.unmarked.value = v.value :=
  rfl

theorem MvccEngine.map_unmarked_markHead (t : ℕ) (chain : List (RecordVersion δ)) :
    (markHead t chain).map (·.unmarked) = chain.map (·.unmarked) := by
  cases chain with
  | nil => rfl
  | cons v rest =>
    simp only [markHead, map_cons, List.cons.injEq, and_true]
    split <;> rfl

namespace VersionStore

/-- A stamp in `chain` is rolled back or repeats a newer version. -/
def StampedChain (S : VersionStore δ) (chain : List (RecordVersion δ)) : Prop :=
  ∀ newer v older, chain = newer ++ v :: older → ∀ d, v.deletedTxId = some d →
    S.status d = some .rolledBack ∨ ∃ w ∈ newer, w.txId = d

def Stamped (S : VersionStore δ) : Prop := ∀ key, S.StampedChain (S.chain key)

/-! ## Covering a chain -/

/-- A version of a filtered list was in the list, below the newer ones that stayed. -/
theorem exists_split_of_filter {α : Type*} {p : α → Bool} {l newer older : List α} {v : α}
    (h : l.filter p = newer ++ v :: older) :
    ∃ newer' older', l = newer' ++ v :: older' ∧ newer'.filter p = newer := by
  obtain ⟨first, second, rfl, hfirst, hsecond⟩ := filter_eq_append_iff.mp h
  obtain ⟨skipped, rest, rfl, hskipped, -, -⟩ := filter_eq_cons_iff.mp hsecond
  refine ⟨first ++ skipped, rest, by simp, ?_⟩
  rw [filter_append, hfirst, filter_eq_nil_iff.mpr hskipped, append_nil]

variable {S : VersionStore δ} {chain : List (RecordVersion δ)}

/-- Covering a stamped chain leaves it stamped. -/
theorem stampedChain_cover (h : S.StampedChain chain) {version : RecordVersion δ}
    (hmark : version.deletedTxId = none) :
    S.StampedChain (version :: markHead version.txId chain) := by
  intro newer v older hsplit d hd
  rcases cons_eq_append_iff.mp hsplit with ⟨rfl, hcons⟩ | ⟨newer', rfl, hcovered⟩
  · obtain ⟨rfl, -⟩ := cons_eq_cons.mp hcons
    simp [hmark] at hd
  cases chain with
  | nil => simp [markHead] at hcovered
  | cons head rest =>
    rcases cons_eq_append_iff.mp hcovered with ⟨rfl, hcons⟩ | ⟨below, rfl, hbelow⟩
    · -- the covered version: its stamp is old, or the one just made
      obtain ⟨rfl, rfl⟩ := cons_eq_cons.mp hcons
      split at hd
      · exact .inr ⟨version, mem_cons_self .., Option.some.inj hd⟩
      · rcases h [] head older rfl d hd with hrolled | ⟨w, hw, -⟩
        · exact .inl hrolled
        · simp at hw
    · rcases h (head :: below) v older (by rw [hbelow, cons_append]) d hd with
        hrolled | ⟨w, hw, hwd⟩
      · exact .inl hrolled
      · refine .inr ?_
        rcases mem_cons.mp hw with rfl | hw
        · refine ⟨_, mem_cons_of_mem _ (mem_cons_self ..), ?_⟩
          split <;> exact hwd
        · exact ⟨w, mem_cons_of_mem _ (mem_cons_of_mem _ hw), hwd⟩

/-- A status that is no longer active stays what it is. -/
theorem finished_step (hcoherent : S.Coherent) (call : MvccCall δ) {d : ℕ} {status : TxStatus}
    (hfinished : status ≠ .active) (hd : S.status d = some status) :
    (S.step call).status d = some status := by
  have hother : ∀ {t : ℕ} {status' : Option TxStatus}, S.status t ≠ some status →
      Function.update S.status t status' d = some status := by
    intro t status' ht
    have hne : d ≠ t := by
      rintro rfl
      exact ht hd
    rw [update_of_ne hne, hd]
  have hactive : ∀ {t : ℕ}, S.Active t → S.status t ≠ some status := by
    intro t ht heq
    exact hfinished (Option.some.inj (heq.symm.trans ht))
  cases call with
  | beginTransaction =>
    refine hother fun hnext => ?_
    have := ((hcoherent.known (S.seq + 1)).mp (by simp [hnext])).2
    omega
  | writeRecord =>
    simp only [step]
    split <;> exact hd
  | deleteRecord =>
    simp only [step]
    split <;> exact hd
  | commitTransaction txId =>
    simp only [step]
    split
    · exact hother (hactive ‹_›)
    · exact hd
  | rollbackTransaction txId =>
    simp only [step]
    split
    · exact hother (hactive ‹_›)
    · exact hd
  | vacuum => exact hd

theorem finished_run (hcoherent : S.Coherent) (calls : List (MvccCall δ)) {d : ℕ}
    {status : TxStatus} (hfinished : status ≠ .active) (hd : S.status d = some status) :
    (Run.run step S calls).status d = some status := by
  induction calls generalizing S with
  | nil => exact hd
  | cons call rest ih =>
    exact ih (coherent_step hcoherent call) (finished_step hcoherent call hfinished hd)

theorem rolledBack_step (hcoherent : S.Coherent) (call : MvccCall δ) (d : ℕ)
    (hd : S.status d = some .rolledBack) : (S.step call).status d = some .rolledBack :=
  finished_step hcoherent call (by decide) hd

theorem StampedChain.mono {S S' : VersionStore δ} (h : S.StampedChain chain)
    (hstatus : ∀ d, S.status d = some .rolledBack → S'.status d = some .rolledBack) :
    S'.StampedChain chain :=
  fun newer v older hsplit d hd => (h newer v older hsplit d hd).imp_left (hstatus d)

theorem stamped_cover (h : S.Stamped) (key : RecordKey) {version : RecordVersion δ}
    (hmark : version.deletedTxId = none) : (S.cover key version).Stamped := by
  intro key'
  by_cases hk : key' = key
  · subst hk
    have := stampedChain_cover (h key') hmark
    simpa only [StampedChain, cover, update_self] using this
  · simpa only [StampedChain, cover, update_of_ne hk] using h key'

variable {t : ℕ}

/-- The versions of a transaction leave the chain, and its stamps become rolled back. -/
theorem stampedChain_rollback (hcoherent : S.Coherent) (h : S.StampedChain chain)
    (hactive : S.Active t) : (S.rollback t).StampedChain (chain.filter fun v => v.txId ≠ t) := by
  intro newer v older hsplit d hd
  obtain ⟨newer', older', hchain, rfl⟩ := exists_split_of_filter hsplit
  by_cases hdt : d = t
  · subst hdt
    exact .inl (update_self ..)
  rcases h newer' v older' hchain d hd with hrolled | ⟨w, hw, hwd⟩
  · have := rolledBack_step hcoherent (.rollbackTransaction t) d hrolled
    rw [step, if_pos hactive] at this
    exact .inl this
  · refine .inr ⟨w, mem_filter.mpr ⟨hw, ?_⟩, hwd⟩
    simpa [hwd] using hdt

theorem stamped_step (hcoherent : S.Coherent) (h : S.Stamped) {call : MvccCall δ}
    (hcall : call.isVacuum = false) : (S.step call).Stamped := by
  have hrolled := rolledBack_step hcoherent call
  cases call with
  | beginTransaction => exact fun key => (h key).mono hrolled
  | writeRecord table recordId data txId =>
    simp only [step]
    split
    · exact stamped_cover h _ rfl
    · exact h
  | deleteRecord table recordId txId =>
    simp only [step]
    split
    · exact stamped_cover h _ rfl
    · exact h
  | commitTransaction txId =>
    simp only [step] at hrolled ⊢
    split
    · exact fun key => (h key).mono (by simpa only [if_pos ‹S.Active txId›] using hrolled)
    · exact h
  | rollbackTransaction txId =>
    simp only [step]
    split
    · exact fun key => stampedChain_rollback hcoherent (h key) ‹_›
    · exact h
  | vacuum => cases hcall

/-! ## Reading past the stamps -/

theorem isTxCommitted_congr {S S' : VersionStore δ} {u : ℕ} (h : S.status u = S'.status u) :
    S.isTxCommitted u = S'.isTxCommitted u := by
  unfold isTxCommitted
  rw [h]

theorem isTxCommitted_iff (h : S.Coherent) (ht : 1 ≤ t ∧ t ≤ S.seq) :
    S.isTxCommitted t = true ↔ S.status t = some .committed := by
  unfold isTxCommitted
  cases hs : S.status t with
  | none => exact absurd hs ((h.known t).mpr ht)
  | some status => simp

variable {v : RecordVersion δ}

theorem isTxCommitted_writer (h : S.Coherent) {key : RecordKey} (hv : v ∈ S.chain key) :
    S.isTxCommitted v.txId = true ↔ S.status v.txId = some .committed :=
  isTxCommitted_iff h (h.writer_bounds hv)

theorem seesWriter_of_rolledBack {t d : ℕ} (ht : S.status t ≠ some .rolledBack)
    (hd : S.status d = some .rolledBack) : S.seesWriter t d = false := by
  have hdt : d ≠ t := by
    rintro rfl
    exact ht hd
  simp [seesWriter, hdt, isTxCommitted, hd]

/-- A stamp by a writer the reader does not see leaves a version alive. -/
theorem deletedFor_eq_false_of_unseen (h : ∀ d, v.deletedTxId = some d → S.seesWriter t d = false) :
    S.deletedFor t v = false := by
  unfold deletedFor
  cases hd : v.deletedTxId with
  | none => simp
  | some d =>
    have := h d hd
    simp only [seesWriter, Bool.or_eq_false_iff, decide_eq_false_iff_not] at this
    simp [this.1, this.2]

/-- The stamp of the first version a reader sees does not concern the reader. -/
theorem deletedFor_eq_false (h : S.StampedChain chain) (ht : S.status t ≠ some .rolledBack)
    (hfirst : chain.find? (S.sees t) = some v) : S.deletedFor t v = false := by
  obtain ⟨-, newer, older, hsplit, hunseen⟩ := find?_eq_some_iff_append.mp hfirst
  refine deletedFor_eq_false_of_unseen fun d hd => ?_
  -- a newer version of the stamping transaction would have been seen first
  rcases h newer v older hsplit d hd with hrolled | ⟨w, hw, rfl⟩
  · exact seesWriter_of_rolledBack ht hrolled
  · simpa [sees] using hunseen w hw

/-- The value of the newest version whose writer satisfies `p`. -/
def firstValue (p : ℕ → Bool) (chain : List (RecordVersion δ)) : Option δ :=
  (chain.find? fun v => p v.txId).bind (·.value)

/-- **A read is the value of the first version seen.** -/
theorem StampedChain.readChain_eq (h : S.StampedChain chain) (ht : S.status t ≠ some .rolledBack) :
    S.readChain t chain = firstValue (S.seesWriter t) chain := by
  unfold readChain firstValue
  change (chain.find? (S.sees t)).bind _ = (chain.find? (S.sees t)).bind _
  cases hfirst : chain.find? (S.sees t) with
  | none => rfl
  | some v => simp [deletedFor_eq_false h ht hfirst]

variable {p : ℕ → Bool}

theorem firstValue_cons_of_not (hv : p v.txId = false) (chain : List (RecordVersion δ)) :
    firstValue p (v :: chain) = firstValue p chain := by
  simp [firstValue, hv]

theorem firstValue_map_unmarked (p : ℕ → Bool) (chain : List (RecordVersion δ)) :
    firstValue p (chain.map (·.unmarked)) = firstValue p chain := by
  simp only [firstValue, find?_map, comp_def, RecordVersion.txId_unmarked]
  cases chain.find? fun v => p v.txId <;> simp

theorem firstValue_markHead (p : ℕ → Bool) (t : ℕ) (chain : List (RecordVersion δ)) :
    firstValue p (markHead t chain) = firstValue p chain := by
  rw [← firstValue_map_unmarked, MvccEngine.map_unmarked_markHead, firstValue_map_unmarked]

theorem firstValue_congr {p q : ℕ → Bool} (h : ∀ v ∈ chain, p v.txId = q v.txId) :
    firstValue p chain = firstValue q chain := by
  induction chain with
  | nil => rfl
  | cons v rest ih =>
    rw [forall_mem_cons] at h
    have hrest := ih h.2
    unfold firstValue at hrest ⊢
    rw [find?_cons, find?_cons, h.1]
    split <;> simp_all

theorem firstValue_append_of_seen {newer : List (RecordVersion δ)}
    (hseen : ∃ w ∈ newer, p w.txId = true) (older : List (RecordVersion δ)) :
    firstValue p (newer ++ older) = firstValue p newer := by
  unfold firstValue
  rw [find?_append]
  cases hfind : newer.find? fun v => p v.txId with
  | some v => rfl
  | none =>
    obtain ⟨w, hw, hp⟩ := hseen
    exact absurd hp (find?_eq_none.mp hfind w hw)

theorem firstValue_append_of_unseen {newer : List (RecordVersion δ)}
    (hunseen : ∀ w ∈ newer, p w.txId = false) (older : List (RecordVersion δ)) :
    firstValue p (newer ++ older) = firstValue p older := by
  induction newer with
  | nil => rfl
  | cons w rest ih =>
    rw [forall_mem_cons] at hunseen
    rw [cons_append, firstValue_cons_of_not hunseen.1, ih hunseen.2]

theorem firstValue_eq_none (h : ∀ v ∈ chain, v.value = none) : firstValue p chain = none := by
  unfold firstValue
  cases hfind : chain.find? fun v => p v.txId with
  | none => rfl
  | some v => exact h v (mem_of_find?_eq_some hfind)

/-- Tombstones at the end of a chain may as well be missing. -/
theorem firstValue_append_tombstones (chain : List (RecordVersion δ))
    {tombstones : List (RecordVersion δ)} (h : ∀ v ∈ tombstones, v.value = none) :
    firstValue p (chain ++ tombstones) = firstValue p chain := by
  by_cases hseen : ∃ w ∈ chain, p w.txId = true
  · exact firstValue_append_of_seen hseen tombstones
  · have hunseen : ∀ w ∈ chain, p w.txId = false := by simpa using hseen
    have hnil := firstValue_append_of_unseen hunseen []
    rw [append_nil] at hnil
    rw [firstValue_append_of_unseen hunseen, firstValue_eq_none h, hnil]
    rfl

/-- Versions the search passes over may as well be missing. -/
theorem firstValue_filter {p q : ℕ → Bool} (h : ∀ v ∈ chain, p v.txId = true → q v.txId = true) :
    firstValue p (chain.filter fun v => q v.txId) = firstValue p chain := by
  induction chain with
  | nil => rfl
  | cons v rest ih =>
    rw [forall_mem_cons] at h
    by_cases hp : p v.txId = true
    · simp [firstValue, hp, h.1 hp]
    · have hp : p v.txId = false := by simpa using hp
      rw [firstValue_cons_of_not hp, ← ih h.2, filter_cons]
      split
      · exact firstValue_cons_of_not hp _
      · rfl

end VersionStore

end Lumi.Mvcc
