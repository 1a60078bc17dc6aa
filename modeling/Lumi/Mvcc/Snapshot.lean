import Lumi.Mvcc.Visibility

/-!
# Snapshot isolation of reads

`Snapshots` states what a snapshot-isolated reader is owed, with no version
chains in sight: the value of the last committed version of every record, and
for every transaction the values as they stood when it began.  `observe` keeps
these records along a run; the engine never reads them.

The engine compares transaction ids where it would have to compare moments in
time: a version counts as old enough for a reader when its writer *began* before
the reader, whenever it commits.  `overlapping_commit_breaks_snapshot` shows a
read that changes under an active reader.  Two things keep that from happening,
and both concern the moment of a commit (`CommitsInOrder`): the committing
transaction's versions must be the newest committed ones of their records, and
no younger transaction that is still active may be able to read those records.
-/

namespace Lumi.Mvcc

open Function

variable {δ : Type*}

/-- What the readers of a snapshot-isolated store are owed. -/
structure Snapshots (δ : Type*) where
  /-- The value of the latest committed version of a record. -/
  latest : RecordKey → Option δ
  /-- `latest` as it was when the transaction began. -/
  taken : ℕ → RecordKey → Option δ

namespace Snapshots

def init : Snapshots δ := ⟨fun _ => none, fun _ _ => none⟩

/-- The last version the transaction wrote of a record. -/
def lastWrite (S : VersionStore δ) (txId : ℕ) (key : RecordKey) : Option (RecordVersion δ) :=
  (S.chain key).find? fun v => v.txId = txId

/-- A transaction begins: it is owed the latest values. -/
def take (g : Snapshots δ) (txId : ℕ) : Snapshots δ :=
  { g with taken := Function.update g.taken txId g.latest }

/-- A transaction commits: its last writes become the latest values. -/
def publish (g : Snapshots δ) (S : VersionStore δ) (txId : ℕ) : Snapshots δ where
  latest key :=
    match lastWrite S txId key with
    | some v => v.value
    | none => g.latest key
  taken := g.taken

/-- What a call changes in the snapshots, the store before the call being `S`. -/
def observe (g : Snapshots δ) (S : VersionStore δ) : MvccCall δ → Snapshots δ
  | .beginTransaction _ => g.take (S.seq + 1)
  | .commitTransaction txId => if S.Active txId then g.publish S txId else g
  | _ => g

end Snapshots

/-- The engine together with the snapshots its clients are owed. -/
structure Observed (δ : Type*) where
  engine : MvccEngine δ
  snapshots : Snapshots δ

namespace Observed

def init : Observed δ := ⟨.init, .init⟩

def step (s : Observed δ) (call : MvccCall δ) : Observed δ :=
  ⟨Mvcc.step s.engine call, s.snapshots.observe s.engine.denote call⟩

end Observed

/-- An active transaction reads every record it has not written as its snapshot has it. -/
def ReadsSnapshot (s : Observed δ) : Prop :=
  ∀ t key, s.engine.denote.Active t → key ∉ s.engine.writtenBy t →
    s.engine.readRecord key.table key.recordId t = s.snapshots.taken t key

/-- The call, if it is a commit, publishes versions that are newer than every
committed version of their records, and that no active younger transaction can
read: each of these has written the record itself. -/
def CommitsInOrder (e : MvccEngine δ) : MvccCall δ → Prop
  | .commitTransaction t => e.denote.Active t → ∀ key ∈ e.writtenBy t,
      (∀ v, (e.chainOf key).find? (fun v => v.txId = t ∨ e.statusOf v.txId = some .committed) =
        some v → v.txId = t) ∧
      ∀ u, e.denote.Active u → t < u → key ∈ e.writtenBy u
  | _ => True

namespace VersionStore

open Snapshots (observe lastWrite)
open MvccEngine (markHead)

/-- The version is committed. -/
def committed (S : VersionStore δ) (writer : ℕ) : Bool := S.status writer = some .committed

/-- The version is committed and its writer began no later than `reader`. -/
def committedUpTo (S : VersionStore δ) (reader writer : ℕ) : Bool :=
  S.committed writer && writer ≤ reader

/-- The chains answer for the snapshots. -/
structure Answers (S : VersionStore δ) (g : Snapshots δ) : Prop where
  latest : ∀ key, g.latest key = firstValue S.committed (S.chain key)
  taken : ∀ t, S.Active t → ∀ key ∉ S.written t,
    g.taken t key = firstValue (S.committedUpTo t) (S.chain key)

variable {S : VersionStore δ} {g : Snapshots δ}

theorem answers_begin (hcoherent : S.Coherent) (h : S.Answers g) :
    S.begin.Answers (g.take (S.seq + 1)) := by
  have hold : ∀ key, ∀ v ∈ S.chain key, v.txId ≠ S.seq + 1 := by
    intro key v hv
    have := (hcoherent.writer_bounds hv).2
    omega
  have hlatest : ∀ key, g.latest key = firstValue S.begin.committed (S.chain key) := by
    intro key
    rw [h.latest key]
    refine firstValue_congr fun v hv => ?_
    simp only [committed, begin, update_of_ne (hold key v hv)]
  refine ⟨hlatest, fun t ht key hkey => ?_⟩
  by_cases htnew : t = S.seq + 1
  · -- the new transaction is younger than every version
    subst htnew
    simp only [Snapshots.take, update_self]
    rw [hlatest key]
    refine firstValue_congr fun v hv => ?_
    have := (hcoherent.writer_bounds hv).2
    simp only [committedUpTo, Bool.eq_self_and, decide_eq_true_eq]
    intro _
    omega
  · simp only [Snapshots.take, begin, Active, update_of_ne htnew] at ht hkey ⊢
    rw [h.taken t ht key hkey]
    refine firstValue_congr fun v hv => ?_
    simp only [committedUpTo, committed, update_of_ne (hold key v hv)]

theorem answers_cover (h : S.Answers g) (key : RecordKey) {version : RecordVersion δ}
    (hactive : S.Active version.txId) : (S.cover key version).Answers g := by
  have hnot : S.committed version.txId = false := by simp [committed, hactive]
  have hchain : ∀ (p : ℕ → Bool) (key' : RecordKey), p version.txId = false →
      firstValue p ((S.cover key version).chain key') = firstValue p (S.chain key') := by
    intro p key' hp
    by_cases hk : key' = key
    · subst hk
      simp only [cover, update_self]
      rw [firstValue_cons_of_not hp, firstValue_markHead]
    · simp only [cover, update_of_ne hk]
  refine ⟨fun key' => ?_, fun t ht key' hkey => ?_⟩
  · exact (h.latest key').trans (hchain _ _ hnot).symm
  · have hkey' : key' ∉ S.written t := fun hmem => hkey (mem_update_append hmem)
    refine (h.taken t ht key' hkey').trans (hchain (S.committedUpTo t) key' ?_).symm
    simp [committedUpTo, hnot]

variable {key : RecordKey} {t : ℕ}

/-- Of a transaction's records only those it noted hold a version of it. -/
theorem lastWrite_eq_none (hcoherent : S.Coherent) (hkey : key ∉ S.written t) :
    lastWrite S t key = none := by
  rw [lastWrite, List.find?_eq_none]
  intro v hv
  simp only [decide_eq_true_eq]
  rintro rfl
  exact hkey (hcoherent.writer_noted key v hv)

/-- If the first version of either kind is of the first kind, it is the first of that kind. -/
theorem find?_eq_of_newest {chain : List (RecordVersion δ)} {p q : RecordVersion δ → Prop}
    [DecidablePred p] [DecidablePred q] {v : RecordVersion δ}
    (hlast : chain.find? (fun v => p v) = some v)
    (hnewest : ∀ w, chain.find? (fun v => p v ∨ q v) = some w → p w) :
    chain.find? (fun v => p v ∨ q v) = some v := by
  obtain ⟨hv, newer, older, hsplit, hbefore⟩ := List.find?_eq_some_iff_append.mp hlast
  cases hfirst : chain.find? (fun v => p v ∨ q v) with
  | none =>
    have := List.find?_eq_none.mp hfirst v (by simp [hsplit])
    simp_all
  | some w =>
    have hw := hnewest w hfirst
    obtain ⟨-, newer', older', hsplit', hbefore'⟩ := List.find?_eq_some_iff_append.mp hfirst
    -- the first of either kind stands no later than `v`, and no earlier
    rw [← hlast, hsplit', List.find?_append, List.find?_eq_none.mpr]
    · simp [hw]
    · intro x hx
      have := hbefore' x hx
      simp_all

theorem answers_commit (hcoherent : S.Coherent) (h : S.Answers g) (hactive : S.Active t)
    (hnewest : ∀ key ∈ S.written t, ∀ v, (S.chain key).find?
      (fun v => v.txId = t ∨ S.status v.txId = some .committed) = some v → v.txId = t)
    (hyounger : ∀ key ∈ S.written t, ∀ u, S.Active u → t < u → key ∈ S.written u) :
    (S.commit t).Answers (g.publish S t) := by
  have hcommitted : ∀ writer, (S.commit t).committed writer =
      (decide (writer = t) || S.committed writer) := by
    intro writer
    by_cases hw : writer = t
    · simp [committed, commit, hw]
    · simp [committed, commit, hw]
  -- where the transaction wrote nothing, nothing becomes visible
  have hsame : ∀ key, (∀ v ∈ S.chain key, v.txId ≠ t) → ∀ v ∈ S.chain key,
      (S.commit t).committed v.txId = S.committed v.txId := by
    intro key hnone v hv
    rw [hcommitted]
    simp [hnone v hv]
  have hnone : ∀ key ∉ S.written t, ∀ v ∈ S.chain key, v.txId ≠ t := by
    rintro key hkey v hv rfl
    exact hkey (hcoherent.writer_noted key v hv)
  refine ⟨fun key => ?_, fun u hu key hkey => ?_⟩
  · simp only [Snapshots.publish, commit]
    cases hlast : lastWrite S t key with
    | none =>
      refine (h.latest key).trans (firstValue_congr fun v hv => (hsame key ?_ v hv).symm)
      intro w hw
      simpa using List.find?_eq_none.mp hlast w hw
    | some v =>
      have hkey : key ∈ S.written t := by
        by_contra hkey
        simp [lastWrite_eq_none hcoherent hkey] at hlast
      have hfind : (S.chain key).find? (fun v => (S.commit t).committed v.txId) = some v := by
        rw [← find?_eq_of_newest hlast (hnewest key hkey)]
        congr 1
        funext w
        rw [hcommitted, committed, Bool.decide_or]
      change v.value = ((S.chain key).find? fun v => (S.commit t).committed v.txId).bind _
      rw [hfind, Option.bind_some]
  · have hut : u ≠ t := by
      rintro rfl
      simp [commit, Active] at hu
    have hu' : S.Active u := by simpa [commit, Active, update_of_ne hut] using hu
    refine (h.taken u hu' key hkey).trans (firstValue_congr fun v hv => ?_)
    by_cases hvt : v.txId = t
    · -- a version of the committing transaction: the reader is older
      have hle : ¬ v.txId ≤ u := by
        intro hle
        have hnoted : key ∈ S.written t := hvt ▸ hcoherent.writer_noted key v hv
        exact hkey (hyounger key hnoted u hu' (by omega))
      simp [committedUpTo, hle]
    · simp [committedUpTo, hcommitted, hvt]

theorem answers_rollback (h : S.Answers g) (hactive : S.Active t) : (S.rollback t).Answers g := by
  have hcommitted : ∀ writer, (S.rollback t).committed writer = S.committed writer := by
    intro writer
    by_cases hw : writer = t
    · subst hw
      simp [committed, rollback, hactive]
    · simp [committed, rollback, update_of_ne hw]
  have hnot : S.committed t = false := by simp [committed, hactive]
  -- the versions that are dropped were visible to nobody
  have hchain : ∀ (p : ℕ → Bool) (key : RecordKey), p t = false →
      firstValue p ((S.rollback t).chain key) = firstValue p (S.chain key) := by
    intro p key hp
    refine firstValue_filter (q := fun writer => decide (writer ≠ t)) fun v _ hv => ?_
    simp only [decide_eq_true_eq]
    rintro hvt
    simp [hvt, hp] at hv
  refine ⟨fun key => ?_, fun u hu key hkey => ?_⟩
  · rw [funext hcommitted, hchain _ key hnot]
    exact h.latest key
  · have hut : u ≠ t := by
      rintro rfl
      simp [rollback, Active] at hu
    have hu' : S.Active u := by simpa [rollback, Active, update_of_ne hut] using hu
    have hp : (S.rollback t).committedUpTo u = S.committedUpTo u := by
      funext writer
      simp only [committedUpTo, hcommitted]
    rw [hp, hchain _ key (by simp [committedUpTo, hnot])]
    exact h.taken u hu' key hkey

/-- One call keeps the snapshots answered, if its commits are in order. -/
theorem answers_step (hcoherent : S.Coherent) (h : S.Answers g) {call : MvccCall δ}
    (hcall : call.isVacuum = false)
    (horder : ∀ t, call = .commitTransaction t → S.Active t → ∀ key ∈ S.written t,
      (∀ v, (S.chain key).find? (fun v => v.txId = t ∨ S.status v.txId = some .committed) =
        some v → v.txId = t) ∧
      ∀ u, S.Active u → t < u → key ∈ S.written u) :
    (S.step call).Answers (g.observe S call) := by
  cases call with
  | beginTransaction => exact answers_begin hcoherent h
  | writeRecord table recordId data txId =>
    simp only [step, observe]
    split
    · exact answers_cover h _ ‹_›
    · exact h
  | deleteRecord table recordId txId =>
    simp only [step, observe]
    split
    · rename_i hactive
      exact answers_cover h _ hactive.1
    · exact h
  | commitTransaction txId =>
    simp only [step, observe]
    split
    · rename_i hactive
      have horder := horder txId rfl hactive
      exact answers_commit hcoherent h hactive (fun key hkey => (horder key hkey).1)
        fun key hkey => (horder key hkey).2
    · exact h
  | rollbackTransaction txId =>
    simp only [step, observe]
    split
    · exact answers_rollback h ‹_›
    · exact h
  | vacuum => cases hcall

/-- An answered snapshot is what its transaction reads. -/
theorem Answers.read_eq (hcoherent : S.Coherent) (hstamped : S.Stamped) (h : S.Answers g)
    (ht : S.Active t) (hkey : key ∉ S.written t) : S.read key t = g.taken t key := by
  rw [read, (hstamped key).readChain_eq (by simp [ht]), h.taken t ht key hkey]
  refine firstValue_congr fun v hv => ?_
  have hown : v.txId ≠ t := by
    rintro rfl
    exact hkey (hcoherent.writer_noted key v hv)
  have hcommitted : S.isTxCommitted v.txId = S.committed v.txId := by
    rw [Bool.eq_iff_iff, isTxCommitted_writer hcoherent hv, committed, decide_eq_true_eq]
  simp [seesWriter, committedUpTo, hown, hcommitted]

/-! ## What a transaction is owed never changes -/

theorem written_step_subset (hcoherent : S.Coherent) (call : MvccCall δ) (ht : S.Active t)
    (hkey : key ∈ S.written t) : key ∈ (S.step call).written t := by
  cases call with
  | beginTransaction =>
    have hne : t ≠ S.seq + 1 := by
      have := (hcoherent.active_bounds ht).2
      omega
    simpa only [step, begin, update_of_ne hne] using hkey
  | writeRecord =>
    simp only [step]
    split
    · exact mem_update_append hkey
    · exact hkey
  | deleteRecord =>
    simp only [step]
    split
    · exact mem_update_append hkey
    · exact hkey
  | commitTransaction =>
    simp only [step]
    split <;> exact hkey
  | rollbackTransaction =>
    simp only [step]
    split <;> exact hkey
  | vacuum => exact hkey

/-- A finished transaction does not become active again. -/
theorem active_of_step (call : MvccCall δ) (ht : t ≤ S.seq) (hactive : (S.step call).Active t) :
    S.Active t := by
  cases call with
  | beginTransaction =>
    have hne : t ≠ S.seq + 1 := by omega
    simpa only [step, begin, Active, update_of_ne hne] using hactive
  | writeRecord =>
    simp only [step] at hactive
    split at hactive <;> exact hactive
  | deleteRecord =>
    simp only [step] at hactive
    split at hactive <;> exact hactive
  | commitTransaction txId =>
    simp only [step] at hactive
    split at hactive
    · by_cases hne : t = txId
      · simp [commit, Active, hne] at hactive
      · simpa only [commit, Active, update_of_ne hne] using hactive
    · exact hactive
  | rollbackTransaction txId =>
    simp only [step] at hactive
    split at hactive
    · by_cases hne : t = txId
      · simp [rollback, Active, hne] at hactive
      · simpa only [rollback, Active, update_of_ne hne] using hactive
    · exact hactive
  | vacuum => exact hactive

theorem seq_le_step (S : VersionStore δ) (call : MvccCall δ) : S.seq ≤ (S.step call).seq := by
  cases call with
  | beginTransaction => exact Nat.le_succ _
  | vacuum => exact le_rfl
  | _ =>
    simp only [step]
    split <;> exact le_rfl

theorem taken_observe (g : Snapshots δ) (call : MvccCall δ) (ht : t ≤ S.seq) :
    (g.observe S call).taken t = g.taken t := by
  cases call with
  | beginTransaction =>
    have hne : t ≠ S.seq + 1 := by omega
    simp only [observe, Snapshots.take, update_of_ne hne]
  | commitTransaction =>
    simp only [observe]
    split <;> rfl
  | writeRecord => rfl
  | deleteRecord => rfl
  | rollbackTransaction => rfl
  | vacuum => rfl

end VersionStore

/-! ## Runs -/

namespace Observed

/-- The invariant of an observed run. -/
structure Sound (s : Observed δ) : Prop where
  keyed : s.engine.Keyed
  coherent : s.engine.denote.Coherent
  stamped : s.engine.denote.Stamped
  answers : s.engine.denote.Answers s.snapshots

theorem sound_init : (init : Observed δ).Sound where
  keyed := MvccEngine.keyed_init
  coherent := VersionStore.coherent_init
  stamped key newer v older h := by
    simp [init, MvccEngine.init, MvccEngine.denote, MvccEngine.chainOf] at h
  answers := by
    constructor <;> intros <;> rfl

variable {s : Observed δ}

theorem sound_step (h : s.Sound) {call : MvccCall δ} (hcall : call.isVacuum = false)
    (horder : CommitsInOrder s.engine call) : (s.step call).Sound := by
  have hdenote := MvccEngine.denote_step h.keyed h.coherent call
  refine ⟨MvccEngine.keyed_step h.keyed call, ?_, ?_, ?_⟩
  · exact hdenote ▸ VersionStore.coherent_step h.coherent call
  · exact hdenote ▸ VersionStore.stamped_step h.coherent h.stamped hcall
  · refine hdenote ▸ VersionStore.answers_step h.coherent h.answers hcall fun t heq hactive => ?_
    subst heq
    exact horder hactive

theorem readsSnapshot_of_sound (h : s.Sound) : ReadsSnapshot s := by
  intro t key ht hkey
  rw [MvccEngine.readRecord_eq]
  exact h.answers.read_eq h.coherent h.stamped ht hkey

theorem sound_run (h : s.Sound) {calls : List (MvccCall δ)}
    (hcalls : Run.Guarded step
      (fun s call => call.isVacuum = false ∧ CommitsInOrder s.engine call) s calls) :
    (Run.run step s calls).Sound :=
  Run.run_preserves (P := Sound) (fun _ _ h hcall => sound_step h hcall.1 hcall.2) h hcalls

/-- Along a run, a transaction that stays active keeps its snapshot, and what it
has written stays written. -/
theorem taken_run (h : s.Sound) {calls : List (MvccCall δ)}
    (hcalls : Run.Guarded step
      (fun s call => call.isVacuum = false ∧ CommitsInOrder s.engine call) s calls) {t : ℕ}
    {key : RecordKey} (ht : t ≤ s.engine.denote.seq)
    (hactive : (Run.run step s calls).engine.denote.Active t)
    (hkey : key ∉ (Run.run step s calls).engine.writtenBy t) :
    s.engine.denote.Active t ∧ key ∉ s.engine.writtenBy t ∧
      (Run.run step s calls).snapshots.taken t key = s.snapshots.taken t key := by
  induction calls generalizing s with
  | nil => exact ⟨hactive, hkey, rfl⟩
  | cons call rest ih =>
    have hdenote := MvccEngine.denote_step h.keyed h.coherent call
    have hseq : t ≤ (s.step call).engine.denote.seq := by
      change t ≤ (Mvcc.step s.engine call).denote.seq
      rw [hdenote]
      exact le_trans ht (VersionStore.seq_le_step _ call)
    obtain ⟨hnext, hwritten, htaken⟩ :=
      ih (sound_step h hcalls.1.1 hcalls.1.2) hcalls.2 hseq hactive hkey
    have hs : s.engine.denote.Active t := by
      refine VersionStore.active_of_step call ht ?_
      rw [← hdenote]
      exact hnext
    refine ⟨hs, fun hmem => hwritten ?_, htaken.trans ?_⟩
    · have hmem' := VersionStore.written_step_subset h.coherent call hs hmem
      rw [← hdenote] at hmem'
      exact hmem'
    · exact congrFun (VersionStore.taken_observe s.snapshots call ht) key

end Observed

/-- **Snapshot isolation of reads.**  In a run without vacuum whose commits are in
order, every active transaction reads its snapshot, in every state; so two reads
of a record it has not written agree. -/
theorem reads_snapshot_of_commitsInOrder (calls : List (MvccCall δ))
    (hcalls : Run.Guarded Observed.step
      (fun s call => call.isVacuum = false ∧ CommitsInOrder s.engine call) Observed.init calls) :
    Run.Always Observed.step ReadsSnapshot Observed.init calls ∧
      ∀ first second rest, calls = first ++ second ++ rest → ∀ t key,
        t ≤ (Run.run Observed.step Observed.init first).engine.currentTxSeq →
        (Run.run Observed.step Observed.init (first ++ second)).engine.denote.Active t →
        key ∉ (Run.run Observed.step Observed.init (first ++ second)).engine.writtenBy t →
        (Run.run Observed.step Observed.init first).engine.readRecord key.table key.recordId t =
          (Run.run Observed.step Observed.init (first ++ second)).engine.readRecord
            key.table key.recordId t := by
  constructor
  · refine Run.Always.mono (fun s h => Observed.readsSnapshot_of_sound h) ?_
    exact Run.always_of_guarded (fun s call h hcall => Observed.sound_step h hcall.1 hcall.2)
      Observed.sound_init hcalls
  · rintro first second rest rfl t key ht hactive hkey
    rw [Run.guarded_append, Run.guarded_append] at hcalls
    have hfirst := Observed.sound_run Observed.sound_init hcalls.1.1
    have hsecond := Observed.sound_run hfirst hcalls.1.2
    rw [Run.run_append] at hactive hkey ⊢
    obtain ⟨hactive', hkey', htaken⟩ := Observed.taken_run hfirst hcalls.1.2 ht hactive hkey
    rw [Observed.readsSnapshot_of_sound hfirst t key hactive' hkey',
      Observed.readsSnapshot_of_sound hsecond t key hactive hkey, htaken]

/-- A writer that commits before the reader begins. -/
theorem reads_snapshot_after_commit :
    Run.Always Observed.step ReadsSnapshot (Observed.init : Observed String)
      [.beginTransaction .snapshotIsolation, .writeRecord "users" "usr_100" "Alice" 1,
        .commitTransaction 1, .beginTransaction .snapshotIsolation] := by
  refine (reads_snapshot_of_commitsInOrder [.beginTransaction .snapshotIsolation,
    .writeRecord "users" "usr_100" "Alice" 1, .commitTransaction 1,
    .beginTransaction .snapshotIsolation] ⟨⟨rfl, trivial⟩, ⟨rfl, trivial⟩, ⟨rfl, ?_⟩,
    ⟨rfl, trivial⟩, trivial⟩).1
  intro _ key hkey
  have hkey : key ∈ [(⟨"users", "usr_100"⟩ : RecordKey)] := hkey
  obtain rfl := List.mem_singleton.mp hkey
  refine ⟨fun v hv => ?_, fun u hu hlt => ?_⟩
  · obtain rfl := Option.some.inj hv
    rfl
  · -- there is no younger transaction yet
    have hcoherent := MvccEngine.coherent_run (δ := String)
      [.beginTransaction .snapshotIsolation, .writeRecord "users" "usr_100" "Alice" 1]
    have hle : u ≤ 1 := (hcoherent.active_bounds hu).2
    omega

/-- Two transactions overlap; the older one commits, and what the younger one reads
of the record changes under it. -/
theorem overlapping_commit_breaks_snapshot :
    ¬ Run.Always Observed.step ReadsSnapshot (Observed.init : Observed String)
      [.beginTransaction .snapshotIsolation, .beginTransaction .snapshotIsolation,
        .writeRecord "users" "usr_100" "Alice" 1, .commitTransaction 1] := by
  intro h
  have hread := Run.always_iff_forall_split.mp h _ [] (List.append_nil _).symm 2
    ⟨"users", "usr_100"⟩ (by decide) (by decide)
  exact absurd hread (by decide)

end Lumi.Mvcc
