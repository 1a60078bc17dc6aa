import Lumi.Mvcc.Growth

/-!
# What a vacuum takes away

`vacuum` drops a version as soon as its deletion stamp, or the id of a tombstone,
is at most the oldest active transaction.  It asks neither whether the stamping
transaction committed nor whether a newer version replaces the dropped one, so a
stamp left behind by a rollback costs the record its only live version
(`vacuum_after_rollback_loses_record`).

`VacuumSafe` says when a vacuum takes nothing from anybody.  A reader stops at
the first version it sees; which one that is depends on which of the transactions
that are active now will have committed by then, so the condition ranges over
these outcomes (`settled`).
-/

open List Function

namespace Lumi.Mvcc
variable {δ : Type*}

namespace VersionStore

open MvccEngine (markHead purged vacuumChain)

section

variable (S : VersionStore δ)

/-- The store once those active transactions that are in `commits` have committed. -/
def settled (commits : ℕ → Bool) : VersionStore δ :=
  { S with status := fun u => if S.Active u ∧ commits u = true then some .committed
                              else S.status u }

/-- The version gives its reader no value: it is a tombstone, or its stamp
concerns the reader. -/
def Gone (t : ℕ) (v : RecordVersion δ) : Prop :=
  S.deletedFor t v = true ∨ v.value = none

/-- A vacuum at `threshold` drops the version from the chain. -/
def Dropped (threshold : ℕ) (chain : List (RecordVersion δ)) (v : RecordVersion δ) : Prop :=
  purged threshold v = true ∨ vacuumChain threshold chain = none

instance (threshold : ℕ) (chain : List (RecordVersion δ)) (v : RecordVersion δ) :
    Decidable (Dropped threshold chain v) :=
  inferInstanceAs (Decidable (_ ∨ _))

/-- Whichever of the active transactions commit: where a transaction that is
active, or not yet begun, would stop at a version the vacuum drops, that version
gives it no value, nor does the kept version it stops at instead. -/
def VacuumSafe (threshold : ℕ) : Prop :=
  ∀ commits t, (S.Active t ∨ S.seq < t) → ∀ key v,
    (S.chain key).find? ((S.settled commits).sees t) = some v →
    Dropped threshold (S.chain key) v →
      (S.settled commits).Gone t v ∧
      ∀ u, ((S.purge threshold).chain key).find? ((S.settled commits).sees t) = some u →
        (S.settled commits).Gone t u

/-- No two versions of a record hold the same value. -/
def OwnData : Prop :=
  ∀ key, ∀ v ∈ S.chain key, ∀ w ∈ S.chain key, ∀ a, v.value = some a → w.value = some a → v = w

end

/-! ## One vacuum -/

variable {S : VersionStore δ}

variable {chain : List (RecordVersion δ)} {v : RecordVersion δ}

theorem readChain_of_find? {t : ℕ} (h : chain.find? (S.sees t) = some v) :
    S.readChain t chain = if S.deletedFor t v then none else v.value := by
  simp [readChain, h]

theorem readChain_eq_none_iff {t : ℕ} :
    S.readChain t chain = none ↔ ∀ v, chain.find? (S.sees t) = some v → S.Gone t v := by
  cases hfind : chain.find? (S.sees t) with
  | none => simp [readChain, hfind]
  | some v => simp [readChain_of_find? hfind, Gone, or_iff_not_imp_left]

variable {t threshold : ℕ}

/-- A vacuum that does not drop the first version a reader sees keeps it the first. -/
theorem find?_vacuumChain (hfirst : chain.find? (S.sees t) = some v)
    (hkept : ¬ Dropped threshold chain v) :
    ((vacuumChain threshold chain).getD []).find? (S.sees t) = some v := by
  obtain ⟨hpurged, hretained⟩ := not_or.mp hkept
  simp only [vacuumChain] at hretained ⊢
  split at hretained
  · exact absurd rfl hretained
  · rename_i hsome
    rw [if_neg hsome, Option.getD_some, find?_filter]
    obtain ⟨hsees, newer, older, rfl, hunseen⟩ := find?_eq_some_iff_append.mp hfirst
    refine find?_eq_some_iff_append.mpr ⟨by simpa [hsees] using hpurged, newer, older, rfl, ?_⟩
    intro w hw
    have := hunseen w hw
    simp_all

/-- What is left of a chain after a vacuum is read the same. -/
theorem readChain_vacuumChain
    (hsafe : ∀ v, chain.find? (S.sees t) = some v → Dropped threshold chain v →
      S.Gone t v ∧
      ∀ u, ((vacuumChain threshold chain).getD []).find? (S.sees t) = some u → S.Gone t u) :
    S.readChain t ((vacuumChain threshold chain).getD []) = S.readChain t chain := by
  cases hfirst : chain.find? (S.sees t) with
  | none =>
    have hnone : ((vacuumChain threshold chain).getD []).find? (S.sees t) = none := by
      rw [find?_eq_none]
      exact fun v hv => find?_eq_none.mp hfirst v (mem_of_mem_vacuumChain hv).1
    simp [readChain, hfirst, hnone]
  | some v =>
    by_cases hdropped : Dropped threshold chain v
    · obtain ⟨hgone, hrest⟩ := hsafe v hfirst hdropped
      rw [readChain_eq_none_iff.mpr hrest, readChain_eq_none_iff.mpr]
      intro w hw
      obtain rfl := Option.some.inj (hfirst.symm.trans hw)
      exact hgone
    · rw [readChain_of_find? hfirst, readChain_of_find? (find?_vacuumChain hfirst hdropped)]

/-- Conversely, equal reads of distinct values mean that nothing was taken. -/
theorem gone_of_readChain_vacuumChain
    (hown : ∀ v ∈ chain, ∀ w ∈ chain, ∀ a, v.value = some a → w.value = some a → v = w)
    (hread : S.readChain t ((vacuumChain threshold chain).getD []) = S.readChain t chain)
    (hfirst : chain.find? (S.sees t) = some v) (hdropped : Dropped threshold chain v) :
    S.Gone t v ∧
      ∀ u, ((vacuumChain threshold chain).getD []).find? (S.sees t) = some u → S.Gone t u := by
  have hgone : S.readChain t chain = none := by
    by_contra hsome
    obtain ⟨a, ha⟩ := Option.ne_none_iff_exists'.mp hsome
    -- the kept chain would have to give the same value, from the same version
    have hkept := hread.trans ha
    obtain ⟨u, hu, hvalue⟩ := Option.bind_eq_some_iff.mp hkept
    have humem := mem_of_mem_vacuumChain (mem_of_find?_eq_some hu)
    have hvalues : v.value = some a ∧ u.value = some a := by
      rw [readChain_of_find? hfirst] at ha
      constructor
      · split at ha <;> simp_all
      · split at hvalue <;> simp_all
    obtain rfl := hown v (mem_of_find?_eq_some hfirst) u humem.1 a hvalues.1 hvalues.2
    rcases hdropped with hpurged | hnone
    · simp [humem.2] at hpurged
    · simp [hnone] at hu
  exact ⟨readChain_eq_none_iff.mp hgone v hfirst, readChain_eq_none_iff.mp (hread.trans hgone)⟩

/-! ## Outcomes -/

/-- `S'` is a later state: only active and new transactions changed their status. -/
structure Later (S S' : VersionStore δ) : Prop where
  seq_le : S.seq ≤ S'.seq
  status : ∀ u ≤ S.seq, S.Active u ∨ S'.status u = S.status u

theorem Later.refl (S : VersionStore δ) : S.Later S := ⟨le_rfl, fun _ _ => .inr rfl⟩

variable {S S' : VersionStore δ}

/-- A call changes the status of an active transaction, or of a new one. -/
theorem later_step (h : S.Later S') (call : MvccCall δ) : S.Later (S'.step call) := by
  have hupdate : ∀ {t : ℕ} {status : TxStatus}, S'.Active t → ∀ u ≤ S.seq,
      S.Active u ∨ Function.update S'.status t (some status) u = S.status u := by
    intro t status ht u hu
    by_cases hut : u = t
    · subst hut
      rcases h.status u hu with hactive | hsame
      · exact .inl hactive
      · exact .inl (hsame.symm.trans ht)
    · rw [update_of_ne hut]
      exact h.status u hu
  cases call with
  | beginTransaction =>
    refine ⟨Nat.le_succ_of_le h.seq_le, fun u hu => ?_⟩
    have hne : u ≠ S'.seq + 1 := by
      have := h.seq_le
      omega
    simp only [step, begin, update_of_ne hne]
    exact h.status u hu
  | writeRecord =>
    simp only [step]
    split <;> exact ⟨h.seq_le, h.status⟩
  | deleteRecord =>
    simp only [step]
    split <;> exact ⟨h.seq_le, h.status⟩
  | commitTransaction txId =>
    simp only [step]
    split
    · exact ⟨h.seq_le, hupdate ‹_›⟩
    · exact h
  | rollbackTransaction txId =>
    simp only [step]
    split
    · exact ⟨h.seq_le, hupdate ‹_›⟩
    · exact h
  | vacuum => exact ⟨h.seq_le, h.status⟩

/-- Of the transactions known before, those that count as committed later are the
ones that did, or did since. -/
theorem isTxCommitted_settled (h : S.Later S') {u : ℕ} (hu : u ≤ S.seq) :
    (S.settled S'.isTxCommitted).isTxCommitted u = S'.isTxCommitted u := by
  by_cases hactive : S.Active u
  · have hsettled : (S.settled S'.isTxCommitted).status u =
        if S'.isTxCommitted u = true then some .committed else some .active := by
      simp [settled, Active, hactive]
    rw [isTxCommitted, hsettled]
    cases S'.isTxCommitted u <;> simp
  · have hsettled : (S.settled S'.isTxCommitted).status u = S'.status u := by
      rw [(h.status u hu).resolve_left hactive]
      simp [settled, hactive]
    rw [isTxCommitted, hsettled, isTxCommitted]

/-- A read depends on who has committed among the writers and the stampers. -/
theorem readChain_congr {t : ℕ}
    (hwriter : ∀ v ∈ chain, S.isTxCommitted v.txId = S'.isTxCommitted v.txId)
    (hstamp : ∀ v ∈ chain, ∀ d, v.deletedTxId = some d → S.isTxCommitted d = S'.isTxCommitted d) :
    S.readChain t chain = S'.readChain t chain := by
  induction chain with
  | nil => rfl
  | cons v rest ih =>
    rw [forall_mem_cons] at hwriter hstamp
    have hrest := ih hwriter.2 hstamp.2
    have hsame : S.sees t v = S'.sees t v := by simp only [sees, seesWriter, hwriter.1]
    cases hsees : S'.sees t v with
    | false =>
      rw [readChain_cons_of_not_sees (hsame.trans hsees), readChain_cons_of_not_sees hsees,
        hrest]
    | true =>
      have hdeleted : S.deletedFor t v = S'.deletedFor t v := by
        unfold deletedFor
        cases hd : v.deletedTxId with
        | none => rfl
        | some d => simp only [hstamp.1 d hd]
      rw [readChain_cons_of_sees (hsame.trans hsees), readChain_cons_of_sees hsees, hdeleted]

/-- Reading an old chain in a later state is reading it in the outcome it led to. -/
theorem Later.readChain_eq (hcoherent : S.Coherent) (h : S.Later S') {key : RecordKey}
    (hchain : ∀ v ∈ chain, v ∈ S.chain key) (t : ℕ) :
    S'.readChain t chain = (S.settled S'.isTxCommitted).readChain t chain := by
  refine readChain_congr (fun v hv => ?_) fun v hv d hd => ?_
  · exact (isTxCommitted_settled h (hcoherent.writer_bounds (hchain v hv)).2).symm
  · exact (isTxCommitted_settled h (hcoherent.mark_known key v (hchain v hv) d hd).2).symm

variable {threshold : ℕ}

/-- A safe vacuum leaves every later read of the old chains as it was. -/
theorem VacuumSafe.readChain_eq (hsafe : S.VacuumSafe threshold) (hcoherent : S.Coherent)
    (h : S.Later S') {t : ℕ} (ht : S.Active t ∨ S.seq < t) (key : RecordKey) :
    S'.readChain t ((S.purge threshold).chain key) = S'.readChain t (S.chain key) := by
  have hkept : ∀ v ∈ (S.purge threshold).chain key, v ∈ S.chain key :=
    fun v hv => (mem_of_mem_vacuumChain hv).1
  rw [h.readChain_eq hcoherent hkept t, h.readChain_eq hcoherent (fun v hv => hv) t]
  exact readChain_vacuumChain fun v hfirst hdropped => hsafe _ t ht key v hfirst hdropped

/-! ## Two runs from one state

A run after the vacuum and the same run without it keep, for every record, the
same newer versions on top of the chains they started from.  One thing sets them
apart: where the vacuum left nothing of a chain, a deletion finds a record in the
unvacuumed run only, and adds a tombstone there.
-/

structure Diverged (S : VersionStore δ)
    (base base' newer newer' phantom chain chain' : List (RecordVersion δ)) : Prop where
  full : S.Grown base newer chain
  kept : S.Grown base' newer' chain'
  same : newer.map (·.unmarked) = newer'.map (·.unmarked) ++ phantom
  tombstones : ∀ p ∈ phantom, p.value = none
  exhausted : phantom ≠ [] → base'.filter S.live = []

variable {base base' newer newer' phantom chain chain' : List (RecordVersion δ)}

section

variable (h : S.Diverged base base' newer newer' phantom chain chain')
include h

/-- Chains that diverged are read the same, if their bases are. -/
theorem Diverged.readChain_eq {t : ℕ} (ht : S.status t ≠ some .rolledBack)
    (hbase : S.readChain t base' = S.readChain t base) :
    S.readChain t chain' = S.readChain t chain := by
  have hseen_iff : (∃ w ∈ newer, S.sees t w = true) ↔
      (∃ w ∈ newer', S.sees t w = true) ∨ ∃ p ∈ phantom, S.sees t p = true := by
    have hmap : ∀ l : List (RecordVersion δ),
        (∃ w ∈ l.map (·.unmarked), S.sees t w = true) ↔ ∃ w ∈ l, S.sees t w = true := by
      simp [sees]
    rw [← hmap newer, h.same, ← hmap newer']
    simp only [mem_append, or_and_right, exists_or]
  have hfirst : firstValue (S.seesWriter t) newer =
      firstValue (S.seesWriter t) (newer'.map (·.unmarked) ++ phantom) := by
    rw [← h.same, firstValue_map_unmarked]
  by_cases hseen' : ∃ w ∈ newer', S.sees t w = true
  · have hseen := hseen_iff.mpr (.inl hseen')
    obtain ⟨w, hw, hsees⟩ := hseen'
    rw [h.full.readChain_eq_firstValue ht hseen, h.kept.readChain_eq_firstValue ht ⟨w, hw, hsees⟩,
      hfirst, firstValue_append_of_seen ⟨w.unmarked, mem_map.mpr ⟨w, hw, rfl⟩, hsees⟩,
      firstValue_map_unmarked]
  · have hunseen' : ∀ w ∈ newer', S.sees t w = false := by simpa using hseen'
    rw [h.kept.readChain_eq ht hunseen']
    by_cases hphantom : ∃ p ∈ phantom, S.sees t p = true
    · -- the reader stops at a tombstone; the other chain has nothing for it
      rw [h.full.readChain_eq_firstValue ht (hseen_iff.mpr (.inr hphantom)), hfirst,
        firstValue_append_of_unseen, firstValue_eq_none h.tombstones]
      · obtain ⟨p, hp, -⟩ := hphantom
        rw [← readChain_filter_live ht, h.exhausted (ne_nil_of_mem hp), readChain_nil]
      · intro w hw
        obtain ⟨w', hw', rfl⟩ := mem_map.mp hw
        exact hunseen' w' hw'
    · have hunseen : ∀ w ∈ newer, S.sees t w = false := by
        simpa using fun hseen => (hseen_iff.mp hseen).elim hseen' hphantom
      rw [h.full.readChain_eq ht hunseen, hbase]

theorem Diverged.mono
    (hstatus : ∀ d, S.status d = some .rolledBack → S'.status d = some .rolledBack)
    (hlive : ∀ v ∈ base, S'.live v = S.live v) (hsub : ∀ v ∈ base', v ∈ base) :
    S'.Diverged base base' newer newer' phantom chain chain' where
  full := h.full.mono hstatus hlive
  kept := h.kept.mono hstatus fun v hv => hlive v (hsub v hv)
  same := h.same
  tombstones := h.tombstones
  exhausted hne := by
    rw [filter_congr fun v hv => hlive v (hsub v hv)]
    exact h.exhausted hne

theorem Diverged.congr (hstatus : S'.status = S.status) :
    S'.Diverged base base' newer newer' phantom chain chain' := by
  have hlive : S'.live = S.live := by
    funext v
    simp only [live, hstatus]
  refine ⟨h.full.mono ?_ ?_, h.kept.mono ?_ ?_, h.same, h.tombstones, by
    rw [hlive]
    exact h.exhausted⟩ <;> simp [hstatus, hlive]

end

variable {version : RecordVersion δ}

/-- Both chains are covered by the same version. -/
theorem diverged_cover (h : S.Diverged base base' newer newer' phantom chain chain')
    (hmarks : ∀ v ∈ chain, ∀ d, v.deletedTxId = some d → d ≠ 0)
    (hmarks' : ∀ v ∈ chain', ∀ d, v.deletedTxId = some d → d ≠ 0)
    (hmark : version.deletedTxId = none) :
    S.Diverged base base' (version :: markHead version.txId newer)
      (version :: markHead version.txId newer') phantom
      (version :: markHead version.txId chain) (version :: markHead version.txId chain') where
  full := grown_cover h.full hmarks hmark
  kept := grown_cover h.kept hmarks' hmark
  same := by
    simp only [map_cons, MvccEngine.map_unmarked_markHead, h.same, cons_append]
  tombstones := h.tombstones
  exhausted := h.exhausted

/-- A tombstone is added where the vacuum has left nothing. -/
theorem diverged_phantom {base base' newer newer' phantom chain : List (RecordVersion δ)}
    (h : S.Diverged base base' newer newer' phantom chain [])
    (hmarks : ∀ v ∈ chain, ∀ d, v.deletedTxId = some d → d ≠ 0) (hmark : version.deletedTxId = none)
    (htombstone : version.value = none) :
    S.Diverged base base' (version :: markHead version.txId newer) newer'
      (version.unmarked :: phantom) (version :: markHead version.txId chain) [] := by
  obtain ⟨-, older, hchain, holder⟩ := h.kept
  obtain ⟨rfl, rfl⟩ := append_eq_nil_iff.mp hchain.symm
  refine ⟨grown_cover h.full hmarks hmark, h.kept, ?_, ?_, fun _ => ?_⟩
  · simpa [MvccEngine.map_unmarked_markHead] using h.same
  · rintro p hp
    rcases mem_cons.mp hp with rfl | hp
    · exact htombstone
    · exact h.tombstones p hp
  · exact forall₂_nil_right_iff.mp holder

theorem diverged_rollback (hcoherent : S.Coherent)
    (h : S.Diverged base base' newer newer' phantom chain chain') {t : ℕ} (hactive : S.Active t) :
    (S.rollback t).Diverged base base' (newer.filter fun v => v.txId ≠ t)
      (newer'.filter fun v => v.txId ≠ t) (phantom.filter fun v => v.txId ≠ t)
      (chain.filter fun v => v.txId ≠ t) (chain'.filter fun v => v.txId ≠ t) where
  full := grown_rollback hcoherent h.full hactive
  kept := grown_rollback hcoherent h.kept hactive
  same := by
    have hmap : ∀ l : List (RecordVersion δ), (l.filter fun v => v.txId ≠ t).map (·.unmarked) =
        (l.map (·.unmarked)).filter fun v => v.txId ≠ t := by
      intro l
      rw [filter_map]
      rfl
    rw [hmap, hmap, h.same, filter_append]
  tombstones p hp := h.tombstones p (mem_filter.mp hp).1
  exhausted hne := by
    have hphantom : phantom ≠ [] := by
      rintro rfl
      exact hne rfl
    rw [filter_live_rollback, h.exhausted hphantom, filter_nil]

/-- Two runs from `S₀`, the second one after a vacuum at `threshold`. -/
structure Twin (S₀ : VersionStore δ) (threshold : ℕ) (S S' : VersionStore δ) : Prop where
  later : S₀.Later S
  coherent : S.Coherent
  coherent' : S'.Coherent
  seq : S'.seq = S.seq
  status : S'.status = S.status
  chains : ∀ key, ∃ newer newer' phantom,
    S.Diverged (S₀.chain key) ((S₀.purge threshold).chain key) newer newer' phantom
      (S.chain key) (S'.chain key)

theorem Coherent.mark_ne_zero (h : S.Coherent) {key : RecordKey} :
    ∀ v ∈ S.chain key, ∀ d, v.deletedTxId = some d → d ≠ 0 := by
  intro v hv d hd
  have := (h.mark_known key v hv d hd).1
  omega

theorem twin_vacuum (h : S.Coherent) (threshold : ℕ) : S.Twin threshold S (S.purge threshold) := by
  have hlive : ∀ key, ∀ v ∈ S.chain key, S.live v = true := by
    intro key v hv
    rcases h.writer_live key v hv with hs | hs <;> simp [live, hs]
  refine ⟨.refl S, h, coherent_purge h threshold, rfl, rfl, fun key => ⟨[], [], [], ?_⟩⟩
  exact ⟨grown_refl (hlive key), grown_refl fun v hv => hlive key v (mem_of_mem_vacuumChain hv).1,
    rfl, by simp, by simp⟩

/-- A chain that is empty without the vacuum is empty with it. -/
theorem Diverged.chain_eq_nil {base base' newer newer' phantom chain' : List (RecordVersion δ)}
    (h : S.Diverged base base' newer newer' phantom [] chain') (hsub : ∀ v ∈ base', v ∈ base) :
    chain' = [] := by
  obtain ⟨-, older, hchain, holder⟩ := h.full
  obtain ⟨-, older', rfl, holder'⟩ := h.kept
  obtain ⟨rfl, rfl⟩ := append_eq_nil_iff.mp hchain.symm
  have hnewer : newer' = [] := by simpa using (append_eq_nil_iff.mp h.same.symm).1
  have hbase : base'.filter S.live = [] := by
    rw [filter_eq_nil_iff]
    exact fun v hv => filter_eq_nil_iff.mp (forall₂_nil_right_iff.mp holder) v
      (hsub v hv)
  rw [hbase] at holder'
  rw [hnewer, forall₂_nil_left_iff.mp holder', append_nil]

theorem twin_cover {S₀ S S' : VersionStore δ} (h : S₀.Twin threshold S S') (key : RecordKey)
    (hactive : S.Active version.txId) (hmark : version.deletedTxId = none) :
    S₀.Twin threshold (S.cover key version) (S'.cover key version) where
  later := ⟨h.later.seq_le, h.later.status⟩
  coherent := coherent_cover h.coherent hactive hmark
  coherent' := coherent_cover h.coherent' ((congrFun h.status _).trans hactive) hmark
  seq := h.seq
  status := h.status
  chains key' := by
    obtain ⟨newer, newer', phantom, hdiverged⟩ := h.chains key'
    by_cases hk : key' = key
    · subst hk
      simp only [cover, update_self]
      exact ⟨_, _, _, (diverged_cover hdiverged h.coherent.mark_ne_zero
        h.coherent'.mark_ne_zero hmark).congr rfl⟩
    · simp only [cover, update_of_ne hk]
      exact ⟨newer, newer', phantom, hdiverged.congr rfl⟩

theorem twin_phantom {S₀ S S' : VersionStore δ} (h : S₀.Twin threshold S S') (key : RecordKey)
    (hempty : S'.chain key = []) (hactive : S.Active version.txId)
    (hmark : version.deletedTxId = none) (htombstone : version.value = none) :
    S₀.Twin threshold (S.cover key version) S' where
  later := ⟨h.later.seq_le, h.later.status⟩
  coherent := coherent_cover h.coherent hactive hmark
  coherent' := h.coherent'
  seq := h.seq
  status := h.status
  chains key' := by
    obtain ⟨newer, newer', phantom, hdiverged⟩ := h.chains key'
    by_cases hk : key' = key
    · subst hk
      rw [hempty] at hdiverged ⊢
      simp only [cover, update_self]
      exact ⟨_, _, _,
        (diverged_phantom hdiverged h.coherent.mark_ne_zero hmark htombstone).congr rfl⟩
    · simp only [cover, update_of_ne hk]
      exact ⟨newer, newer', phantom, hdiverged.congr rfl⟩

/-- A begin or a commit: nobody is rolled back, and no chain changes. -/
theorem twin_status {S₀ S S' T T' : VersionStore δ} (hcoherent : S₀.Coherent)
    (h : S₀.Twin threshold S S') (hlater : S₀.Later T) (hT : T.Coherent) (hT' : T'.Coherent)
    (hseq : T'.seq = T.seq) (hstatus : T'.status = T.status) (hchain : T.chain = S.chain)
    (hchain' : T'.chain = S'.chain)
    (hrolled : ∀ d ≤ S.seq, T.status d = some .rolledBack ↔ S.status d = some .rolledBack) :
    S₀.Twin threshold T T' := by
  refine ⟨hlater, hT, hT', hseq, hstatus, fun key => ?_⟩
  obtain ⟨newer, newer', phantom, hdiverged⟩ := h.chains key
  rw [hchain, hchain']
  refine ⟨newer, newer', phantom, hdiverged.mono (fun d hd => ?_) (fun v hv => ?_) fun v hv => ?_⟩
  · exact (hrolled d ((h.coherent.known d).mp (by simp [hd])).2).mpr hd
  · have hle := le_trans (hcoherent.writer_bounds hv).2 h.later.seq_le
    simp only [live, ne_eq, decide_not, hrolled v.txId hle]
  · exact (mem_of_mem_vacuumChain hv).1

theorem twin_step {S₀ S S' : VersionStore δ} (hcoherent : S₀.Coherent) (h : S₀.Twin threshold S S')
    {call : MvccCall δ} (hcall : call.isVacuum = false) :
    S₀.Twin threshold (S.step call) (S'.step call) := by
  have hactive_iff : ∀ t, S'.Active t ↔ S.Active t := fun t => by rw [Active, h.status]
  cases call with
  | beginTransaction level =>
    refine twin_status hcoherent h (later_step h.later (.beginTransaction level))
      (coherent_begin h.coherent) (coherent_begin h.coherent') ?_ ?_ rfl rfl fun d hd => ?_
    · simp [step, begin, h.seq]
    · simp [step, begin, h.seq, h.status]
    · have hne : d ≠ S.seq + 1 := by omega
      simp [step, begin, update_of_ne hne]
  | writeRecord table recordId data txId =>
    simp only [step, hactive_iff]
    split
    · exact twin_cover h _ ‹_› rfl
    · exact h
  | deleteRecord table recordId txId =>
    simp only [step, hactive_iff]
    by_cases hactive : S.Active txId
    · cases hchain : S.chain ⟨table, recordId⟩ with
      | nil =>
        obtain ⟨newer, newer', phantom, hdiverged⟩ := h.chains ⟨table, recordId⟩
        rw [hchain] at hdiverged
        simp [hdiverged.chain_eq_nil fun v hv => (mem_of_mem_vacuumChain hv).1, h]
      | cons v rest =>
        cases hchain' : S'.chain ⟨table, recordId⟩ with
        | nil =>
          rw [if_pos ⟨hactive, by simp⟩, if_neg (by simp)]
          exact twin_phantom h _ hchain' hactive rfl rfl
        | cons v' rest' =>
          rw [if_pos ⟨hactive, by simp⟩, if_pos ⟨hactive, by simp⟩]
          exact twin_cover h _ hactive rfl
    · simp [hactive, h]
  | commitTransaction txId =>
    have hlater := later_step h.later (.commitTransaction txId)
    simp only [step, hactive_iff] at hlater ⊢
    split
    · rename_i hactive
      rw [if_pos hactive] at hlater
      refine twin_status hcoherent h hlater (coherent_commit h.coherent hactive)
        (coherent_commit h.coherent' ((hactive_iff _).mpr hactive)) h.seq ?_ rfl rfl
        fun d _ => ?_
      · simp [commit, h.status]
      · by_cases hd : d = txId
        · subst hd
          simp [commit, hactive]
        · simp [commit, update_of_ne hd]
    · exact h
  | rollbackTransaction txId =>
    have hlater := later_step h.later (.rollbackTransaction txId)
    simp only [step, hactive_iff] at hlater ⊢
    split
    · rename_i hactive
      rw [if_pos hactive] at hlater
      refine ⟨hlater, coherent_rollback h.coherent hactive,
        coherent_rollback h.coherent' ((hactive_iff _).mpr hactive), h.seq, ?_, fun key => ?_⟩
      · simp [rollback, h.status]
      · obtain ⟨newer, newer', phantom, hdiverged⟩ := h.chains key
        exact ⟨_, _, _, diverged_rollback h.coherent hdiverged hactive⟩
    · exact h
  | vacuum => cases hcall

theorem twin_run {S₀ S S' : VersionStore δ} (hcoherent : S₀.Coherent) (h : S₀.Twin threshold S S')
    {calls : List (MvccCall δ)} (hcalls : ∀ call ∈ calls, call.isVacuum = false) :
    S₀.Twin threshold (Run.run step S calls) (Run.run step S' calls) := by
  induction calls generalizing S S' with
  | nil => exact h
  | cons call rest ih =>
    rw [forall_mem_cons] at hcalls
    exact ih (twin_step hcoherent h hcalls.1) hcalls.2

/-- **A safe vacuum is invisible**, now and later. -/
theorem VacuumSafe.read_run_eq (hcoherent : S.Coherent) (hsafe : S.VacuumSafe threshold)
    {calls : List (MvccCall δ)} (hcalls : ∀ call ∈ calls, call.isVacuum = false) {t : ℕ}
    (ht : S.Active t ∨ S.seq < t) (hrolled : (Run.run step S calls).status t ≠ some .rolledBack)
    (key : RecordKey) :
    (Run.run step (S.purge threshold) calls).read key t = (Run.run step S calls).read key t := by
  have htwin := twin_run hcoherent (twin_vacuum hcoherent threshold) hcalls
  obtain ⟨newer, newer', phantom, hdiverged⟩ := htwin.chains key
  have hread := hdiverged.readChain_eq hrolled (hsafe.readChain_eq hcoherent htwin.later ht key)
  rw [read, read, ← hread]
  exact readChain_congr (fun v _ => isTxCommitted_congr (congrFun htwin.status _))
    fun v _ d _ => isTxCommitted_congr (congrFun htwin.status d)

/-! ## Reaching an outcome -/

/-- Begin transactions up to `t`, then commit those of the active ones that are to commit. -/
def settleCalls (S : VersionStore δ) (commits : ℕ → Bool) (t : ℕ) : List (MvccCall δ) :=
  List.replicate (t - S.seq) (.beginTransaction .snapshotIsolation) ++
    ((List.range (S.seq + 1)).filter fun u => S.Active u ∧ commits u = true).map .commitTransaction

theorem isVacuum_settleCalls (S : VersionStore δ) (commits : ℕ → Bool) (t : ℕ) :
    ∀ call ∈ S.settleCalls commits t, call.isVacuum = false := by
  intro call hcall
  rcases mem_append.mp hcall with hbegin | hcommit
  · rw [eq_of_mem_replicate hbegin]
    rfl
  · obtain ⟨u, -, rfl⟩ := mem_map.mp hcommit
    rfl

theorem run_begins (S : VersionStore δ) (n : ℕ) :
    let S' := Run.run step S (List.replicate n (.beginTransaction .snapshotIsolation))
    S'.seq = S.seq + n ∧ S'.chain = S.chain ∧ (∀ u ≤ S.seq, S'.status u = S.status u) ∧
      ∀ u, S.seq < u → u ≤ S.seq + n → S'.Active u := by
  induction n generalizing S with
  | zero => exact ⟨rfl, rfl, fun _ _ => rfl, fun u _ _ => by omega⟩
  | succ n ih =>
    obtain ⟨hseq, hchain, hold, hnew⟩ := ih S.begin
    refine ⟨hseq.trans (by simp only [begin]; omega), hchain, fun u hu => ?_, fun u hu hle => ?_⟩
    · refine (hold u (Nat.le_succ_of_le hu)).trans ?_
      simp only [begin, update_of_ne (show u ≠ S.seq + 1 by omega)]
    · by_cases hu1 : u = S.seq + 1
      · subst hu1
        exact (hold _ le_rfl).trans (by simp [begin])
      · refine hnew u ?_ ?_
        · simp only [begin]
          omega
        · simp only [begin]
          omega

theorem run_commits (S : VersionStore δ) (us : List ℕ) :
    let S' := Run.run step S (us.map .commitTransaction)
    S'.seq = S.seq ∧ S'.chain = S.chain ∧
      ∀ u, S'.status u = if u ∈ us ∧ S.Active u then some .committed else S.status u := by
  induction us generalizing S with
  | nil => simp
  | cons t rest ih =>
    obtain ⟨hseq, hchain, hstatus⟩ := ih (S.step (.commitTransaction t))
    by_cases hactive : S.Active t
    · have hstep : S.step (.commitTransaction t) = S.commit t := if_pos hactive
      rw [hstep] at hseq hchain hstatus
      simp only [map_cons, Run.run_cons, hstep]
      refine ⟨hseq, hchain, fun u => ?_⟩
      rw [hstatus u]
      by_cases hut : u = t
      · subst hut
        simp [commit, hactive]
      · simp [commit, Active, hut]
    · have hstep : S.step (.commitTransaction t) = S := if_neg hactive
      rw [hstep] at hseq hchain hstatus
      simp only [map_cons, Run.run_cons, hstep]
      refine ⟨hseq, hchain, fun u => ?_⟩
      rw [hstatus u]
      by_cases hut : u = t
      · subst hut
        simp [hactive]
      · simp [hut]

theorem chain_run_settleCalls (S S' : VersionStore δ) (commits : ℕ → Bool) (t : ℕ) :
    (Run.run step S' (S.settleCalls commits t)).chain = S'.chain := by
  rw [settleCalls, Run.run_append]
  exact (run_commits _ _).2.1.trans (run_begins _ _).2.1

/-- The calls begin `t` and leave the transactions known before in their outcome. -/
theorem run_settleCalls (S : VersionStore δ) (commits : ℕ → Bool) (t : ℕ) :
    t ≤ (Run.run step S (S.settleCalls commits t)).seq ∧
      (∀ u, S.seq < u → u ≤ t → (Run.run step S (S.settleCalls commits t)).Active u) ∧
      ∀ u ≤ S.seq, (Run.run step S (S.settleCalls commits t)).status u =
        (S.settled commits).status u := by
  obtain ⟨hseq, -, hold, hnew⟩ := run_begins S (t - S.seq)
  rw [settleCalls, Run.run_append]
  generalize Run.run step S _ = S₁ at hseq hold hnew ⊢
  obtain ⟨hseq', -, hstatus⟩ := run_commits S₁
    ((List.range (S.seq + 1)).filter fun u => S.Active u ∧ commits u = true)
  refine ⟨by rw [hseq', hseq]; omega, fun u hu hut => ?_, fun u hu => (hstatus u).trans ?_⟩
  · have hnot : u ∉ (List.range (S.seq + 1)).filter fun u => S.Active u ∧ commits u = true := by
      simp only [mem_filter, mem_range]
      omega
    refine (hstatus u).trans ?_
    rw [if_neg fun h => hnot h.1]
    exact hnew u hu (by omega)
  · have hrange : u < S.seq + 1 := by omega
    by_cases hactive : S.status u = some .active
    · simp [settled, Active, hold u hu, hrange, hactive]
    · simp [settled, Active, hold u hu, hrange, hactive]

/-- Whoever reads the same in every outcome had nothing taken. -/
theorem vacuumSafe_of_read_eq (hcoherent : S.Coherent) (hown : S.OwnData)
    (hread : ∀ calls : List (MvccCall δ), (∀ call ∈ calls, call.isVacuum = false) → ∀ t,
      (S.Active t ∨ S.seq < t) → t ≤ (Run.run step S calls).seq →
      (Run.run step S calls).status t ≠ some .rolledBack → ∀ key,
      (Run.run step (S.purge threshold) calls).read key t = (Run.run step S calls).read key t) :
    S.VacuumSafe threshold := by
  intro commits t ht key v hfirst hdropped
  obtain ⟨hseq, hnew, hold⟩ := run_settleCalls S commits t
  have hchain := fun S' => chain_run_settleCalls S S' commits t
  have hcalls := isVacuum_settleCalls S commits t
  generalize S.settleCalls commits t = calls at hseq hnew hold hchain hcalls
  have htwin := twin_run hcoherent (twin_vacuum hcoherent threshold) hcalls
  have hrolled : (Run.run step S calls).status t ≠ some .rolledBack := by
    rcases ht with hactive | hlt
    · rw [hold t (hcoherent.active_bounds hactive).2]
      simp only [settled]
      split <;> simp [hactive]
    · rw [show (Run.run step S calls).status t = some .active from hnew t hlt le_rfl]
      simp
  -- the calls led to the outcome
  have hsettled : ∀ chain, (∀ v ∈ chain, v ∈ S.chain key) →
      (Run.run step S calls).readChain t chain = (S.settled commits).readChain t chain := by
    intro chain hchain
    refine readChain_congr (fun v hv => ?_) fun v hv d hd => ?_
    · exact isTxCommitted_congr (hold v.txId (hcoherent.writer_bounds (hchain v hv)).2)
    · exact isTxCommitted_congr (hold d (hcoherent.mark_known key v (hchain v hv) d hd).2)
  have hkept : ∀ v ∈ (S.purge threshold).chain key, v ∈ S.chain key :=
    fun v hv => (mem_of_mem_vacuumChain hv).1
  refine gone_of_readChain_vacuumChain (hown key) ?_ hfirst hdropped
  calc (S.settled commits).readChain t ((S.purge threshold).chain key)
      = (Run.run step S calls).readChain t ((S.purge threshold).chain key) :=
        (hsettled _ hkept).symm
    _ = (Run.run step (S.purge threshold) calls).read key t := by
        rw [read, hchain]
        exact readChain_congr (fun v _ => isTxCommitted_congr (congrFun htwin.status _).symm)
          fun v _ d _ => isTxCommitted_congr (congrFun htwin.status d).symm
    _ = (Run.run step S calls).read key t := hread calls hcalls t ht hseq hrolled key
    _ = (Run.run step S calls).readChain t (S.chain key) := by rw [read, hchain]
    _ = (S.settled commits).readChain t (S.chain key) := hsettled _ fun _ => id

/-- With no transaction active, a vacuum is safe that keeps the newest version of
every record, or drops nothing but a tombstone with all that lies below it. -/
theorem vacuumSafe_of_quiescent (hcoherent : S.Coherent) (hquiet : ∀ t, ¬ S.Active t)
    (hnewest : ∀ key v, (S.chain key).head? = some v → ¬ Dropped threshold (S.chain key) v ∨
      v.value = none ∧ (S.purge threshold).chain key = []) : S.VacuumSafe threshold := by
  intro commits t ht key v hfirst hdropped
  have hlt : S.seq < t := ht.resolve_left (hquiet t)
  -- every reader stops at the newest version
  have hhead : (S.chain key).head? = some v := by
    cases hchain : S.chain key with
    | nil => simp [hchain] at hfirst
    | cons w rest =>
      have hw : w ∈ S.chain key := by simp [hchain]
      have hcommitted := (hcoherent.writer_live key w hw).resolve_left (hquiet _)
      have hle := (hcoherent.writer_bounds hw).2
      have hsees : (S.settled commits).sees t w = true := by
        simp only [sees, seesWriter, isTxCommitted, settled, hcommitted, hquiet, false_and,
          if_false]
        simp only [decide_true, Bool.true_and, Bool.or_eq_true, decide_eq_true_eq]
        omega
      simpa [hchain, hsees] using hfirst
  rcases hnewest key v hhead with hkept | ⟨hvalue, hempty⟩
  · exact absurd hdropped hkept
  · exact ⟨.inr hvalue, by simp [hempty]⟩

end VersionStore

/-! ## Vacuum with the default threshold -/

/-- From `e` on, whatever happens until the next vacuum, no transaction that is
active at `e` or begins later, and is not rolled back itself, reads anything else
for `vacuum()` having been called at `e`. -/
def VacuumInvisible (e : MvccEngine δ) : Prop :=
  ∀ calls : List (MvccCall δ), (∀ call ∈ calls, call.isVacuum = false) → ∀ t,
    (e.denote.Active t ∨ e.currentTxSeq < t) → t ≤ (Run.run step e calls).currentTxSeq →
    (Run.run step e calls).statusOf t ≠ some .rolledBack → ∀ table recordId,
    (Run.run step (e.vacuum none).2 calls).readRecord table recordId t =
      (Run.run step e calls).readRecord table recordId t

/-- **Vacuum is invisible where it is safe**, and, as long as no two versions of a
record hold the same value, only there. -/
theorem vacuum_invisible_where_safe (calls : List (MvccCall δ)) :
    let e : MvccEngine δ := Run.run step .init calls
    (e.denote.VacuumSafe e.denote.oldestActive → VacuumInvisible e) ∧
      (e.denote.OwnData → VacuumInvisible e → e.denote.VacuumSafe e.denote.oldestActive) := by
  intro e
  have hkeyed := MvccEngine.keyed_run calls
  have hcoherent := MvccEngine.coherent_run calls
  have hvacuum : (e.vacuum none).2.denote = e.denote.purge e.denote.oldestActive :=
    MvccEngine.denote_step hkeyed hcoherent (.vacuum none)
  have hrun : ∀ later, (Run.run step e later).denote = Run.run VersionStore.step e.denote later :=
    MvccEngine.denote_run_of hkeyed hcoherent
  have hrun' : ∀ later, (Run.run step (e.vacuum none).2 later).denote =
      Run.run VersionStore.step (e.denote.purge e.denote.oldestActive) later := by
    intro later
    rw [← hvacuum]
    refine MvccEngine.denote_run_of (MvccEngine.keyed_step hkeyed (.vacuum none)) ?_ later
    exact hvacuum ▸ VersionStore.coherent_purge hcoherent _
  constructor
  · intro hsafe later hlater t ht _ hrolled table recordId
    rw [MvccEngine.readRecord_eq, MvccEngine.readRecord_eq, hrun, hrun']
    refine hsafe.read_run_eq hcoherent hlater ht ?_ ⟨table, recordId⟩
    rw [← hrun]
    exact hrolled
  · intro hown hinvisible
    refine VersionStore.vacuumSafe_of_read_eq hcoherent hown ?_
    rintro later hlater t ht hseq hrolled ⟨table, recordId⟩
    rw [← hrun] at hseq hrolled ⊢
    rw [← hrun', ← MvccEngine.readRecord_eq, ← MvccEngine.readRecord_eq]
    exact hinvisible later hlater t ht hseq hrolled table recordId

/-- An update that committed: the old version is not missed. -/
theorem vacuum_after_update_invisible :
    VacuumInvisible (Run.run step (.init : MvccEngine String)
      [.beginTransaction .snapshotIsolation, .writeRecord "users" "usr_100" "Alice" 1,
        .commitTransaction 1, .beginTransaction .snapshotIsolation,
        .writeRecord "users" "usr_100" "Bob" 2, .commitTransaction 2]) := by
  refine (vacuum_invisible_where_safe _).1 ?_
  refine VersionStore.vacuumSafe_of_quiescent (MvccEngine.coherent_run _) (fun t ht => ?_)
    fun key v hv => Or.inl ?_
  · have hle : t ≤ 2 := ((MvccEngine.coherent_run _).active_bounds ht).2
    obtain rfl | rfl | rfl : t = 0 ∨ t = 1 ∨ t = 2 := by omega
    all_goals exact absurd ht (by decide)
  · have hmem := mem_of_mem_head? hv
    have hbounds : 1 ≤ v.txId ∧ v.txId ≤ 2 := (MvccEngine.coherent_run _).writer_bounds hmem
    have hnoted := (MvccEngine.coherent_run _).writer_noted key v hmem
    obtain rfl : key = ⟨"users", "usr_100"⟩ := by
      obtain h | h : v.txId = 1 ∨ v.txId = 2 := by omega
      all_goals
        rw [h] at hnoted
        exact mem_singleton.mp hnoted
    obtain rfl := Option.some.inj hv
    decide

/-- A rolled-back update leaves its stamp, and the vacuum drops the only live version. -/
theorem vacuum_after_rollback_loses_record :
    ¬ VacuumInvisible (Run.run step (.init : MvccEngine String)
      [.beginTransaction .snapshotIsolation, .writeRecord "users" "usr_100" "Alice" 1,
        .commitTransaction 1, .beginTransaction .snapshotIsolation,
        .writeRecord "users" "usr_100" "Bob" 2, .rollbackTransaction 2]) := by
  intro h
  have hread := h [.beginTransaction .snapshotIsolation] (by simp [MvccCall.isVacuum]) 3
    (by decide) (by decide) (by decide) "users" "usr_100"
  exact absurd hread (by decide)

end Lumi.Mvcc
