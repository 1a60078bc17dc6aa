import Lumi.Mvcc.Visibility

/-!
# Chains that grow on a base

From some moment on, without a vacuum, a chain consists of the versions written
since, on top of what is left of the chain it was: rollbacks take versions out
of both parts, and a writer that finds nothing newer stamps the head of the old
part.  `Grown` is that shape and `grown_cover`, `grown_rollback` keep it.

`Grown.readChain_eq` is what it is for: a reader that sees none of the newer
versions reads what it would have read in the base, whatever stamps were added
to it in the meantime.
-/

open List

namespace Lumi.Mvcc
variable {δ : Type*}

namespace VersionStore

open MvccEngine (markHead)

/-- The writer was not rolled back. -/
def live (S : VersionStore δ) (v : RecordVersion δ) : Bool := S.status v.txId ≠ some .rolledBack

/-- A version of the base, and what has become of it: it may have been stamped,
by a transaction that is rolled back or has a version among the `newer` ones. -/
def Restamped (S : VersionStore δ) (newer : List (RecordVersion δ)) (v₀ v : RecordVersion δ) :
    Prop :=
  v = v₀ ∨ v₀.deletedTxId = none ∧ ∃ d, v = { v₀ with deletedTxId := some d } ∧
    (S.status d = some .rolledBack ∨ ∃ w ∈ newer, w.txId = d)

/-- The chain holds the versions `newer` on top of what is left of `base`. -/
def Grown (S : VersionStore δ) (base newer chain : List (RecordVersion δ)) : Prop :=
  S.StampedChain newer ∧ ∃ older, chain = newer ++ older ∧
    List.Forall₂ (S.Restamped newer) (base.filter S.live) older

variable {S : VersionStore δ}

variable {newer : List (RecordVersion δ)}

theorem Restamped.txId_eq {v₀ v : RecordVersion δ} (h : S.Restamped newer v₀ v) :
    v.txId = v₀.txId := by
  rcases h with rfl | ⟨-, d, rfl, -⟩ <;> rfl

theorem Restamped.mono {S S' : VersionStore δ} {newer newer' : List (RecordVersion δ)}
    {v₀ v : RecordVersion δ} (h : S.Restamped newer v₀ v)
    (hstatus : ∀ d, S.status d = some .rolledBack → S'.status d = some .rolledBack)
    (hnewer : ∀ w ∈ newer, S'.status w.txId = some .rolledBack ∨ ∃ w' ∈ newer', w'.txId = w.txId) :
    S'.Restamped newer' v₀ v := by
  rcases h with rfl | ⟨hnone, d, rfl, hrolled | ⟨w, hw, rfl⟩⟩
  · exact .inl rfl
  · exact .inr ⟨hnone, d, rfl, .inl (hstatus d hrolled)⟩
  · exact .inr ⟨hnone, w.txId, rfl, hnewer w hw⟩

/-- A chain has grown on itself. -/
theorem grown_refl {chain : List (RecordVersion δ)} (hlive : ∀ v ∈ chain, S.live v = true) :
    S.Grown chain [] chain := by
  refine ⟨fun newer v older hsplit => by simp at hsplit, chain, rfl, ?_⟩
  rw [filter_eq_self.mpr hlive]
  exact forall₂_same.mpr fun v _ => .inl rfl

variable {base newer chain : List (RecordVersion δ)}

/-- A call that leaves the chain alone and rolls back nobody who wrote to it. -/
theorem Grown.mono {S S' : VersionStore δ} (h : S.Grown base newer chain)
    (hstatus : ∀ d, S.status d = some .rolledBack → S'.status d = some .rolledBack)
    (hlive : ∀ v ∈ base, S'.live v = S.live v) : S'.Grown base newer chain := by
  obtain ⟨hstamped, older, rfl, holder⟩ := h
  refine ⟨hstamped.mono hstatus, older, rfl, ?_⟩
  rw [filter_congr hlive]
  exact holder.imp fun v₀ v h => h.mono hstatus fun w hw => .inr ⟨w, hw, rfl⟩

variable {t : ℕ}

theorem exists_txId_markHead {chain : List (RecordVersion δ)} {w : RecordVersion δ} (hw : w ∈ chain) :
    ∃ w' ∈ markHead t chain, w'.txId = w.txId := by
  have : w.txId ∈ ((markHead t chain).map (·.unmarked)).map (·.txId) := by
    rw [MvccEngine.map_unmarked_markHead, map_map]
    exact mem_map.mpr ⟨w, hw, rfl⟩
  obtain ⟨w', hw', heq⟩ := mem_map.mp (map_map ▸ this)
  exact ⟨w', hw', heq⟩

/-- Covering a chain adds to its newer part. -/
theorem grown_cover (h : S.Grown base newer chain)
    (hmarks : ∀ v ∈ chain, ∀ d, v.deletedTxId = some d → d ≠ 0) {version : RecordVersion δ}
    (hmark : version.deletedTxId = none) :
    S.Grown base (version :: markHead version.txId newer)
      (version :: markHead version.txId chain) := by
  obtain ⟨hstamped, older, rfl, holder⟩ := h
  refine ⟨stampedChain_cover hstamped hmark, ?_⟩
  cases newer with
  | cons head rest =>
    refine ⟨older, rfl, holder.imp fun v₀ v h => h.mono (fun _ => id) fun w hw => .inr ?_⟩
    obtain ⟨w', hw', heq⟩ := exists_txId_markHead (t := version.txId) hw
    exact ⟨w', mem_cons_of_mem _ hw', heq⟩
  | nil =>
    -- the head of the old part is stamped, if anything is
    refine ⟨markHead version.txId older, rfl, ?_⟩
    generalize base.filter S.live = base at holder ⊢
    have hweaken : ∀ v₀ v, S.Restamped [] v₀ v → S.Restamped [version] v₀ v :=
      fun v₀ v h => h.mono (fun _ => id) (by simp)
    cases holder with
    | nil => exact List.Forall₂.nil
    | @cons v₀ v base older hhead hrest =>
      refine List.Forall₂.cons ?_ (hrest.imp hweaken)
      split
      · rename_i hzero
        have hnone : v.deletedTxId = none := by
          cases hd : v.deletedTxId with
          | none => rfl
          | some d => exact absurd (by simpa [hd] using hzero) (hmarks v (by simp) d hd)
        rcases hhead with rfl | ⟨-, d, rfl, -⟩
        · exact .inr ⟨hnone, version.txId, rfl, .inr ⟨version, by simp, rfl⟩⟩
        · simp at hnone
      · exact hweaken v₀ v hhead

/-- After a rollback of `t` the versions of `t` count as dead too. -/
theorem filter_live_rollback (S : VersionStore δ) (t : ℕ) (base : List (RecordVersion δ)) :
    base.filter (S.rollback t).live = (base.filter S.live).filter fun v => v.txId ≠ t := by
  rw [filter_filter]
  refine filter_congr fun v _ => ?_
  by_cases hv : v.txId = t
  · simp [live, rollback, hv]
  · simp [live, rollback, hv]

/-- A rollback takes versions out of both parts. -/
theorem grown_rollback (hcoherent : S.Coherent) (h : S.Grown base newer chain)
    (hactive : S.Active t) :
    (S.rollback t).Grown base (newer.filter fun v => v.txId ≠ t)
      (chain.filter fun v => v.txId ≠ t) := by
  obtain ⟨hstamped, older, rfl, holder⟩ := h
  have hstatus : ∀ d, S.status d = some .rolledBack →
      (S.rollback t).status d = some .rolledBack := by
    intro d hd
    simpa only [step, if_pos hactive] using rolledBack_step hcoherent (.rollbackTransaction t) d hd
  refine ⟨stampedChain_rollback hcoherent hstamped hactive, _, filter_append .., ?_⟩
  rw [filter_live_rollback]
  refine (rel_filter (fun v₀ v hv => by simp [hv.txId_eq]) holder).imp fun v₀ v hv => ?_
  refine hv.mono hstatus fun w hw => ?_
  by_cases hwt : w.txId = t
  · exact .inl (by simp [rollback, hwt])
  · exact .inr ⟨w, mem_filter.mpr ⟨hw, by simpa using hwt⟩, rfl⟩

/-! ## Reading a grown chain -/

theorem readChain_append_of_unseen (hunseen : ∀ w ∈ newer, S.sees t w = false)
    (older : List (RecordVersion δ)) : S.readChain t (newer ++ older) = S.readChain t older := by
  induction newer with
  | nil => rfl
  | cons w rest ih =>
    rw [forall_mem_cons] at hunseen
    rw [cons_append, readChain_cons_of_not_sees hunseen.1, ih hunseen.2]

theorem readChain_append_of_seen (hseen : ∃ w ∈ newer, S.sees t w = true)
    (older : List (RecordVersion δ)) : S.readChain t (newer ++ older) = S.readChain t newer := by
  unfold readChain
  rw [find?_append]
  cases hfind : newer.find? (S.sees t) with
  | some v => rfl
  | none =>
    obtain ⟨w, hw, hsees⟩ := hseen
    simp [find?_eq_none.mp hfind w hw] at hsees

/-- What nobody sees may be filtered out. -/
theorem readChain_filter_live (ht : S.status t ≠ some .rolledBack) (chain : List (RecordVersion δ)) :
    S.readChain t (chain.filter S.live) = S.readChain t chain := by
  induction chain with
  | nil => rfl
  | cons v rest ih =>
    by_cases hv : S.live v = true
    · rw [filter_cons_of_pos hv]
      by_cases hsees : S.sees t v = true
      · rw [readChain_cons_of_sees hsees, readChain_cons_of_sees hsees]
      · rw [Bool.not_eq_true] at hsees
        rw [readChain_cons_of_not_sees hsees, readChain_cons_of_not_sees hsees, ih]
    · have hrolled : S.status v.txId = some .rolledBack := by simpa [live] using hv
      have hsees : S.sees t v = false := seesWriter_of_rolledBack ht hrolled
      rw [filter_cons_of_neg hv, readChain_cons_of_not_sees hsees, ih]

/-- Stamps added since mean nothing to a reader that sees none of the newer versions. -/
theorem readChain_restamped (ht : S.status t ≠ some .rolledBack)
    (hunseen : ∀ w ∈ newer, S.sees t w = false) {base older : List (RecordVersion δ)}
    (h : List.Forall₂ (S.Restamped newer) base older) :
    S.readChain t older = S.readChain t base := by
  induction h with
  | nil => rfl
  | @cons v₀ v base older hhead _ ih =>
    have hsame : S.sees t v = S.sees t v₀ := by simp only [sees, hhead.txId_eq]
    cases hsees : S.sees t v₀ with
    | false => rw [readChain_cons_of_not_sees (hsame.trans hsees),
        readChain_cons_of_not_sees hsees, ih]
    | true =>
      rw [readChain_cons_of_sees (hsame.trans hsees), readChain_cons_of_sees hsees]
      rcases hhead with rfl | ⟨hnone, d, rfl, hd⟩
      · rfl
      · have hstamp : S.seesWriter t d = false := by
          rcases hd with hrolled | ⟨w, hw, rfl⟩
          · exact seesWriter_of_rolledBack ht hrolled
          · exact hunseen w hw
        have hold : S.deletedFor t v₀ = false := by simp [deletedFor, hnone]
        have hnew : S.deletedFor t { v₀ with deletedTxId := some d } = false :=
          deletedFor_eq_false_of_unseen fun d' hd' => Option.some.inj hd' ▸ hstamp
        rw [hold, hnew]
        rfl

/-- **A reader that sees nothing newer reads the base.** -/
theorem Grown.readChain_eq (h : S.Grown base newer chain) (ht : S.status t ≠ some .rolledBack)
    (hunseen : ∀ w ∈ newer, S.sees t w = false) : S.readChain t chain = S.readChain t base := by
  obtain ⟨-, older, rfl, holder⟩ := h
  rw [readChain_append_of_unseen hunseen, readChain_restamped ht hunseen holder,
    readChain_filter_live ht]

/-- A reader that sees something newer reads the first newer version it sees. -/
theorem Grown.readChain_eq_firstValue (h : S.Grown base newer chain)
    (ht : S.status t ≠ some .rolledBack) (hseen : ∃ w ∈ newer, S.sees t w = true) :
    S.readChain t chain = firstValue (S.seesWriter t) newer := by
  obtain ⟨hstamped, older, rfl, -⟩ := h
  rw [readChain_append_of_seen hseen, hstamped.readChain_eq ht]

end VersionStore

end Lumi.Mvcc
