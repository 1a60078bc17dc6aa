import Mathlib.Data.List.Nodup
import Lumi.Io.Bulkhead

/-!
# Bounded overtaking in the parent I/O bulkhead

A waiter is overtaken when another one is granted while it could be dispatched itself.  Its counter
of bypasses counts just these grants.  Up to the limit any waiter may overtake it, by its priority;
from then on the scan prefers the oldest waiter past the limit, so that only older ones do, and each
of them leaves the queue.  The older ones were all in the queue when the waiter came.

The grants of an event are listed with the pool as it was before each of them.
-/

namespace Lumi.Io

open Js List

/-- A grant: the pool before it, and the waiter that is dispatched. -/
structure Grant where
  pool : ParentIoBudgetPool
  waiter : ParentIoWaiter

/-- The grant goes to another waiter, and the one with the number could be dispatched. -/
def Grant.overtakes (g : Grant) (number : ℕ) : Bool :=
  g.waiter.sequence ≠ number && g.pool.waiters.any fun w =>
    w.sequence = number && g.pool.canDispatch w

namespace ParentIoBudgetPool

/-! ## The grants of an event -/

/-- The grants of `dispatch`. -/
def dispatchGrants : ℕ → ParentIoBudgetPool → List Grant
  | 0, _ => []
  | fuel + 1, p =>
    if p.active < p.capacity then
      match p.findBestEligibleWaiter with
      | none => []
      | some (index, waiter) => ⟨p, waiter⟩ :: dispatchGrants fuel (p.grant index waiter)
    else []

/-- The grants of `dispatchWhileCapacity`. -/
def capacityGrants (p : ParentIoBudgetPool) : List Grant := dispatchGrants p.waiters.length p

def cancelGrants (p : ParentIoBudgetPool) (sequence : ℕ) : List Grant :=
  match p.waiters.zipIdx.find? fun entry => entry.1.sequence = sequence with
  | none => []
  | some (waiter, index) => (p.drop index waiter).capacityGrants

def listenerGrants (p : ParentIoBudgetPool) (listener : ℕ × ℕ) : List Grant :=
  if p.listeners.contains listener then
    { p with listeners := p.listeners.erase listener }.cancelGrants listener.2
  else []

def listenersGrants : ParentIoBudgetPool → List (ℕ × ℕ) → List Grant
  | _, [] => []
  | p, listener :: rest => p.listenerGrants listener ++ listenersGrants (p.callListener listener) rest

/-- The grants of `step`. -/
def grants (p : ParentIoBudgetPool) : BulkheadEvent → List Grant
  | .acquire priority isFastIo workClass signal =>
    if signal.any fun s => s ∈ p.aborted then []
    else
      match ParentIoWorkClass.ofName (workClass.getD (text "small-read")), priority with
      | some workClass, .finite priority =>
        (p.enqueue ⟨priority, 0, p.sequence, isFastIo, workClass, signal⟩).capacityGrants
      | _, _ => []
  | .abort signal =>
    if signal ∈ p.aborted then []
    else { p with aborted := p.aborted ++ [signal] }.listenersGrants
      (p.listeners.filter fun l => l.1 = signal)
  | .release index =>
    match p.slots[index]? with
    | none => []
    | some slot => if slot.released then [] else (p.giveBack index slot).capacityGrants

def runGrants : ParentIoBudgetPool → List BulkheadEvent → List Grant
  | _, [] => []
  | p, event :: rest => p.grants event ++ runGrants (p.step event) rest

/-- How often the waiter with the number is overtaken. -/
def overtakings (number : ℕ) (grants : List Grant) : ℕ := grants.countP fun g => g.overtakes number

@[simp] theorem overtakings_append (number : ℕ) (first second : List Grant) :
    overtakings number (first ++ second) = overtakings number first + overtakings number second :=
  countP_append ..

variable {p : ParentIoBudgetPool}

/-! ## Past the limit the oldest goes first -/

section

variable (candidates : Candidates)

theorem oldestOvertaken_consider (entry : ParentIoWaiter × ℕ) :
    (p.consider candidates entry).oldestOvertaken
      = if p.canDispatch entry.1 = true ∧ entry.1.bypasses ≥ parentIoMaxPriorityBypasses
          ∧ (candidates.oldestOvertaken.all fun oldest =>
              entry.1.sequence < oldest.2.sequence) = true then some (entry.2, entry.1)
        else candidates.oldestOvertaken := by
  unfold consider
  by_cases hdispatch : p.canDispatch entry.1 = true
  · rw [if_pos hdispatch]
    simp only [hdispatch, true_and]
    cases candidates.best with
    | none => rfl
    | some best =>
      dsimp only
      split <;> rfl
  · rw [if_neg hdispatch, if_neg fun h => hdispatch h.1]

/-- There is a candidate past the limit that is at least as old as the number. -/
def Candidates.AsOldAs (number : ℕ) : Prop :=
  ∃ oldest ∈ candidates.oldestOvertaken, oldest.2.sequence ≤ number

theorem Candidates.AsOldAs.consider {candidates : Candidates} {number : ℕ}
    (h : candidates.AsOldAs number) (entry : ParentIoWaiter × ℕ) :
    (p.consider candidates entry).AsOldAs number := by
  obtain ⟨oldest, holdest, hle⟩ := h
  unfold AsOldAs
  rw [oldestOvertaken_consider]
  split
  · next hnew =>
    have hlt := hnew.2.2
    rw [Option.mem_def.mp holdest, Option.all_some, decide_eq_true_eq] at hlt
    exact ⟨_, rfl, by dsimp only; omega⟩
  · exact ⟨oldest, holdest, hle⟩

theorem asOldAs_consider {entry : ParentIoWaiter × ℕ}
    (hdispatch : p.canDispatch entry.1 = true)
    (hlimit : parentIoMaxPriorityBypasses ≤ entry.1.bypasses) :
    (p.consider candidates entry).AsOldAs entry.1.sequence := by
  unfold Candidates.AsOldAs
  rw [oldestOvertaken_consider]
  split
  · exact ⟨_, rfl, Nat.le_refl _⟩
  · next hold =>
    have hnotall : ¬ (candidates.oldestOvertaken.all fun oldest =>
        entry.1.sequence < oldest.2.sequence) = true := fun hall => hold ⟨hdispatch, hlimit, hall⟩
    cases holdest : candidates.oldestOvertaken with
    | none =>
      rw [holdest] at hnotall
      exact absurd rfl hnotall
    | some oldest =>
      rw [holdest, Option.all_some, decide_eq_true_eq] at hnotall
      exact ⟨oldest, rfl, by omega⟩

end

theorem Candidates.AsOldAs.foldl {number : ℕ} (entries : List (ParentIoWaiter × ℕ)) :
    ∀ {candidates : Candidates}, candidates.AsOldAs number →
      (entries.foldl p.consider candidates).AsOldAs number := by
  induction entries with
  | nil => exact fun h => h
  | cons entry rest ih => exact fun h => ih (h.consider entry)

/-- Of the entries past the limit, the scan keeps one that is at least as old as each. -/
theorem asOldAs_foldl (entries : List (ParentIoWaiter × ℕ)) : ∀ candidates : Candidates,
    ∀ entry ∈ entries, p.canDispatch entry.1 = true →
      parentIoMaxPriorityBypasses ≤ entry.1.bypasses →
      (entries.foldl p.consider candidates).AsOldAs entry.1.sequence := by
  induction entries with
  | nil => exact fun _ _ h => absurd h not_mem_nil
  | cons first rest ih =>
    intro candidates entry hentry hdispatch hlimit
    rcases mem_cons.mp hentry with rfl | hentry
    · exact (asOldAs_consider candidates hdispatch hlimit).foldl rest
    · exact ih _ entry hentry hdispatch hlimit

variable {waiter : ParentIoWaiter}

/-- Where a waiter past the limit can be dispatched, none that is younger is found. -/
theorem sequence_le_of_limit (hwaiter : waiter ∈ p.waiters)
    (hdispatch : p.canDispatch waiter = true)
    (hlimit : parentIoMaxPriorityBypasses ≤ waiter.bypasses) {entry : ℕ × ParentIoWaiter}
    (hfind : p.findBestEligibleWaiter = some entry) : entry.2.sequence ≤ waiter.sequence := by
  obtain ⟨index, hindex⟩ := getElem?_of_mem hwaiter
  obtain ⟨oldest, holdest, hle⟩ := asOldAs_foldl (p := p) p.waiters.zipIdx ⟨none, none⟩
    (waiter, index) (mk_mem_zipIdx_iff_getElem?.mpr hindex) hdispatch hlimit
  rw [findBestEligibleWaiter] at hfind
  rw [Option.mem_def.mp holdest, Option.some_or] at hfind
  exact Option.some.inj hfind ▸ hle

/-! ## One grant -/

/-- The waiters that came before the number. -/
def older (p : ParentIoBudgetPool) (number : ℕ) : ℕ :=
  p.waiters.countP fun w => w.sequence < number

/-- The waiter with the number, if it still waits, was overtaken `count` times, and past the limit
each overtaking took one of the `ahead` waiters that it found. -/
structure Tracked (number ahead count : ℕ) (p : ParentIoBudgetPool) : Prop where
  known : number < p.sequence
  bound : count ≤ parentIoMaxPriorityBypasses + ahead
  bypasses : ∀ w ∈ p.waiters, w.sequence = number → w.bypasses = count
  older_le : (∃ w ∈ p.waiters, w.sequence = number) → p.older number ≤ ahead
  past : (∃ w ∈ p.waiters, w.sequence = number) → parentIoMaxPriorityBypasses < count →
    count + p.older number ≤ parentIoMaxPriorityBypasses + ahead

variable {number ahead count : ℕ}

/-- A waiter stands once in the queue. -/
theorem Accounts.waiter_unique (h : p.Accounts) {first second : ParentIoWaiter}
    (hfirst : first ∈ p.waiters) (hsecond : second ∈ p.waiters)
    (heq : first.sequence = second.sequence) : first = second :=
  inj_on_of_nodup_map (nodup_append.mp h.once).2.1 hfirst hsecond heq

theorem mem_waiters_grant {index : ℕ} {w : ParentIoWaiter} :
    w ∈ (p.grant index waiter).waiters ↔ ∃ old ∈ p.waiters.eraseIdx index,
      w = if p.canDispatch old then { old with bypasses := old.bypasses + 1 } else old := by
  show w ∈ (p.waiters.eraseIdx index).map _ ↔ _
  rw [mem_map]
  exact exists_congr fun old => and_congr_right fun _ => eq_comm

theorem older_grant (index : ℕ) (waiter : ParentIoWaiter) :
    (p.grant index waiter).older number
      = (p.waiters.eraseIdx index).countP fun w => w.sequence < number := by
  show ((p.waiters.eraseIdx index).map _).countP _ = _
  rw [countP_map]
  refine countP_congr fun w _ => ?_
  rw [Function.comp_apply]
  split <;> rfl

/-- **Step lemma.**  A grant is counted if it overtakes, and then a waiter past the limit has one
older waiter less before it. -/
theorem Tracked.grant (h : p.Tracked number ahead count) (haccounts : p.Accounts) {index : ℕ}
    (hfind : p.findBestEligibleWaiter = some (index, waiter)) :
    (p.grant index waiter).Tracked number ahead
      (count + overtakings number [⟨p, waiter⟩]) := by
  have helig := (eligible_of_findBestEligibleWaiter hfind).1
  have hperm := perm_eraseIdx helig
  have holder : (p.grant index waiter).older number + (if waiter.sequence < number then 1 else 0)
      = p.older number := by
    rw [older_grant, older, ← hperm.countP_eq, countP_cons]
    simp only [decide_eq_true_eq]
  have hcounted : overtakings number [⟨p, waiter⟩]
      = if Grant.overtakes ⟨p, waiter⟩ number = true then 1 else 0 := by
    rw [overtakings, countP_singleton]
  have hovertakes : Grant.overtakes ⟨p, waiter⟩ number = true ↔ waiter.sequence ≠ number
      ∧ ∃ w ∈ p.waiters, w.sequence = number ∧ p.canDispatch w = true := by
    simp only [Grant.overtakes, ne_eq, Bool.and_eq_true, decide_eq_true_eq, any_eq_true]
  -- the waiter with the number, if it is still there, and what the grant made of it
  have hstays : ∀ w ∈ (p.grant index waiter).waiters, w.sequence = number →
      ∃ old ∈ p.waiters, old.sequence = number ∧ waiter.sequence ≠ number
        ∧ w.bypasses = old.bypasses + (if p.canDispatch old = true then 1 else 0) := by
    intro w hw hnumber
    obtain ⟨old, hold, rfl⟩ := mem_waiters_grant.mp hw
    have hseq : old.sequence = number := by
      rw [← hnumber]
      split <;> rfl
    have hother : waiter.sequence ≠ number := by
      intro heq
      have hnodup := (hperm.map ParentIoWaiter.sequence).nodup_iff.mpr
        (nodup_append.mp haccounts.once).2.1
      rw [map_cons, nodup_cons] at hnodup
      exact hnodup.1 (heq.trans hseq.symm ▸ mem_map_of_mem hold)
    refine ⟨old, hperm.mem_iff.mp (mem_cons_of_mem _ hold), hseq, hother, ?_⟩
    split <;> rfl
  -- past the limit, an older waiter went first
  have holderFirst : Grant.overtakes ⟨p, waiter⟩ number = true →
      parentIoMaxPriorityBypasses ≤ count → waiter.sequence < number := by
    intro hover hlimit
    obtain ⟨hne, w, hw, hseq, hdispatch⟩ := hovertakes.mp hover
    have hle := sequence_le_of_limit hw hdispatch (by rwa [h.bypasses w hw hseq]) hfind
    dsimp only at hle
    omega
  have hwaits : Grant.overtakes ⟨p, waiter⟩ number = true → ∃ w ∈ p.waiters, w.sequence = number :=
    fun hover => by
      obtain ⟨-, w, hw, hseq, -⟩ := hovertakes.mp hover
      exact ⟨w, hw, hseq⟩
  rw [hcounted]
  refine ⟨h.known, ?_, fun w hw hnumber => ?_, fun ⟨w, hw, hnumber⟩ => ?_,
    fun ⟨w, hw, hnumber⟩ hlimit => ?_⟩
  · split
    · next hover =>
      have hfirst := holderFirst hover
      have hle := h.older_le (hwaits hover)
      have hpast := h.past (hwaits hover)
      split at holder <;> omega
    · exact h.bound
  · obtain ⟨old, hold, hseq, hother, hbypasses⟩ := hstays w hw hnumber
    rw [hbypasses, h.bypasses old hold hseq]
    refine congrArg (count + ·) (if_congr ?_ rfl rfl)
    rw [hovertakes]
    constructor
    · exact fun hdispatch => ⟨hother, old, hold, hseq, hdispatch⟩
    · rintro ⟨-, other, hmem, hsame, hdispatch⟩
      rwa [haccounts.waiter_unique hold hmem (hseq.trans hsame.symm)]
  · obtain ⟨old, hold, hseq, -⟩ := hstays w hw hnumber
    have hle := h.older_le ⟨old, hold, hseq⟩
    omega
  · obtain ⟨old, hold, hseq, -⟩ := hstays w hw hnumber
    have hle := h.older_le ⟨old, hold, hseq⟩
    have hpast := h.past ⟨old, hold, hseq⟩
    split at hlimit
    · next hover =>
      have hfirst := holderFirst hover (by omega)
      rw [if_pos hfirst] at holder
      rw [if_pos hover]
      omega
    · next hover =>
      rw [if_neg hover]
      omega

/-! ## Runs -/

theorem Tracked.dispatch (fuel : ℕ) : ∀ {p : ParentIoBudgetPool} {count : ℕ},
    p.Tracked number ahead count → p.Accounts →
      (dispatch fuel p).Tracked number ahead
        (count + overtakings number (dispatchGrants fuel p)) := by
  induction fuel with
  | zero => exact fun h _ => h
  | succ fuel ih =>
    intro p count h haccounts
    rw [ParentIoBudgetPool.dispatch, dispatchGrants]
    split
    · cases hfind : p.findBestEligibleWaiter with
      | none => exact h
      | some entry =>
        obtain ⟨index, waiter⟩ := entry
        obtain ⟨hwaiter, hdispatch⟩ := eligible_of_findBestEligibleWaiter hfind
        have hnext := ih (h.grant haccounts hfind) (haccounts.grant hwaiter hdispatch)
        dsimp only
        rw [← singleton_append, overtakings_append, ← Nat.add_assoc]
        exact hnext
    · exact h

section

variable (h : p.Tracked number ahead count)
include h

/-- What leaves the queue as it is, or takes waiters out of it, keeps the account. -/
theorem Tracked.of_sublist {q : ParentIoBudgetPool} (hsequence : q.sequence = p.sequence)
    (hsub : q.waiters.Sublist p.waiters) : q.Tracked number ahead count := by
  have hstill : (∃ w ∈ q.waiters, w.sequence = number) → ∃ w ∈ p.waiters, w.sequence = number :=
    fun ⟨w, hw, hnumber⟩ => ⟨w, hsub.subset hw, hnumber⟩
  have hle : q.older number ≤ p.older number := hsub.countP_le
  refine ⟨hsequence ▸ h.known, h.bound, fun w hw => h.bypasses w (hsub.subset hw),
    fun hwaits => hle.trans (h.older_le (hstill hwaits)), fun hwaits hlimit => ?_⟩
  have hpast := h.past (hstill hwaits) hlimit
  omega

/-- A waiter that comes later has a greater number. -/
theorem Tracked.enqueue (hsequence : waiter.sequence = p.sequence) :
    (p.enqueue waiter).Tracked number ahead count := by
  have hlater : ¬ waiter.sequence < number ∧ waiter.sequence ≠ number := by
    have := h.known
    omega
  have hold : ∀ w ∈ (p.enqueue waiter).waiters, w.sequence = number → w ∈ p.waiters := by
    intro w hw hnumber
    rcases mem_append.mp (show w ∈ p.waiters ++ [waiter] from hw) with hw | hw
    · exact hw
    · rw [mem_singleton] at hw
      exact absurd (hw ▸ hnumber) hlater.2
  have holder : (p.enqueue waiter).older number = p.older number := by
    show (p.waiters ++ [waiter]).countP _ = _
    rw [countP_append, countP_singleton, if_neg (by simpa using hlater.1)]
    rfl
  refine ⟨Nat.lt_succ_of_lt h.known, h.bound, fun w hw hnumber => ?_, fun ⟨w, hw, hnumber⟩ => ?_,
    fun ⟨w, hw, hnumber⟩ => ?_⟩
  · exact h.bypasses w (hold w hw hnumber) hnumber
  · exact holder ▸ h.older_le ⟨w, hold w hw hnumber, hnumber⟩
  · exact holder ▸ h.past ⟨w, hold w hw hnumber, hnumber⟩

theorem Tracked.capacity (haccounts : p.Accounts) :
    p.dispatchWhileCapacity.Tracked number ahead
      (count + overtakings number p.capacityGrants) := h.dispatch _ haccounts

theorem Tracked.cancelWaiter (haccounts : p.Accounts) (sequence : ℕ) :
    (p.cancelWaiter sequence).Tracked number ahead
      (count + overtakings number (p.cancelGrants sequence)) := by
  rw [ParentIoBudgetPool.cancelWaiter, cancelGrants]
  cases hfind : p.waiters.zipIdx.find? fun entry => entry.1.sequence = sequence with
  | none => exact h
  | some entry =>
    have hwaiter := mk_mem_zipIdx_iff_getElem?.mp (mem_of_find?_eq_some hfind)
    have hdrop : (p.drop entry.2 entry.1).Tracked number ahead count :=
      h.of_sublist rfl (eraseIdx_sublist ..)
    exact hdrop.capacity (haccounts.drop hwaiter)

theorem Tracked.callListener (haccounts : p.Accounts) (listener : ℕ × ℕ) :
    (p.callListener listener).Tracked number ahead
      (count + overtakings number (p.listenerGrants listener)) := by
  rw [ParentIoBudgetPool.callListener, listenerGrants]
  simp only [contains_iff_mem]
  split
  · have hlisteners : { p with listeners := p.listeners.erase listener }.Tracked number ahead
        count := h.of_sublist rfl (List.Sublist.refl _)
    exact hlisteners.cancelWaiter (haccounts.listeners _) _
  · exact h

end

theorem Tracked.callListeners (listeners : List (ℕ × ℕ)) : ∀ {p : ParentIoBudgetPool} {count : ℕ},
    p.Tracked number ahead count → p.Accounts →
      (listeners.foldl ParentIoBudgetPool.callListener p).Tracked number ahead
        (count + overtakings number (p.listenersGrants listeners)) := by
  induction listeners with
  | nil => exact fun h _ => h
  | cons listener rest ih =>
    intro p count h haccounts
    have hnext := ih (h.callListener haccounts listener) (haccounts.callListener listener)
    rw [listenersGrants, overtakings_append, ← Nat.add_assoc]
    exact hnext

/-- **Event lemma.**  An event keeps the account, and its grants are counted. -/
theorem Tracked.step (h : p.Tracked number ahead count) (haccounts : p.Accounts)
    (event : BulkheadEvent) : (p.step event).Tracked number ahead
      (count + overtakings number (p.grants event)) := by
  cases event with
  | acquire priority isFastIo workClass signal =>
    show (p.acquire priority isFastIo workClass signal).Tracked _ _ _
    unfold acquire
    simp only [grants]
    split
    · exact h
    · cases ParentIoWorkClass.ofName (workClass.getD (text "small-read")) with
      | none => exact h
      | some known =>
        cases priority with
        | finite priority =>
          let waiter : ParentIoWaiter :=
            ⟨priority, 0, p.sequence, isFastIo, known, signal⟩
          have hsequence : waiter.sequence = p.sequence := rfl
          exact (h.enqueue hsequence).capacity (haccounts.enqueue hsequence)
        | _ => exact h
  | abort signal =>
    show (p.abort signal).Tracked _ _ _
    rw [abort, grants]
    split
    · exact h
    · have hsignal : { p with aborted := p.aborted ++ [signal] }.Tracked number ahead count :=
        h.of_sublist rfl (List.Sublist.refl _)
      exact hsignal.callListeners _ ⟨haccounts.active, haccounts.classActive, haccounts.pending,
        haccounts.active_le, haccounts.classActive_le, haccounts.once, haccounts.known,
        haccounts.slots⟩
  | release index =>
    show (p.release index).Tracked _ _ _
    rw [release, grants]
    cases hslot : p.slots[index]? with
    | none => exact h
    | some slot =>
      dsimp only
      split
      · exact h
      · next hheld =>
        have hback : (p.giveBack index slot).Tracked number ahead count :=
          h.of_sublist rfl (List.Sublist.refl _)
        exact hback.capacity (haccounts.giveBack hslot (Bool.eq_false_iff.mpr hheld))

theorem Tracked.run (events : List BulkheadEvent) : ∀ {p : ParentIoBudgetPool} {count : ℕ},
    p.Tracked number ahead count → p.Steady → count + overtakings number (p.runGrants events)
      ≤ parentIoMaxPriorityBypasses + ahead := by
  induction events with
  | nil => exact fun h _ => h.bound
  | cons event rest ih =>
    intro p count h hsteady
    have hrest := ih (h.step hsteady.accounts event) (hsteady.step event)
    rw [runGrants, overtakings_append]
    omega

/-- The account of a waiter begins when it joins the queue. -/
theorem tracked_enqueue (haccounts : p.Accounts) (hsequence : waiter.sequence = p.sequence)
    (hbypasses : waiter.bypasses = 0) :
    (p.enqueue waiter).Tracked p.sequence p.waiters.length 0 := by
  have hold : ∀ w ∈ p.waiters, w.sequence < p.sequence := fun w hw =>
    haccounts.known _ (mem_append_right _ (mem_map_of_mem hw))
  refine ⟨Nat.lt_succ_self _, Nat.zero_le _, fun w hw hnumber => ?_, fun _ => ?_,
    fun _ hlimit => absurd hlimit (Nat.not_lt_zero _)⟩
  · rcases mem_append.mp (show w ∈ p.waiters ++ [waiter] from hw) with hw | hw
    · exact absurd hnumber (Nat.ne_of_lt (hold w hw))
    · rw [mem_singleton.mp hw, hbypasses]
  · show (p.waiters ++ [waiter]).countP _ ≤ _
    rw [countP_append, countP_singleton, if_neg (by simp [hsequence]), Nat.add_zero]
    exact countP_le_length

/-- **Bounded overtaking.**  From the event on that lets a waiter join the queue, the number of
grants to other waiters while this one could be dispatched is at most the limit and the number of
waiters that it found in the queue. -/
theorem overtaking_bounded {capacity : Number} {classCapacities : ParentIoWorkClass → Number}
    (h : new capacity classCapacities = some p) (before after : List BulkheadEvent) (priority : ℚ)
    (isFastIo : Bool) {workClass : Option Text} {known : ParentIoWorkClass}
    (hclass : ParentIoWorkClass.ofName (workClass.getD (text "small-read")) = some known)
    {signal : Option ℕ} :
    let s := Run.run ParentIoBudgetPool.step p before
    (∀ n ∈ signal, n ∉ s.aborted) →
      overtakings s.sequence
          (s.runGrants (.acquire (.finite priority) isFastIo workClass signal :: after))
        ≤ parentIoMaxPriorityBypasses + s.waiters.length := by
  intro s hsignal
  have hsteady : s.Steady := Run.run_invariant (fun _ event h => h.step event) (steady_new h) before
  have hlive : ¬ (signal.any fun n => n ∈ s.aborted) = true := by
    rw [Option.any_eq_true]
    rintro ⟨n, hn, hmem⟩
    exact hsignal n hn (of_decide_eq_true hmem)
  let waiter : ParentIoWaiter := ⟨priority, 0, s.sequence, isFastIo, known, signal⟩
  have hstep : s.step (.acquire (.finite priority) isFastIo workClass signal)
      = (s.enqueue waiter).dispatchWhileCapacity := by
    show s.acquire _ _ _ _ = _
    simp only [acquire, if_neg hlive, hclass]
    rfl
  have hgrants : s.grants (.acquire (.finite priority) isFastIo workClass signal)
      = (s.enqueue waiter).capacityGrants := by
    simp only [grants, if_neg hlive, hclass]
    rfl
  have hsequence : waiter.sequence = s.sequence := rfl
  have hqueued := hsteady.accounts.enqueue hsequence
  have hjoined := (tracked_enqueue hsteady.accounts hsequence rfl).capacity hqueued
  have hrest := hjoined.run after hqueued.steady
  rw [runGrants, overtakings_append, hgrants, hstep]
  omega

/-- A traversal waits for a slot while searches of a higher priority come and go. -/
theorem overtaking_bounded_traversal :
    ∃ p, new (.finite 1) (fun _ => .finite 1) = some p ∧
      let search : BulkheadEvent := .acquire (.finite 2) false (some (text "search")) none
      let s := Run.run ParentIoBudgetPool.step p [search, search]
      overtakings s.sequence (s.runGrants (.acquire (.finite 0) false (some (text "traversal")) none
          :: [search, .release 0, search, .release 1, .release 2]))
        ≤ parentIoMaxPriorityBypasses + s.waiters.length := by
  obtain ⟨p, hp⟩ : ∃ p, new (.finite 1) (fun _ => .finite 1) = some p := ⟨_, rfl⟩
  refine ⟨p, hp, ?_⟩
  intro search s
  have hclass : ParentIoWorkClass.ofName ((some (text "traversal")).getD (text "small-read"))
      = some .traversal := by decide
  exact overtaking_bounded hp [search, search] _ 0 false hclass (by simp)

end ParentIoBudgetPool

end Lumi.Io
