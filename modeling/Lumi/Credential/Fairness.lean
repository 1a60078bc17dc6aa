import Lumi.Lib.Run
import Lumi.Lib.SmoothRoundRobin
import Lumi.Credential.SmoothWeightedPool

/-!
# The selections of the pool are fair

A fleet whose accounts are all healthy, and whose buckets are never short, is served by smooth
weighted round robin: its credits are the current weights, its weights the effective ones.  The
selections by which a session keeps to its account are left out of the count, and change no weight.
-/

namespace Lumi.Credential

open Js InsertionMap PooledTokenAccount List

structure SelectCall where
  sessionId : Option Text
  requiredTokens : ℚ
  nowMs : ℚ

namespace SmoothWeightedPool

def select (pool : SmoothWeightedPool) (call : SelectCall) : SmoothWeightedPool :=
  (pool.selectAccount call.sessionId call.requiredTokens call.nowMs).1

/-- The results of calls that follow each other. -/
def results : SmoothWeightedPool → List SelectCall → List AccountSelectionResult
  | _, [] => []
  | pool, call :: rest =>
    (pool.selectAccount call.sessionId call.requiredTokens call.nowMs).2
      :: (pool.select call).results rest

/-- The accounts that are selected, but not for a session that keeps to its own. -/
def turns (pool : SmoothWeightedPool) (calls : List SelectCall) : List Text :=
  (pool.results calls).filterMap fun result => if result.sticky then none else result.account

/-- No bucket is short when it is looked at. -/
def NeverShort (pool : SmoothWeightedPool) (calls : List SelectCall) : Prop :=
  Run.Guarded select (fun pool call =>
    ∀ acc ∈ (pool.refreshed call.nowMs).accounts.values, acc.hasTokens call.requiredTokens = true)
    pool calls

end SmoothWeightedPool

/-! ## The loop over the candidates -/

section

variable {ι κ : Type*} (weight : ι → ℤ)

theorem mostWeight_mem (candidates : List ι) : ∀ first,
    mostWeight weight first candidates ∈ first :: candidates := by
  induction candidates with
  | nil => exact fun first => mem_singleton_self first
  | cons candidate rest ih =>
    intro first
    rw [mostWeight]
    split
    · exact mem_cons_of_mem _ (ih candidate)
    · obtain h | h := mem_cons.mp (ih first)
      · rw [h]
        exact mem_cons_self
      · exact mem_cons_of_mem _ (mem_cons_of_mem _ h)

theorem le_mostWeight (candidates : List ι) : ∀ first, ∀ other ∈ first :: candidates,
    weight other ≤ weight (mostWeight weight first candidates) := by
  induction candidates with
  | nil =>
    intro first other hother
    rw [mem_singleton.mp hother]
    exact le_rfl
  | cons candidate rest ih =>
    intro first other hother
    rw [mostWeight]
    have hfirst := ih (if weight candidate > weight first then candidate else first) _
      mem_cons_self
    obtain rfl | hother := mem_cons.mp hother
    · refine le_trans ?_ hfirst
      split
      next hgt => exact le_of_lt hgt
      next => exact le_rfl
    obtain rfl | hother := mem_cons.mp hother
    · refine le_trans ?_ hfirst
      split
      next => exact le_rfl
      next hnot => exact not_lt.mp hnot
    · exact ih _ other (mem_cons_of_mem _ hother)

theorem mostWeight_map (f : κ → ι) {weight' : κ → ℤ} (candidates : List κ) : ∀ first,
    (∀ candidate ∈ first :: candidates, weight' candidate = weight (f candidate)) →
    f (mostWeight weight' first candidates)
      = mostWeight weight (f first) (candidates.map f) := by
  induction candidates with
  | nil => exact fun _ _ => rfl
  | cons candidate rest ih =>
    intro first h
    have hfirst := h first mem_cons_self
    have hcandidate := h candidate (mem_cons_of_mem _ mem_cons_self)
    rw [mostWeight, map_cons, mostWeight, hfirst, hcandidate]
    have hrest : ∀ other ∈ rest, weight' other = weight (f other) := fun other hother =>
      h other (mem_cons_of_mem _ (mem_cons_of_mem _ hother))
    split
    · exact ih candidate (forall_mem_cons.mpr ⟨hcandidate, hrest⟩)
    · exact ih first (forall_mem_cons.mpr ⟨hfirst, hrest⟩)

end

/-! ## Healthy accounts -/

/-- Healthy, and below the ratio at which draining begins. -/
def PooledTokenAccount.Healthy (acc : PooledTokenAccount) : Prop :=
  acc.status = .healthy ∧ acc.ratio < 17 / 20 ∧ acc.effectiveWeight = acc.baseWeight

section

variable {acc : PooledTokenAccount} {nowMs : ℚ}

theorem update_of_healthy (h : acc.Healthy) :
    updateAccountQuotaAndWeight acc nowMs = acc.purge nowMs := by
  obtain ⟨hstatus, hratio, hweight⟩ := h
  have hpurge : (acc.purge nowMs).status = .healthy := hstatus
  rw [update_of_drained (by rw [hstatus]; decide) (by rw [hstatus]; decide),
    drain_of_ratio_lt ((ratio_purge_le acc nowMs).trans_lt hratio), if_neg (by rw [hpurge]; decide)]
  exact congrArg₂ (fun status weight =>
    { acc.purge nowMs with status := status, effectiveWeight := weight }) hstatus.symm hweight.symm

theorem healthy_purge (nowMs : ℚ) (h : acc.Healthy) : (acc.purge nowMs).Healthy :=
  ⟨h.1, (ratio_purge_le acc nowMs).trans_lt h.2.1, h.2.2⟩

/-- An account that an update leaves healthy has full weight. -/
theorem healthy_of_update (h : (updateAccountQuotaAndWeight acc nowMs).status = .healthy) :
    (updateAccountQuotaAndWeight acc nowMs).Healthy := by
  refine ⟨h, ?_⟩
  rw [updateAccountQuotaAndWeight] at h ⊢
  split at h
  next hdead => rw [hdead] at h; cases h
  next hdead =>
  split at h
  next hcooldown => rw [hcooldown] at h; cases h
  next hcooldown =>
  rw [if_neg hdead, if_neg hcooldown]
  by_cases hratio : ((acc.purge nowMs).recover nowMs).ratio < 17 / 20
  · rw [drain_of_ratio_lt hratio] at h ⊢
    split at h
    next hhalf => rw [hhalf] at h; cases h
    next hhalf =>
      rw [if_neg hhalf]
      exact ⟨hratio, rfl⟩
  · obtain hdrain | hdrain := status_drain_of_le (not_lt.mp hratio)
    · rw [hdrain] at h; cases h
    · rw [hdrain] at h; cases h

end

theorem keys_map {α β : Type*} (m : InsertionMap Text α) (f : Text → α → β) :
    (m.map f).keys = m.keys := by
  rw [InsertionMap.keys, InsertionMap.keys, InsertionMap.map, map_map]
  rfl

/-! ## A fleet in steady service -/

/-- The accounts `ids` are healthy, with weights `w` and credits `c`. -/
structure Steady (ids : List Text) (w c : Text → ℤ) (pool : SmoothWeightedPool) : Prop where
  keys_eq : pool.accounts.keys = ids
  account : ∀ id acc, pool.accounts.get? id = some acc →
    acc.Healthy ∧ startsWith acc.accessToken (text "ey_sample_") = false
      ∧ acc.effectiveWeight = w id ∧ acc.currentWeight = c id

/-- The account that smooth weighted round robin picks. -/
def pick (ids : List Text) (w c : Text → ℤ) : Text :=
  match ids with
  | [] => []
  | first :: rest => mostWeight (fun id => c id + w id) first rest

theorem greedy_pick {ids : List Text} (hne : ids ≠ []) (w : Text → ℤ) :
    SmoothRoundRobin.Greedy ids.toFinset w (pick ids w) := by
  obtain ⟨first, rest, rfl⟩ := exists_cons_of_ne_nil hne
  intro c
  refine ⟨mem_toFinset.mpr (mostWeight_mem _ rest first), fun id hid => ?_⟩
  exact le_mostWeight (fun id => c id + w id) rest first id (mem_toFinset.mp hid)

section

variable {ids : List Text} {w c : Text → ℤ} {pool : SmoothWeightedPool}

namespace Steady

theorem refreshed (h : Steady ids w c pool) (nowMs : ℚ) : Steady ids w c (pool.refreshed nowMs) where
  keys_eq := (keys_map _ _).trans h.keys_eq
  account := by
    intro id acc hacc
    rw [SmoothWeightedPool.refreshed, get?_map] at hacc
    obtain ⟨before, hbefore, rfl⟩ := Option.map_eq_some_iff.mp hacc
    obtain ⟨hhealthy, hmock, hweight, hcredit⟩ := h.account id before hbefore
    obtain ⟨hstatus, hratio, hfull⟩ := healthy_purge nowMs hhealthy
    rw [refresh, update_of_healthy hhealthy]
    exact ⟨⟨hstatus, hratio, hfull⟩, hmock, hweight, hcredit⟩

/-- The accounts do not say which session keeps to which. -/
theorem of_accounts (h : Steady ids w c pool) {other : SmoothWeightedPool}
    (hsame : other.accounts = pool.accounts) : Steady ids w c other :=
  ⟨by rw [hsame, h.keys_eq], by rw [hsame]; exact h.account⟩

variable {requiredTokens : ℚ}

section

variable (h : Steady ids w c pool)
include h

section

variable (htokens : ∀ acc ∈ pool.accounts.values, acc.hasTokens requiredTokens = true)
include htokens

theorem isEligible {id : Text} {acc : PooledTokenAccount} (hacc : pool.accounts.get? id = some acc) :
    acc.isEligible requiredTokens = true := by
  obtain ⟨hhealthy, hmock, -⟩ := h.account id acc hacc
  rw [PooledTokenAccount.isEligible, if_neg (by simp [hhealthy.1]), if_neg (by simp [hmock])]
  exact htokens acc (mem_map.mpr ⟨(id, acc), mem_entries_iff.mpr hacc, rfl⟩)

/-- Every account is a candidate. -/
theorem candidates_eq :
    (pool.candidates requiredTokens).map Prod.fst = ids
      ∧ ∀ entry ∈ pool.candidates requiredTokens, ∃ acc, pool.accounts.get? entry.1 = some acc
        ∧ entry.2 = acc.gain requiredTokens ∧ entry.2.effectiveWeight = w entry.1
        ∧ entry.2.currentWeight = c entry.1 + w entry.1 := by
  have hfilter : (pool.accounts.entries.filter fun entry => entry.2.isEligible requiredTokens)
      = pool.accounts.entries :=
    filter_eq_self.mpr fun entry hentry => h.isEligible htokens (mem_entries_iff.mp hentry)
  rw [SmoothWeightedPool.candidates, hfilter]
  refine ⟨(map_map ..).trans h.keys_eq, fun entry hentry => ?_⟩
  obtain ⟨before, hbefore, rfl⟩ := mem_map.mp hentry
  have hget := mem_entries_iff.mp hbefore
  obtain ⟨-, -, hweight, hcredit⟩ := h.account before.1 before.2 hget
  refine ⟨before.2, hget, rfl, ?_, ?_⟩
  · rw [gain, if_pos (h.isEligible htokens hget)]
    exact hweight
  · rw [gain, if_pos (h.isEligible htokens hget)]
    exact congrArg₂ (· + ·) hcredit hweight

end

/-- A step of the pool is a step of smooth weighted round robin. -/
theorem smoothStep (hne : ids ≠ [])
    (htokens : ∀ acc ∈ pool.accounts.values, acc.hasTokens requiredTokens = true) :
    ∃ after, pool.smoothStep requiredTokens = some (pick ids w c, after)
      ∧ Steady ids w (SmoothRoundRobin.step ids.toFinset w (pick ids w) c) after := by
  obtain ⟨hkeys, hcandidates⟩ := h.candidates_eq htokens
  obtain ⟨first, rest, hentries⟩ : ∃ first rest, pool.candidates requiredTokens = first :: rest :=
    exists_cons_of_ne_nil fun hnil => hne (by rw [← hkeys, hnil]; rfl)
  rw [hentries] at hkeys hcandidates
  set selected := mostWeight (fun entry : Text × PooledTokenAccount => entry.2.currentWeight)
    first rest with hselected
  have hpick : selected.1 = pick ids w c := by
    rw [← hkeys]
    exact mostWeight_map (fun id => c id + w id) Prod.fst rest first fun entry hentry =>
      (hcandidates entry hentry).choose_spec.2.2.2
  obtain ⟨acc, hacc, hgain, hweight, hcredit⟩ := hcandidates selected (mostWeight_mem _ rest first)
  have hnodup : ids.Nodup := h.keys_eq ▸ pool.accounts.nodup
  have htotal : ((first :: rest).map fun entry => entry.2.effectiveWeight).sum
      = SmoothRoundRobin.total ids.toFinset w := by
    rw [SmoothRoundRobin.total, sum_toFinset w hnodup, ← hkeys, map_map]
    exact congrArg List.sum
      (map_congr_left fun entry hentry => (hcandidates entry hentry).choose_spec.2.2.1)
  have hstep : pool.smoothStep requiredTokens = some (pick ids w c,
      { pool with
        accounts := (pool.accounts.map fun _ account => account.gain requiredTokens).set
          (pick ids w c) (selected.2.pay (SmoothRoundRobin.total ids.toFinset w)) }) := by
    rw [SmoothWeightedPool.smoothStep, hentries]
    dsimp only
    rw [← hselected, hpick, htotal]
  refine ⟨_, hstep, ?_, ?_⟩
  · rw [keys_set, keys_map, h.keys_eq, if_pos]
    rw [← hpick, ← hkeys]
    exact mem_map_of_mem (mostWeight_mem _ rest first)
  · intro id after hafter
    rw [get?_set, get?_map] at hafter
    rw [SmoothRoundRobin.step]
    by_cases hid : id = pick ids w c
    · -- the account that is selected gains its weight and pays the total
      rw [if_pos hid] at hafter ⊢
      rw [← Option.some_inj.mp hafter, hid, ← hpick]
      obtain ⟨hhealthy, hmock, -⟩ := h.account _ acc hacc
      rw [gain, if_pos (h.isEligible htokens hacc)] at hgain
      refine ⟨?_, ?_, hweight, congrArg (· - _) hcredit⟩
      · rw [hgain]
        exact hhealthy
      · rw [hgain]
        exact hmock
    · rw [if_neg hid] at hafter ⊢
      obtain ⟨before, hbefore, rfl⟩ := Option.map_eq_some_iff.mp hafter
      obtain ⟨hhealthy, hmock, hweight, hcredit⟩ := h.account id before hbefore
      rw [gain, if_pos (h.isEligible htokens hbefore), sub_zero]
      exact ⟨hhealthy, hmock, hweight, congrArg₂ (· + ·) hcredit hweight⟩

/-- A sum over the accounts as a sum over their ids. -/
theorem sum_values {f : PooledTokenAccount → ℤ} {g : Text → ℤ}
    (hsame : ∀ id acc, pool.accounts.get? id = some acc → f acc = g id) :
    (pool.accounts.values.map f).sum = ∑ id ∈ ids.toFinset, g id := by
  have hnodup : ids.Nodup := h.keys_eq ▸ pool.accounts.nodup
  rw [sum_toFinset g hnodup, ← h.keys_eq, InsertionMap.keys, values, map_map, map_map]
  exact congrArg List.sum
    (map_congr_left fun entry hentry => hsame entry.1 entry.2 (mem_entries_iff.mp hentry))

end

end Steady

/-! ## Calls that follow each other -/

namespace SmoothWeightedPool

@[simp] theorem accounts_setSessionAffinity (pool : SmoothWeightedPool) (sessionId accountId : Text)
    (nowMs : ℚ) : (pool.setSessionAffinity sessionId accountId nowMs).accounts = pool.accounts := by
  rw [setSessionAffinity]
  split
  · rfl
  · rfl

@[simp] theorem accounts_anchor (pool : SmoothWeightedPool) (sessionId : Option Text)
    (accountId : Text) (nowMs : ℚ) : (pool.anchor sessionId accountId nowMs).accounts
      = pool.accounts := by
  cases sessionId with
  | none => rfl
  | some sessionId =>
    rw [anchor]
    split
    · rfl
    · exact accounts_setSessionAffinity ..

end SmoothWeightedPool

open SmoothWeightedPool

/-- A call either keeps the credits, or is a step of smooth weighted round robin. -/
theorem select_steady {call : SelectCall} (hne : ids ≠ [])
    (h : Steady ids w c (pool.refreshed call.nowMs))
    (htokens : ∀ acc ∈ (pool.refreshed call.nowMs).accounts.values,
      acc.hasTokens call.requiredTokens = true) :
    let result := (pool.selectAccount call.sessionId call.requiredTokens call.nowMs).2
    (result.sticky = true ∧ result.account.isSome ∧ Steady ids w c (pool.select call))
    ∨ (result.sticky = false ∧ result.account = some (pick ids w c)
      ∧ Steady ids w (SmoothRoundRobin.step ids.toFinset w (pick ids w) c) (pool.select call)) := by
  have hsize : pool.accounts.size ≠ 0 := by
    intro hzero
    refine hne (Eq.trans h.keys_eq.symm ?_)
    rw [refreshed, keys_map, InsertionMap.keys, length_eq_zero_iff.mp hzero]
    rfl
  obtain ⟨after, hafter, hsteady⟩ := h.smoothStep hne htokens
  dsimp only
  rw [SmoothWeightedPool.select, selectAccount, if_neg hsize]
  dsimp only
  split
  next sessionId accountId hsticky =>
    exact .inl ⟨rfl, rfl, h.of_accounts (accounts_setSessionAffinity ..)⟩
  next hnone =>
    rw [hafter]
    exact .inr ⟨rfl, rfl, hsteady.of_accounts (accounts_anchor ..)⟩

/-- The turns of a run are the picks of smooth weighted round robin. -/
theorem turns_steady (hne : ids ≠ []) (calls : List SelectCall) :
    ∀ {pool : SmoothWeightedPool} {c : Text → ℤ},
      (∀ call ∈ calls.head?, Steady ids w c (pool.refreshed call.nowMs)) →
      pool.NeverShort calls →
      (∀ result ∈ pool.results calls, result.account.isSome = true)
      ∧ pool.turns calls
        = SmoothRoundRobin.picks ids.toFinset w (pick ids w) (pool.turns calls).length c
      ∧ (calls ≠ [] → Steady ids w
          ((SmoothRoundRobin.step ids.toFinset w (pick ids w))^[(pool.turns calls).length] c)
          (Run.run SmoothWeightedPool.select pool calls)) := by
  induction calls with
  | nil => exact fun _ _ => ⟨fun _ hmem => absurd hmem not_mem_nil, rfl, fun h => absurd rfl h⟩
  | cons call rest ih =>
    intro pool c hsteady hshort
    have hcall := select_steady hne (hsteady call rfl) hshort.1
    have hturns : pool.turns (call :: rest)
        = (if (pool.selectAccount call.sessionId call.requiredTokens call.nowMs).2.sticky then none
            else (pool.selectAccount call.sessionId call.requiredTokens call.nowMs).2.account).toList
          ++ (pool.select call).turns rest := by
      rw [turns, results, filterMap_cons]
      split
      next heq => rw [heq]; rfl
      next id heq => rw [heq]; rfl
    -- the rest goes on from the credits `c'` that the call leaves
    have hrest : ∀ {c' : Text → ℤ}, Steady ids w c' (pool.select call) →
        (∀ result ∈ (pool.select call).results rest, result.account.isSome = true)
        ∧ (pool.select call).turns rest = SmoothRoundRobin.picks ids.toFinset w (pick ids w)
          ((pool.select call).turns rest).length c'
        ∧ Steady ids w ((SmoothRoundRobin.step ids.toFinset w
            (pick ids w))^[((pool.select call).turns rest).length] c')
          (Run.run SmoothWeightedPool.select (pool.select call) rest) := by
      intro c' h'
      obtain ⟨hsome, hpicks, hafter⟩ := ih (fun next _ => h'.refreshed next.nowMs) hshort.2
      refine ⟨hsome, hpicks, ?_⟩
      cases rest with
      | nil => exact h'
      | cons next rest => exact hafter (cons_ne_nil _ _)
    obtain ⟨hsticky, haccount, h'⟩ | ⟨hsticky, haccount, h'⟩ := hcall
    · obtain ⟨hsome, hpicks, hafter⟩ := hrest h'
      rw [hsticky, if_pos rfl, Option.toList_none, nil_append] at hturns
      rw [hturns]
      exact ⟨forall_mem_cons.mpr ⟨haccount, hsome⟩, hpicks, fun _ => hafter⟩
    · obtain ⟨hsome, hpicks, hafter⟩ := hrest h'
      rw [hsticky, if_neg (by decide), haccount, Option.toList_some, singleton_append]
        at hturns
      rw [hturns]
      exact ⟨forall_mem_cons.mpr ⟨by rw [haccount]; rfl, hsome⟩,
        congrArg (pick ids w c :: ·) hpicks, fun _ => hafter⟩

end

/-- **The selections are exactly fair.**  In a fleet of accounts without credit that are healthy when
the first call brings them up to date, with `W` the sum of their effective weights: every call
selects an account; in every window of `W` turns each account has as many as its effective weight;
and after every call the credits sum to 0, after every `W`-th turn all are 0. -/
theorem turns_exact (pool : SmoothWeightedPool) (call : SelectCall) (rest : List SelectCall)
    (hfleet : pool.accounts.size ≠ 0)
    (hfresh : ∀ acc ∈ pool.accounts.values, acc.currentWeight = 0
      ∧ startsWith acc.accessToken (text "ey_sample_") = false
      ∧ (updateAccountQuotaAndWeight acc call.nowMs).status = .healthy)
    (hbuckets : pool.NeverShort (call :: rest)) :
    let fleet := (pool.refreshed call.nowMs).accounts
    let W := (fleet.values.map PooledTokenAccount.effectiveWeight).sum.toNat
    let turns := pool.turns (call :: rest)
    (∀ result ∈ pool.results (call :: rest), result.account.isSome = true)
    ∧ (∀ i, i + W ≤ turns.length → ∀ id acc, fleet.get? id = some acc →
        (((turns.drop i).take W).count id : ℤ) = acc.effectiveWeight)
    ∧ ∀ first last, call :: rest = first ++ last → first ≠ [] →
        let after := (Run.run SmoothWeightedPool.select pool first).accounts.values
        (after.map PooledTokenAccount.currentWeight).sum = 0
        ∧ (W ∣ (pool.turns first).length → ∀ acc ∈ after, acc.currentWeight = 0) := by
  intro fleet W turns
  set w : Text → ℤ := fun id => ((fleet.get? id).map (·.effectiveWeight)).getD 0 with hw
  set ids := fleet.keys with hids
  have hsteady : Steady ids w 0 (pool.refreshed call.nowMs) := by
    refine ⟨rfl, fun id acc hacc => ?_⟩
    have hweight : acc.effectiveWeight = w id := by rw [hw]; dsimp only; rw [hacc]; rfl
    rw [SmoothWeightedPool.refreshed, get?_map] at hacc
    obtain ⟨before, hbefore, rfl⟩ := Option.map_eq_some_iff.mp hacc
    obtain ⟨hcredit, hmock, hhealthy⟩ :=
      hfresh before (mem_map.mpr ⟨(id, before), mem_entries_iff.mpr hbefore, rfl⟩)
    obtain ⟨hstatus, hratio, hfull⟩ := healthy_of_update hhealthy
    obtain ⟨hsameCredit, hsameToken⟩ := update_keeps before call.nowMs
    refine ⟨⟨hstatus, hratio, hfull⟩, ?_, hweight, hsameCredit.trans hcredit⟩
    rw [refresh, hsameToken]
    exact hmock
  have hne : ids ≠ [] := by
    intro hnil
    refine hfleet ?_
    have hlength : ids.length = pool.accounts.size := by
      rw [hids]
      exact congrArg List.length (keys_map _ _) |>.trans (length_map _)
    rw [← hlength, hnil]
    rfl
  have hpositive : ∀ id ∈ ids.toFinset, 1 ≤ w id := by
    intro id hid
    obtain ⟨acc, hacc⟩ := mem_keys_iff.mp (mem_toFinset.mp hid)
    obtain ⟨hhealthy, -, hweight, -⟩ := hsteady.account id acc hacc
    rw [← hweight, hhealthy.2.2]
    exact acc.one_le_baseWeight
  have hnot : ∀ id ∉ ids.toFinset, w id = 0 := by
    intro id hid
    have hnone : fleet.get? id = none :=
      get?_eq_none_iff.mpr fun hmem => hid (mem_toFinset.mpr hmem)
    rw [hw]
    dsimp only
    rw [hnone]
    rfl
  have htotal : (fleet.values.map PooledTokenAccount.effectiveWeight).sum
      = SmoothRoundRobin.total ids.toFinset w :=
    hsteady.sum_values fun id acc hacc => (hsteady.account id acc hacc).2.2.1
  have hpos : 0 < SmoothRoundRobin.total ids.toFinset w := by
    obtain ⟨id, hid⟩ := exists_mem_of_ne_nil ids hne
    refine Finset.sum_pos (fun id hid => zero_lt_one.trans_le (hpositive id hid)) ⟨id, ?_⟩
    exact mem_toFinset.mpr hid
  have hW : (W : ℤ) = SmoothRoundRobin.total ids.toFinset w := by
    rw [Int.toNat_of_nonneg (by rw [htotal]; exact hpos.le), htotal]
  have hnonneg : ∀ id ∈ ids.toFinset, 0 ≤ w id := fun id hid =>
    zero_le_one.trans (hpositive id hid)
  have hhead : ∀ {calls : List SelectCall}, (∃ last, call :: rest = calls ++ last) →
      ∀ first ∈ calls.head?, Steady ids w 0 (pool.refreshed first.nowMs) := by
    intro calls hcalls first hfirst
    obtain ⟨last, hlast⟩ := hcalls
    cases calls with
    | nil => cases hfirst
    | cons other rest =>
      rw [cons_append] at hlast
      rw [← Option.some_inj.mp hfirst, ← (List.cons.inj hlast).1]
      exact hsteady
  obtain ⟨hsome, hturns, -⟩ := turns_steady hne (call :: rest) (hhead ⟨[], by simp⟩) hbuckets
  refine ⟨hsome, ?_, ?_⟩
  · intro i hi id acc hacc
    have hwindow : (turns.drop i).take W = SmoothRoundRobin.picks ids.toFinset w (pick ids w) W
        ((SmoothRoundRobin.step ids.toFinset w (pick ids w))^[i] 0) := by
      rw [show turns = _ from hturns]
      exact SmoothRoundRobin.take_drop_picks i W _ 0 hi
    rw [hwindow, SmoothRoundRobin.count_window hnonneg hnot hpos (greedy_pick hne w) hW]
    exact (hsteady.account id acc hacc).2.2.1.symm
  · intro first last hsplit hfirst after
    have hguard := hbuckets
    rw [SmoothWeightedPool.NeverShort, hsplit, Run.guarded_append] at hguard
    have hafter := (turns_steady hne first (hhead ⟨last, hsplit⟩) hguard.1).2.2 hfirst
    refine ⟨?_, ?_⟩
    · rw [hafter.sum_values fun id acc hacc => (hafter.account id acc hacc).2.2.2]
      exact (SmoothRoundRobin.balanced_iterate hnonneg hpos (greedy_pick hne w) _
        (SmoothRoundRobin.balanced_zero hpos)).sum_eq_zero
    · rintro ⟨k, hk⟩ acc hacc
      obtain ⟨entry, hentry, rfl⟩ := mem_map.mp hacc
      have hcredit := (hafter.account entry.1 entry.2 (mem_entries_iff.mp hentry)).2.2.2
      rw [hk, SmoothRoundRobin.iterate_mul_total hnonneg hnot hpos (greedy_pick hne w) hW]
        at hcredit
      exact hcredit

/-- An account of weight 2 and one of weight 1, and the last three of four calls. -/
theorem turns_exact_two : let account (weight : ℤ) (h : 1 ≤ weight) : PooledTokenAccount :=
      ⟨text "token", none, none, none, weight, h, weight, 0, 10, .healthy, 0, 0, none, 0, 0, 40,
        by decide, 10800000, [], ⟨1000, 1000, 1000, 500, 500, 0⟩, 0⟩
    let pool : SmoothWeightedPool :=
      ⟨⟨[(text "first", account 2 (by decide)), (text "second", account 1 (by decide))],
        by decide⟩, InsertionMap.empty, 900000, 10000⟩
    let turns := pool.turns [⟨none, 100, 1⟩, ⟨none, 100, 2⟩, ⟨none, 100, 3⟩, ⟨none, 100, 4⟩]
    turns.length = 4 ∧ ((turns.drop 1).take 3).count (text "first") = 2 := by
  intro account pool turns
  have hshort : pool.NeverShort [⟨none, 100, 1⟩, ⟨none, 100, 2⟩, ⟨none, 100, 3⟩, ⟨none, 100, 4⟩] := by
    unfold SmoothWeightedPool.NeverShort
    decide +kernel
  have hlength : turns.length = 4 := by decide +kernel
  obtain ⟨-, hwindow, -⟩ := turns_exact pool ⟨none, 100, 1⟩
    [⟨none, 100, 2⟩, ⟨none, 100, 3⟩, ⟨none, 100, 4⟩] (by decide +kernel) (by decide +kernel) hshort
  have hW : ((pool.refreshed 1).accounts.values.map PooledTokenAccount.effectiveWeight).sum.toNat
      = 3 := by
    decide +kernel
  dsimp only at hwindow
  rw [hW] at hwindow
  have hcount := hwindow 1 (by rw [show SmoothWeightedPool.turns _ _ = turns from rfl, hlength])
    (text "first") ((account 2 _).refresh 1) rfl
  refine ⟨hlength, ?_⟩
  exact_mod_cast hcount.trans (show ((account 2 _).refresh 1).effectiveWeight = 2 by decide +kernel)

end Lumi.Credential
