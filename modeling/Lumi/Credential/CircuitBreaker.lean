import Lumi.Credential.Fairness

/-!
# The circuit breaker of a pooled credential

A revoked account is dead until it is reset.  An account that failed cools down; when the time is
over it is half-open, and three successes close the breaker again.

Two paths leave the protocol.  A failure that is reported for a dead account, and does not say that
the token is revoked, makes it cool down, so that it comes back; and a half-open account whose window
is used up to the soft-draining ratio loses its probation, since it is healthy again as soon as its
window is free.
-/

namespace Lumi.Credential

open Js InsertionMap PooledTokenAccount List Option

inductive PoolCall
  | selectAccount (sessionId : Option Text) (requiredTokens nowMs : ℚ)
  | recordUsage (accountId : Text) (tokensUsed : Number) (nowMs : ℚ) (sessionId : Option Text)
  | recordSuccess (accountId : Text)
  | recordFailure (accountId : Text) (failure : Failure) (nowMs : ℚ)
  | addTokenAccount (input : TokenIngestInput) (uuid : Text) (nowMs : ℚ)
  | resetCooldown (id : Text)
  | resetAllCooldowns
  | updateRefreshedTokens (accountId accessToken : Text) (refreshToken : Option Text)

namespace PoolCall

/-- The clock reading of a call. -/
def nowMs? : PoolCall → Option ℚ
  | selectAccount _ _ nowMs => some nowMs
  | recordUsage _ _ nowMs _ => some nowMs
  | recordFailure _ _ nowMs => some nowMs
  | addTokenAccount _ _ nowMs => some nowMs
  | _ => none

/-- The id under which an account is added. -/
def addedId (input : TokenIngestInput) (uuid : Text) : Text :=
  input.id.getD (text "codex_sh_" ++ uuid)

/-- The call puts the account `id` back to service. -/
def Resets (id : Text) : PoolCall → Prop
  | addTokenAccount input uuid _ => addedId input uuid = id
  | resetCooldown other => other = id
  | resetAllCooldowns => True
  | updateRefreshedTokens other _ _ => other = id
  | _ => False

/-- The call reports a failure of the account `id`. -/
def Fails (id : Text) : PoolCall → Prop
  | recordFailure other _ _ => other = id
  | _ => False

/-- The call reports a success of the account `id`. -/
def succeeds (id : Text) : PoolCall → Bool
  | recordSuccess other => other = id
  | _ => false

end PoolCall

namespace SmoothWeightedPool

def step [Host] (pool : SmoothWeightedPool) : PoolCall → SmoothWeightedPool
  | .selectAccount sessionId requiredTokens nowMs =>
    (pool.selectAccount sessionId requiredTokens nowMs).1
  | .recordUsage accountId tokensUsed nowMs sessionId =>
    pool.recordUsage accountId tokensUsed nowMs sessionId
  | .recordSuccess accountId => pool.recordSuccess accountId
  | .recordFailure accountId failure nowMs => pool.recordFailure accountId failure nowMs
  | .addTokenAccount input uuid nowMs =>
    match pool.addTokenAccount input uuid nowMs with
    | .ok after => after
    | .error _ => pool
  | .resetCooldown id => pool.resetCooldown id
  | .resetAllCooldowns => pool.resetAllCooldowns
  | .updateRefreshedTokens accountId accessToken refreshToken =>
    pool.updateRefreshedTokens accountId accessToken refreshToken

def status? (pool : SmoothWeightedPool) (id : Text) : Option PooledTokenStatus :=
  (pool.accounts.get? id).map PooledTokenAccount.status

end SmoothWeightedPool

open SmoothWeightedPool

/-- The calls are made in the order of their clock readings. -/
def Ordered (calls : List PoolCall) : Prop := (calls.filterMap PoolCall.nowMs?).Pairwise (· ≤ ·)

/-- A dead account stays dead until it is reset. -/
def StaysDead [Host] (pool : SmoothWeightedPool) (calls : List PoolCall) (id : Text) : Prop :=
  ∀ first middle last, calls = first ++ middle ++ last → (∀ call ∈ middle, ¬ call.Resets id) →
    (Run.run step pool first).status? id = some .dead →
    (Run.run step pool (first ++ middle)).status? id = some .dead

/-- After a failure that put an account into cooldown, and until the next failure or reset: it is not
selected before the cooldown is over, and it is healthy only after a later clock reading and three
successes that follow it. -/
def RecoversInOrder [Host] (pool : SmoothWeightedPool) (calls : List PoolCall) (id : Text) : Prop :=
  ∀ first failure nowMs middle last, calls = first ++ .recordFailure id failure nowMs :: middle ++ last →
    (∀ call ∈ middle, ¬ call.Resets id ∧ ¬ call.Fails id) →
    ∀ acc, (Run.run step pool (first ++ [.recordFailure id failure nowMs])).accounts.get? id = some acc →
      acc.status = .cooldown → ∀ cooldownUntil, acc.cooldownUntilTimestampMs = some cooldownUntil →
      let after := Run.run step pool (first ++ .recordFailure id failure nowMs :: middle)
      (∀ sessionId requiredTokens nowMs' rest,
        last = .selectAccount sessionId requiredTokens nowMs' :: rest → nowMs' < cooldownUntil →
        (after.selectAccount sessionId requiredTokens nowMs').2.account ≠ some id)
      ∧ (after.status? id = some .healthy → ∃ before reading later, middle = before ++ reading :: later
        ∧ (∃ reached ∈ reading.nowMs?, cooldownUntil ≤ reached)
        ∧ 3 ≤ later.countP (PoolCall.succeeds id))

/-- The account is half-open, or will be when it is brought up to date. -/
def PooledTokenAccount.OnProbation (acc : PooledTokenAccount) (nowMs : ℚ) : Prop :=
  acc.status = .halfOpen ∨ (acc.status = .cooldown ∧ acc.cooldownOver nowMs = true)

/-- An update does not find an account on probation with a window that is used too much. -/
def PooledTokenAccount.KeepsProbation (acc : PooledTokenAccount) (nowMs : ℚ) : Prop :=
  acc.OnProbation nowMs → (acc.purge nowMs).ratio < 17 / 20

/-- A call is timely for an account: no failure is reported for it when it is dead, unless it is
revoked again, and its window is not used too much on probation. -/
def PooledTokenAccount.Timely [Host] (id : Text) (call : PoolCall) (acc : PooledTokenAccount) :
    Prop :=
  match call with
  | .selectAccount _ _ nowMs => acc.KeepsProbation nowMs
  | .recordUsage accountId tokensUsed nowMs _ =>
    accountId = id → (acc.use tokensUsed nowMs).KeepsProbation nowMs
  | .recordFailure accountId failure _ =>
    accountId = id → acc.status = .dead → failure.isRevoked = true
  | _ => True

def Timely [Host] (id : Text) (pool : SmoothWeightedPool) (call : PoolCall) : Prop :=
  ∀ acc ∈ pool.accounts.get? id, acc.Timely id call

instance (acc : PooledTokenAccount) (nowMs : ℚ) : Decidable (acc.KeepsProbation nowMs) :=
  inferInstanceAs (Decidable (_ ∨ (_ ∧ _) → _))

instance [Host] (id : Text) (call : PoolCall) (acc : PooledTokenAccount) :
    Decidable (acc.Timely id call) :=
  match call with
  | .selectAccount _ _ nowMs => inferInstanceAs (Decidable (acc.KeepsProbation nowMs))
  | .recordUsage _ _ _ _ => inferInstanceAs (Decidable (_ = _ → PooledTokenAccount.KeepsProbation _ _))
  | .recordFailure _ _ _ => inferInstanceAs (Decidable (_ = _ → _ = _ → _ = _))
  | .recordSuccess _ => isTrue trivial
  | .addTokenAccount _ _ _ => isTrue trivial
  | .resetCooldown _ => isTrue trivial
  | .resetAllCooldowns => isTrue trivial
  | .updateRefreshedTokens _ _ _ => isTrue trivial

instance [Host] (id : Text) (pool : SmoothWeightedPool) (call : PoolCall) :
    Decidable (Timely id pool call) :=
  inferInstanceAs (Decidable (∀ acc ∈ pool.accounts.get? id, acc.Timely id call))

/-! ## What a call does to one account -/

/-- The account `b` has what the breaker of `a` has. -/
def SameBreaker (a b : PooledTokenAccount) : Prop :=
  b.status = a.status ∧ b.consecutiveCanaryPasses = a.consecutiveCanaryPasses
    ∧ b.cooldownUntilTimestampMs = a.cooldownUntilTimestampMs

/-- What a call that does not reset the account does to it. -/
def breakerStep [Host] (id : Text) (call : PoolCall) (acc : PooledTokenAccount) : PooledTokenAccount :=
  match call with
  | .selectAccount _ _ nowMs => updateAccountQuotaAndWeight acc nowMs
  | .recordUsage accountId tokensUsed nowMs _ =>
    if accountId = id then updateAccountQuotaAndWeight (acc.use tokensUsed nowMs) nowMs else acc
  | .recordSuccess accountId => if accountId = id then acc.succeed else acc
  | .recordFailure accountId failure nowMs => if accountId = id then acc.fail failure nowMs else acc
  | _ => acc

section

variable {id : Text} {pool : SmoothWeightedPool} {acc : PooledTokenAccount}

theorem get?_modify (other : Text) (f : PooledTokenAccount → PooledTokenAccount)
    (hacc : pool.accounts.get? id = some acc) :
    (pool.modify other f).accounts.get? id = some (if other = id then f acc else acc) := by
  rw [SmoothWeightedPool.modify]
  by_cases hid : other = id
  · subst hid
    rw [hacc, if_pos rfl]
    exact get?_set_self ..
  · rw [if_neg hid]
    split
    · exact hacc
    · exact (get?_set_of_ne _ _ (Ne.symm hid)).trans hacc

theorem gain_sameBreaker (acc : PooledTokenAccount) (requiredTokens : ℚ) :
    SameBreaker acc (acc.gain requiredTokens) := by
  rw [gain]
  split
  · exact ⟨rfl, rfl, rfl⟩
  · exact ⟨rfl, rfl, rfl⟩

/-- The step of smooth weighted round robin leaves the breakers. -/
theorem get?_smoothStep {requiredTokens : ℚ} {selected : Text} {after : SmoothWeightedPool}
    (h : pool.smoothStep requiredTokens = some (selected, after))
    (hacc : pool.accounts.get? id = some acc) :
    (∃ acc', after.accounts.get? id = some acc' ∧ SameBreaker acc acc')
      ∧ (selected = id → acc.isEligible requiredTokens = true) := by
  have hcandidate : ∀ entry ∈ pool.candidates requiredTokens, entry.1 = id →
      acc.isEligible requiredTokens = true ∧ entry.2 = acc.gain requiredTokens := by
    intro entry hentry hid
    obtain ⟨before, hbefore, rfl⟩ := mem_map.mp hentry
    obtain ⟨hmem, heligible⟩ := mem_filter.mp hbefore
    have hget : pool.accounts.get? id = some before.2 := by
      rw [← hid]
      exact mem_entries_iff.mp hmem
    have hsame : acc = before.2 := some_inj.mp (hacc.symm.trans hget)
    rw [hsame]
    exact ⟨heligible, rfl⟩
  rw [smoothStep] at h
  split at h
  · cases h
  next first rest hentries =>
    rw [hentries] at hcandidate
    have hmem := mostWeight_mem (fun entry : Text × PooledTokenAccount => entry.2.currentWeight)
      rest first
    set chosen := mostWeight (fun entry : Text × PooledTokenAccount => entry.2.currentWeight)
      first rest with hchosen
    injection h with h
    obtain ⟨hselected, hafter⟩ := Prod.mk.inj h
    refine ⟨?_, fun hid => (hcandidate chosen hmem (hselected.trans hid)).1⟩
    rw [← hafter]
    dsimp only
    rw [get?_set, get?_map, hacc]
    by_cases hid : id = chosen.1
    · rw [if_pos hid, (hcandidate chosen hmem hid.symm).2]
      exact ⟨_, rfl, gain_sameBreaker acc requiredTokens⟩
    · rw [if_neg hid]
      exact ⟨_, rfl, gain_sameBreaker acc requiredTokens⟩

/-- A session keeps to an account that serves. -/
theorem serves_of_stickyAccount {sessionId : Text} {requiredTokens nowMs : ℚ}
    (h : pool.stickyAccount sessionId requiredTokens nowMs = some id)
    (hacc : pool.accounts.get? id = some acc) : acc.serves requiredTokens = true := by
  rw [stickyAccount] at h
  split at h
  · cases h
  · split at h
    next affinity _ hserves =>
      injection h with h
      rw [h, hacc] at hserves
      exact hserves.2
    · cases h

/-- A selection brings the account up to date, and selects it only if it serves. -/
theorem get?_selectAccount (sessionId : Option Text) (requiredTokens nowMs : ℚ)
    (hacc : pool.accounts.get? id = some acc) :
    (∃ acc', (pool.selectAccount sessionId requiredTokens nowMs).1.accounts.get? id = some acc'
        ∧ SameBreaker (updateAccountQuotaAndWeight acc nowMs) acc')
      ∧ ((pool.selectAccount sessionId requiredTokens nowMs).2.account = some id →
        (updateAccountQuotaAndWeight acc nowMs).status ≠ .dead
          ∧ (updateAccountQuotaAndWeight acc nowMs).status ≠ .cooldown) := by
  have hsize : pool.accounts.size ≠ 0 := by
    intro hzero
    have hmem := mem_entries_iff.mpr hacc
    rw [length_eq_zero_iff.mp hzero] at hmem
    cases hmem
  have hrefresh : (pool.refreshed nowMs).accounts.get? id = some (acc.refresh nowMs) := by
    rw [refreshed, get?_map, hacc]
    rfl
  have hsame : SameBreaker (updateAccountQuotaAndWeight acc nowMs) (acc.refresh nowMs) :=
    ⟨rfl, rfl, rfl⟩
  rw [selectAccount, if_neg hsize]
  dsimp only
  split
  next session accountId hsticky =>
    rw [accounts_setSessionAffinity]
    refine ⟨⟨_, hrefresh, hsame⟩, fun hid => ?_⟩
    obtain ⟨session', -, hkeeps⟩ := bind_eq_some_iff.mp hsticky
    obtain ⟨other, hother, hpair⟩ := map_eq_some_iff.mp hkeeps
    have hsameId : other = id := (Prod.mk.inj hpair).2.trans (some_inj.mp hid)
    have hserves := serves_of_stickyAccount (hsameId ▸ hother) hrefresh
    rw [serves, Bool.and_eq_true, Bool.or_eq_true, decide_eq_true_iff, decide_eq_true_iff] at hserves
    have hstatus : (updateAccountQuotaAndWeight acc nowMs).status = .healthy
        ∨ (updateAccountQuotaAndWeight acc nowMs).status = .softDraining := hserves.1
    refine ⟨fun h => ?_, fun h => ?_⟩
    · simp [h] at hstatus
    · simp [h] at hstatus
  next =>
    split
    next => exact ⟨⟨_, hrefresh, hsame⟩, fun hid => by cases hid⟩
    next selected after hstep =>
      rw [accounts_anchor]
      obtain ⟨⟨acc', hafter, hsame'⟩, hselected⟩ := get?_smoothStep hstep hrefresh
      refine ⟨⟨acc', hafter, hsame'⟩, fun hid => ?_⟩
      have heligible := hselected (some_inj.mp hid)
      rw [isEligible] at heligible
      split at heligible
      · cases heligible
      next hnot =>
        exact ⟨fun h => hnot (.inl h), fun h => hnot (.inr (.inl h))⟩

theorem bind_ok {α β : Type} {x : Except Text α} {f : α → Except Text β} {result : β}
    (h : (x >>= f) = .ok result) : ∃ a, x = .ok a ∧ f a = .ok result := by
  cases x with
  | error message => cases h
  | ok a => exact ⟨a, rfl, h⟩

theorem eq_of_validateOptionalText {value value' : Option Text} {field : Text} {maxLength : ℕ}
    (h : validateOptionalText value field maxLength = .ok value') : value' = value := by
  unfold validateOptionalText at h
  split at h
  · injection h with h
    exact h.symm
  · split at h
    · cases h
    · injection h with h
      exact h.symm

theorem accounts_addTokenAccount {input : TokenIngestInput} {uuid : Text} {nowMs : ℚ}
    {after : SmoothWeightedPool} (h : pool.addTokenAccount input uuid nowMs = .ok after) :
    ∃ account, after.accounts = pool.accounts.set (PoolCall.addedId input uuid) account := by
  rw [addTokenAccount] at h
  obtain ⟨-, -, h⟩ := bind_ok h
  obtain ⟨suppliedId, hid, h⟩ := bind_ok h
  have hsupplied : suppliedId = input.id := eq_of_validateOptionalText hid
  dsimp only at h
  split at h
  · cases h
  obtain ⟨-, -, h⟩ := bind_ok h
  obtain ⟨refreshToken, -, h⟩ := bind_ok h
  obtain ⟨accountId, -, h⟩ := bind_ok h
  obtain ⟨email, -, h⟩ := bind_ok h
  injection h with h
  rw [← h, hsupplied]
  exact ⟨_, rfl⟩

variable {call : PoolCall}

/-- What a call does that does not reset the account. -/
theorem get?_step [Host] (hreset : ¬ call.Resets id) (hacc : pool.accounts.get? id = some acc) :
    ∃ acc', (pool.step call).accounts.get? id = some acc'
      ∧ SameBreaker (breakerStep id call acc) acc' := by
  cases call with
  | selectAccount sessionId requiredTokens nowMs =>
    exact (get?_selectAccount sessionId requiredTokens nowMs hacc).1
  | recordUsage accountId tokensUsed nowMs sessionId =>
    refine ⟨_, ?_, rfl, rfl, rfl⟩
    rw [step, recordUsage, breakerStep]
    by_cases hid : accountId = id
    · subst hid
      rw [hacc, if_pos rfl]
      exact get?_set_self ..
    · rw [if_neg hid]
      split
      · exact hacc
      · exact (get?_set_of_ne _ _ (Ne.symm hid)).trans hacc
  | recordSuccess accountId => exact ⟨_, get?_modify accountId _ hacc, rfl, rfl, rfl⟩
  | recordFailure accountId failure nowMs => exact ⟨_, get?_modify accountId _ hacc, rfl, rfl, rfl⟩
  | addTokenAccount input uuid nowMs =>
    rw [step]
    split
    next after hadded =>
      obtain ⟨account, haccounts⟩ := accounts_addTokenAccount hadded
      rw [haccounts, get?_set_of_ne _ _ (Ne.symm hreset)]
      exact ⟨acc, hacc, rfl, rfl, rfl⟩
    · exact ⟨acc, hacc, rfl, rfl, rfl⟩
  | resetCooldown other =>
    refine ⟨acc, (get?_modify other _ hacc).trans ?_, rfl, rfl, rfl⟩
    rw [if_neg (show other ≠ id from hreset)]
  | resetAllCooldowns => exact absurd trivial hreset
  | updateRefreshedTokens other accessToken refreshToken =>
    refine ⟨acc, (get?_modify other _ hacc).trans ?_, rfl, rfl, rfl⟩
    rw [if_neg (show other ≠ id from hreset)]

/-! ## Updates of an account that cools down -/

theorem update_of_cooldown {nowMs : ℚ} (h : acc.status = .cooldown)
    (hnot : acc.cooldownOver nowMs = false) :
    SameBreaker acc (updateAccountQuotaAndWeight acc nowMs) := by
  have hpurge : (acc.purge nowMs).status = .cooldown := h
  have hrecover : (acc.purge nowMs).recover nowMs = acc.purge nowMs := by
    refine if_neg fun hand => ?_
    have hover : acc.cooldownOver nowMs = true := hand.2
    rw [hnot] at hover
    cases hover
  rw [updateAccountQuotaAndWeight, hrecover, if_neg (by rw [hpurge]; decide), if_pos hpurge]
  exact ⟨rfl, rfl, rfl⟩

/-- On probation with a free window, the account is half-open, and counts from 0 if it was not. -/
theorem update_of_probation {nowMs : ℚ} (h : acc.OnProbation nowMs)
    (hratio : (acc.purge nowMs).ratio < 17 / 20) :
    (updateAccountQuotaAndWeight acc nowMs).status = .halfOpen
      ∧ (updateAccountQuotaAndWeight acc nowMs).consecutiveCanaryPasses
        = if acc.status = .halfOpen then acc.consecutiveCanaryPasses else 0 := by
  obtain hhalf | ⟨hcooldown, hover⟩ := h
  · have hpurge : (acc.purge nowMs).status = .halfOpen := hhalf
    rw [update_of_drained (by rw [hhalf]; decide) (by rw [hhalf]; decide),
      drain_of_ratio_lt hratio, if_pos hpurge, if_pos hhalf]
    exact ⟨hpurge, rfl⟩
  · have hrecover : (acc.purge nowMs).recover nowMs
        = { acc.purge nowMs with status := .halfOpen, consecutiveCanaryPasses := 0 } :=
      if_pos ⟨hcooldown, hover⟩
    rw [updateAccountQuotaAndWeight, hrecover]
    dsimp only
    rw [if_neg (by decide), if_neg (by decide), drain_of_ratio_lt (by exact hratio), if_pos rfl,
      if_neg (by rw [hcooldown]; decide)]
    exact ⟨rfl, rfl⟩

theorem le_of_cooldownOver {nowMs cooldownUntil : ℚ}
    (huntil : acc.cooldownUntilTimestampMs = some cooldownUntil)
    (h : acc.cooldownOver nowMs = true) : cooldownUntil ≤ nowMs := by
  rw [cooldownOver, huntil, Bool.and_eq_true, decide_eq_true_iff] at h
  exact of_decide_eq_true h.2

/-! ## Dead accounts -/

theorem dead_step [Host] (hreset : ¬ call.Resets id) (htimely : Timely id pool call)
    (h : pool.status? id = some .dead) : (pool.step call).status? id = some .dead := by
  obtain ⟨acc, hacc, hdead⟩ := map_eq_some_iff.mp h
  have htimely := htimely acc hacc
  obtain ⟨acc', hacc', hsame⟩ := get?_step hreset hacc
  rw [status?, hacc', map_some, hsame.1]
  refine congrArg some ?_
  cases call with
  | selectAccount sessionId requiredTokens nowMs => exact update_of_dead hdead
  | recordUsage accountId tokensUsed nowMs sessionId =>
    rw [breakerStep]
    split
    · exact update_of_dead hdead
    · exact hdead
  | recordSuccess accountId =>
    rw [breakerStep]
    split
    · rw [succeed, if_neg (by rw [hdead]; decide)]
      exact hdead
    · exact hdead
  | recordFailure accountId failure nowMs =>
    rw [breakerStep]
    split
    next hid =>
      rw [fail, if_pos (htimely hid hdead)]
    · exact hdead
  | addTokenAccount input uuid nowMs => exact hdead
  | resetCooldown other => exact hdead
  | resetAllCooldowns => exact hdead
  | updateRefreshedTokens other accessToken refreshToken => exact hdead

/-! ## Accounts that recover -/

/-- Since the failure: still cooling down, or on probation with its successes, or through with it. -/
def Recovering (id : Text) (cooldownUntil : ℚ) (middle : List PoolCall)
    (acc : PooledTokenAccount) : Prop :=
  (acc.status = .cooldown ∧ acc.cooldownUntilTimestampMs = some cooldownUntil)
  ∨ ∃ before reading later, middle = before ++ reading :: later
    ∧ (∃ reached ∈ reading.nowMs?, cooldownUntil ≤ reached)
    ∧ ((acc.status = .halfOpen ∧ acc.consecutiveCanaryPasses ≤ later.countP (PoolCall.succeeds id))
      ∨ 3 ≤ later.countP (PoolCall.succeeds id))

variable {middle : List PoolCall} {cooldownUntil : ℚ}

theorem Recovering.of_same {acc' : PooledTokenAccount} (h : Recovering id cooldownUntil middle acc)
    (hsame : SameBreaker acc acc') : Recovering id cooldownUntil middle acc' := by
  obtain ⟨hstatus, hpasses, huntil⟩ := hsame
  rw [Recovering, hstatus, hpasses, huntil]
  exact h

/-- An update while the account recovers; `call` is where it is made. -/
theorem Recovering.update {cooldownUntil nowMs : ℚ} (h : Recovering id cooldownUntil middle acc)
    (hnow : call.nowMs? = some nowMs) (hkeeps : acc.KeepsProbation nowMs) :
    Recovering id cooldownUntil (middle ++ [call]) (updateAccountQuotaAndWeight acc nowMs) := by
  obtain ⟨hstatus, huntil⟩ | ⟨before, reading, later, rfl, hreached, hprogress⟩ := h
  · cases hover : acc.cooldownOver nowMs with
    | false =>
      obtain ⟨hstatus', -, huntil'⟩ := update_of_cooldown hstatus hover
      exact .inl ⟨hstatus'.trans hstatus, huntil'.trans huntil⟩
    | true =>
      have hprobation : acc.OnProbation nowMs := Or.inr ⟨hstatus, hover⟩
      obtain ⟨hhalf, hpasses⟩ := update_of_probation hprobation (hkeeps hprobation)
      rw [if_neg (by rw [hstatus]; decide)] at hpasses
      exact .inr ⟨middle, call, [], rfl, ⟨nowMs, hnow, le_of_cooldownOver huntil hover⟩,
        Or.inl ⟨hhalf, hpasses.le⟩⟩
  · refine .inr ⟨before, reading, later ++ [call], by simp, hreached, ?_⟩
    have hcount : later.countP (PoolCall.succeeds id)
        ≤ (later ++ [call]).countP (PoolCall.succeeds id) := by
      rw [countP_append]
      exact Nat.le_add_right _ _
    obtain ⟨hhalf, hpasses⟩ | hthree := hprogress
    · have hprobation : acc.OnProbation nowMs := Or.inl hhalf
      obtain ⟨hhalf', hpasses'⟩ := update_of_probation hprobation (hkeeps hprobation)
      rw [if_pos hhalf] at hpasses'
      exact .inl ⟨hhalf', hpasses'.le.trans (hpasses.trans hcount)⟩
    · exact .inr (hthree.trans hcount)

/-- A call that does not touch the breaker. -/
theorem Recovering.append (h : Recovering id cooldownUntil middle acc) (call : PoolCall) :
    Recovering id cooldownUntil (middle ++ [call]) acc := by
  obtain hcooldown | ⟨before, reading, later, rfl, hreached, hprogress⟩ := h
  · exact .inl hcooldown
  · refine .inr ⟨before, reading, later ++ [call], by simp, hreached, ?_⟩
    have hcount : later.countP (PoolCall.succeeds id)
        ≤ (later ++ [call]).countP (PoolCall.succeeds id) := by
      rw [countP_append]
      exact Nat.le_add_right _ _
    exact hprogress.imp (fun hhalf => ⟨hhalf.1, hhalf.2.trans hcount⟩) fun h => h.trans hcount

/-- A success is one more pass. -/
theorem Recovering.succeed (h : Recovering id cooldownUntil middle acc) :
    Recovering id cooldownUntil (middle ++ [.recordSuccess id]) acc.succeed := by
  obtain ⟨hstatus, huntil⟩ | ⟨before, reading, later, rfl, hreached, hprogress⟩ := h
  · rw [PooledTokenAccount.succeed, if_neg (by rw [hstatus]; decide)]
    exact .inl ⟨hstatus, huntil⟩
  · refine .inr ⟨before, reading, later ++ [.recordSuccess id], by simp, hreached, ?_⟩
    have hcount : (later ++ [PoolCall.recordSuccess id]).countP (PoolCall.succeeds id)
        = later.countP (PoolCall.succeeds id) + 1 := by
      rw [countP_append, countP_singleton, if_pos (by simp [PoolCall.succeeds])]
    rw [hcount]
    obtain ⟨hhalf, hpasses⟩ | hthree := hprogress
    · rw [PooledTokenAccount.succeed, if_pos hhalf]
      dsimp only
      split
      · exact .inr (by omega)
      · exact .inl ⟨hhalf, by dsimp only; omega⟩
    · exact .inr (by omega)

theorem recovering_step [Host] (hreset : ¬ call.Resets id) (hfails : ¬ call.Fails id)
    (htimely : Timely id pool call) (hacc : pool.accounts.get? id = some acc)
    (h : Recovering id cooldownUntil middle acc) :
    ∃ acc', (pool.step call).accounts.get? id = some acc'
      ∧ Recovering id cooldownUntil (middle ++ [call]) acc' := by
  obtain ⟨acc', hacc', hsame⟩ := get?_step hreset hacc
  have htimely := htimely acc hacc
  refine ⟨acc', hacc', Recovering.of_same ?_ hsame⟩
  cases call with
  | selectAccount sessionId requiredTokens nowMs => exact h.update rfl htimely
  | recordUsage accountId tokensUsed nowMs sessionId =>
    rw [breakerStep]
    split
    next hid =>
      have hused : Recovering id cooldownUntil middle (acc.use tokensUsed nowMs) :=
        h.of_same ⟨rfl, rfl, rfl⟩
      exact hused.update rfl (htimely hid)
    · exact h.append _
  | recordSuccess accountId =>
    rw [breakerStep]
    split
    next hid =>
      subst hid
      exact h.succeed
    · exact h.append _
  | recordFailure accountId failure nowMs =>
    rw [breakerStep, if_neg (show accountId ≠ id from hfails)]
    exact h.append _
  | addTokenAccount input uuid nowMs => exact h.append _
  | resetCooldown other => exact h.append _
  | resetAllCooldowns => exact h.append _
  | updateRefreshedTokens other accessToken refreshToken => exact h.append _

theorem recovering_run [Host] (middle : List PoolCall)
    (hcalls : ∀ call ∈ middle, ¬ call.Resets id ∧ ¬ call.Fails id)
    (htimely : Run.Guarded step (Timely id) pool middle) (hacc : pool.accounts.get? id = some acc)
    (hcooldown : acc.status = .cooldown)
    (huntil : acc.cooldownUntilTimestampMs = some cooldownUntil) :
    ∃ acc', (Run.run step pool middle).accounts.get? id = some acc'
      ∧ Recovering id cooldownUntil middle acc' := by
  induction middle using List.reverseRecOn with
  | nil => exact ⟨acc, hacc, .inl ⟨hcooldown, huntil⟩⟩
  | append_singleton middle call ih =>
    obtain ⟨hmiddle, hlast⟩ := Run.guarded_append.mp htimely
    obtain ⟨acc', hacc', h⟩ :=
      ih (fun call hcall => hcalls call (mem_append_left _ hcall)) hmiddle
    obtain ⟨hreset, hfails⟩ := hcalls call (mem_append_right _ (mem_singleton_self _))
    rw [Run.run_append]
    exact recovering_step hreset hfails hlast.1 hacc' h

theorem dead_run [Host] (middle : List PoolCall) (hcalls : ∀ call ∈ middle, ¬ call.Resets id) :
    ∀ {pool : SmoothWeightedPool}, Run.Guarded step (Timely id) pool middle →
      pool.status? id = some .dead → (Run.run step pool middle).status? id = some .dead := by
  induction middle with
  | nil => exact fun _ h => h
  | cons call rest ih =>
    intro pool htimely h
    obtain ⟨hreset, hrest⟩ := forall_mem_cons.mp hcalls
    exact ih hrest htimely.2 (dead_step hreset htimely.1 h)

end

/-- **The protocol of the circuit breaker.**  In every run whose calls are timely for the account, it
stays dead until it is reset, and recovers in order after a failure. -/
theorem breaker_protocol [Host] (pool : SmoothWeightedPool) (calls : List PoolCall) (id : Text)
    (hordered : Ordered calls) (htimely : Run.Guarded step (Timely id) pool calls) :
    StaysDead pool calls id ∧ RecoversInOrder pool calls id := by
  refine ⟨?_, ?_⟩
  · intro first middle last hsplit hcalls hdead
    rw [hsplit, append_assoc] at htimely
    rw [Run.run_append]
    exact dead_run middle hcalls (Run.guarded_append.mp (Run.guarded_append.mp htimely).2).1 hdead
  · intro first failure nowMs middle last hsplit hcalls acc hacc hcooldown cooldownUntil huntil
    have happend : first ++ PoolCall.recordFailure id failure nowMs :: middle
        = (first ++ [PoolCall.recordFailure id failure nowMs]) ++ middle := by simp
    rw [hsplit, happend] at htimely hordered
    obtain ⟨hmiddle, hlast⟩ := Run.guarded_append.mp htimely
    obtain ⟨acc', hacc', hrecovering⟩ := recovering_run middle hcalls
      (Run.guarded_append.mp hmiddle).2 hacc hcooldown huntil
    rw [← Run.run_append, ← happend] at hacc'
    refine ⟨?_, ?_⟩
    · rintro sessionId requiredTokens nowMs' rest rfl hbefore hselected
      obtain ⟨hstatus, huntil'⟩ | ⟨before, reading, later, rfl, ⟨reached, hreached, hle⟩, -⟩ :=
        hrecovering
      · -- it still cools down, and this call does not end it
        have hover : acc'.cooldownOver nowMs' = false := by
          by_contra hnot
          exact absurd (le_of_cooldownOver huntil' (eq_true_of_ne_false hnot)) (not_le_of_gt hbefore)
        exact ((get?_selectAccount sessionId requiredTokens nowMs' hacc').2 hselected).2
          ((update_of_cooldown hstatus hover).1.trans hstatus)
      · -- an earlier reading was past the cooldown, and the clock does not go back
        rw [Ordered, filterMap_append, pairwise_append] at hordered
        have hle' := hordered.2.2 reached
          (mem_filterMap.mpr ⟨reading, by simp, hreached⟩) nowMs'
          (mem_filterMap.mpr ⟨_, mem_cons_self, rfl⟩)
        linarith
    · intro hhealthy
      rw [status?, hacc', map_some] at hhealthy
      have hhealthy := some_inj.mp hhealthy
      obtain ⟨hstatus, -⟩ | ⟨before, reading, later, hmid, hreached, hprogress⟩ := hrecovering
      · rw [hstatus] at hhealthy
        cases hhealthy
      obtain ⟨hhalf, -⟩ | hthree := hprogress
      · rw [hhalf] at hhealthy
        cases hhealthy
      · exact ⟨before, reading, later, hmid, hreached, hthree⟩

section

open scoped Js.Ascii

/-- A new pool with one account, of one request in a window of a minute. -/
def singlePool : SmoothWeightedPool :=
  (new none none).step (.addTokenAccount
    ⟨some (text "a"), text "token", none, none, none, none, none, some (.finite 1),
      some (.finite (1 / 60)), none, none⟩ [] 0)

def revoked : Failure := ⟨.finite 401, text "token_revoked", none, 0⟩

def serverError : Failure := ⟨.finite 500, text "server error", none, 0⟩

/-- Three successes after the cooldown. -/
theorem breaker_protocol_recovery : let calls : List PoolCall :=
      [.recordFailure (text "a") serverError 2, .selectAccount none 1 30000,
        .recordSuccess (text "a"), .recordSuccess (text "a"), .recordSuccess (text "a")]
    (Run.run step singlePool calls).status? (text "a") = some .healthy
      ∧ StaysDead singlePool calls (text "a") ∧ RecoversInOrder singlePool calls (text "a") := by
  intro calls
  have hordered : Ordered calls := by unfold Ordered; decide +kernel
  exact ⟨by decide +kernel,
    breaker_protocol singlePool calls (text "a") hordered (by decide +kernel)⟩

/-- A failure that is reported late brings a dead account back, and an account whose window is used
up is healthy again without a success. -/
theorem late_failure_revives_dead : (let calls : List PoolCall :=
      [.recordFailure (text "a") revoked 1, .recordFailure (text "a") serverError 2]
     Ordered calls ∧ ¬ StaysDead singlePool calls (text "a"))
    ∧ (let calls : List PoolCall :=
        [.recordUsage (text "a") (.finite 1) 1 none, .recordFailure (text "a") serverError 2,
          .selectAccount none 1 30000, .selectAccount none 1 70000]
       Ordered calls ∧ ¬ RecoversInOrder singlePool calls (text "a")) := by
  refine ⟨⟨by unfold Ordered; decide +kernel, fun h => ?_⟩,
    ⟨by unfold Ordered; decide +kernel, fun h => ?_⟩⟩
  · have hdead := h [.recordFailure (text "a") revoked 1] [.recordFailure (text "a") serverError 2] []
      rfl (fun call hcall hreset => by rw [mem_singleton.mp hcall] at hreset; exact hreset)
      (by decide +kernel)
    have hcooldown : (Run.run step singlePool [.recordFailure (text "a") revoked 1,
        .recordFailure (text "a") serverError 2]).status? (text "a") = some .cooldown := by
      decide +kernel
    exact absurd (hcooldown.symm.trans hdead) (by decide)
  · have hfailed : ((Run.run step singlePool [.recordUsage (text "a") (.finite 1) 1 none,
        .recordFailure (text "a") serverError 2]).accounts.get? (text "a")).map
          (fun acc => (acc.status, acc.cooldownUntilTimestampMs)) = some (.cooldown, some 10002) := by
      decide +kernel
    obtain ⟨acc, hacc, hpair⟩ := map_eq_some_iff.mp hfailed
    obtain ⟨hcooldown, huntil⟩ := Prod.mk.inj hpair
    have hrecovers := (h [.recordUsage (text "a") (.finite 1) 1 none] serverError 2
      [.selectAccount none 1 30000, .selectAccount none 1 70000] [] rfl
      (fun call hcall => by
        obtain rfl | hcall := mem_cons.mp hcall
        · exact ⟨id, id⟩
        · rw [mem_singleton.mp hcall]
          exact ⟨id, id⟩) acc hacc hcooldown 10002 huntil).2 (by decide +kernel)
    obtain ⟨before, reading, later, hmiddle, -, hthree⟩ := hrecovers
    have hlength := congrArg List.length hmiddle
    have hcount := @countP_le_length _ (PoolCall.succeeds (text "a")) later
    simp only [length_cons, length_nil, length_append] at hlength
    omega

end

end Lumi.Credential
