import Mathlib.Data.Rat.Floor
import Lumi.Lib.InsertionMap
import Lumi.Lib.JsValue

/-!
# The pool of credentials

`SmoothWeightedPool` holds a fleet of token accounts.  A selection first brings every account up to
date (its window of requests, its status and weight, its token bucket).  A session keeps to the
account it had, if that still serves; else the accounts that are eligible all gain their weight, the
first of those with most is selected, and pays what all have gained.

An account is in the map under its id.  Weights and numbers of requests are integers; times are
exact.
-/

namespace Lumi.Credential

open Js

inductive PooledTokenStatus
  | healthy
  | softDraining
  | cooldown
  | halfOpen
  | exhausted
  | dead
  deriving DecidableEq

structure TokenBucketState where
  maxTokens : ℤ
  remainingTokens : ℤ
  refillRatePerMinute : ℤ
  maxRequests : ℤ
  remainingRequests : ℤ
  lastRefillTimestampMs : ℚ

structure PooledTokenAccount where
  accessToken : Text
  refreshToken : Option Text
  accountId : Option Text
  email : Option Text
  baseWeight : ℤ
  one_le_baseWeight : 1 ≤ baseWeight
  effectiveWeight : ℤ
  currentWeight : ℤ
  priority : ℤ
  status : PooledTokenStatus
  consecutiveFailures : ℕ
  consecutiveCanaryPasses : ℕ
  cooldownUntilTimestampMs : Option ℚ
  totalRequestsServed : ℕ
  totalTokensConsumed : ℤ
  maxRequestsPerWindow : ℤ
  one_le_maxRequestsPerWindow : 1 ≤ maxRequestsPerWindow
  windowDurationMs : ℚ
  requestHistoryTimestampsMs : List ℚ
  tokenBucket : TokenBucketState
  createdTimestampMs : ℚ

structure AccountSelectionResult where
  /-- the id of the account -/
  account : Option Text
  sticky : Bool
  reason : Option Text
  activeFleetSize : ℕ

structure TokenIngestInput where
  id : Option Text
  accessToken : Text
  refreshToken : Option Text
  accountId : Option Text
  email : Option Text
  weight : Option Number
  priority : Option Number
  maxRequestsPerWindow : Option Number
  windowDurationHours : Option Number
  maxTokensPerMinute : Option Number
  maxRequestsPerMinute : Option Number

structure SessionAffinity where
  accountId : Text
  lastSeenMs : ℚ

structure SmoothWeightedPool where
  accounts : InsertionMap Text PooledTokenAccount
  sessionAffinityMap : InsertionMap Text SessionAffinity
  sessionTtlMs : ℚ
  maxSessionAffinities : ℤ

def boundedNumber (value : Option Number) (fallback minimum maximum : ℚ) : ℚ :=
  match value with
  | some (.finite q) => min maximum (max minimum q)
  | _ => fallback

theorem le_boundedNumber (value : Option Number) {fallback minimum maximum : ℚ}
    (hfallback : minimum ≤ fallback) (hmaximum : minimum ≤ maximum) :
    minimum ≤ boundedNumber value fallback minimum maximum := by
  unfold boundedNumber
  split
  · exact le_min hmaximum (le_max_left _ _)
  · exact hfallback

/-- A whole number of at least 1. -/
theorem one_le_floor_boundedNumber (value : Option Number) {fallback maximum : ℚ}
    (hfallback : 1 ≤ fallback) (hmaximum : 1 ≤ maximum) :
    1 ≤ ⌊boundedNumber value fallback 1 maximum⌋ :=
  Int.le_floor.mpr (by exact_mod_cast le_boundedNumber value hfallback hmaximum)

def validateOptionalText (value : Option Text) (field : Text) (maxLength : ℕ) :
    Except Text (Option Text) :=
  match value with
  | none => .ok none
  | some value =>
    if value.length = 0 ∨ value.length > maxLength then
      .error (field ++ text " must be a non-empty string no longer than "
        ++ text (toString maxLength) ++ text " characters")
    else .ok (some value)

namespace SmoothWeightedPool

/-- A new pool without accounts. -/
def new (sessionTtlMs maxSessionAffinities : Option Number) : SmoothWeightedPool where
  accounts := InsertionMap.empty
  sessionAffinityMap := InsertionMap.empty
  sessionTtlMs := boundedNumber sessionTtlMs (15 * 60 * 1000) 1000 (24 * 60 * 60 * 1000)
  maxSessionAffinities := ⌊boundedNumber maxSessionAffinities 10000 1 100000⌋

section

variable (pool : SmoothWeightedPool)

def setSessionAffinity (sessionId accountId : Text) (nowMs : ℚ) : SmoothWeightedPool :=
  if sessionId.length > 256 then pool
  else
    let affinities := pool.sessionAffinityMap
    let kept :=
      if pool.maxSessionAffinities ≤ affinities.size ∧ affinities.get? sessionId = none then
        let fresh := affinities.filterMap fun _ affinity =>
          if pool.sessionTtlMs ≤ nowMs - affinity.lastSeenMs then none else some affinity
        if pool.maxSessionAffinities ≤ fresh.size then
          match fresh.keys.head? with
          | some oldestSessionId =>
            if oldestSessionId ≠ [] then fresh.delete oldestSessionId else fresh
          | none => fresh
        else fresh
      else affinities
    { pool with
      sessionAffinityMap := (kept.delete sessionId).set sessionId ⟨accountId, nowMs⟩ }

/-- `/^[A-Za-z0-9._:-]+$/` -/
def isAccountId (id : Text) : Bool :=
  !id.isEmpty && id.all fun c =>
    (0x41 ≤ c && c ≤ 0x5A) || (0x61 ≤ c && c ≤ 0x7A) || (0x30 ≤ c && c ≤ 0x39)
      || c == 0x2E || c == 0x5F || c == 0x3A || c == 0x2D

/-- Registers or updates an account; `uuid` and `nowMs` come from the host. -/
def addTokenAccount (input : TokenIngestInput) (uuid : Text)
    (nowMs : ℚ) : Except Text SmoothWeightedPool := do
  let _ ← validateOptionalText (some input.accessToken) (text "accessToken") 32768
  let suppliedId ← validateOptionalText input.id (text "id") 128
  let id := suppliedId.getD (text "codex_sh_" ++ uuid)
  if isAccountId id = false then
    throw (text "id may contain only letters, digits, dot, underscore, colon, and hyphen")
  let existing := pool.accounts.get? id
  let maxTokens := ⌊boundedNumber input.maxTokensPerMinute 200000 1 100000000⌋
  let maxRequests := ⌊boundedNumber input.maxRequestsPerMinute 500 1 1000000⌋
  let refreshToken ← validateOptionalText input.refreshToken (text "refreshToken") 32768
  let accountId ← validateOptionalText input.accountId (text "accountId") 256
  let email ← validateOptionalText input.email (text "email") 320
  let account : PooledTokenAccount :=
    { accessToken := input.accessToken
      refreshToken := refreshToken.or (existing.bind (·.refreshToken))
      accountId := accountId.or (existing.bind (·.accountId))
      email := email.or (existing.bind (·.email))
      baseWeight := ⌊boundedNumber input.weight 1 1 1000⌋
      one_le_baseWeight := one_le_floor_boundedNumber _ (by norm_num) (by norm_num)
      effectiveWeight := ⌊boundedNumber input.weight 1 1 1000⌋
      currentWeight := 0
      priority := ⌊boundedNumber input.priority 10 0 1000⌋
      status := .healthy
      consecutiveFailures := 0
      consecutiveCanaryPasses := 0
      cooldownUntilTimestampMs := none
      totalRequestsServed := (existing.map (·.totalRequestsServed)).getD 0
      totalTokensConsumed := (existing.map (·.totalTokensConsumed)).getD 0
      maxRequestsPerWindow := ⌊boundedNumber input.maxRequestsPerWindow 40 1 1000000⌋
      one_le_maxRequestsPerWindow := one_le_floor_boundedNumber _ (by norm_num) (by norm_num)
      windowDurationMs := boundedNumber input.windowDurationHours 3 (1 / 60) (24 * 30) * 3600000
      requestHistoryTimestampsMs := (existing.map (·.requestHistoryTimestampsMs)).getD []
      tokenBucket := (existing.map (·.tokenBucket)).getD
        ⟨maxTokens, maxTokens, maxTokens, maxRequests, maxRequests, nowMs⟩
      createdTimestampMs := (existing.map (·.createdTimestampMs)).getD nowMs }
  return { pool with accounts := pool.accounts.set id account }

def removeTokenAccount (id : Text) : SmoothWeightedPool :=
  match pool.accounts.get? id with
  | none => pool
  | some _ =>
    { pool with
      accounts := pool.accounts.delete id
      sessionAffinityMap := pool.sessionAffinityMap.filterMap fun _ affinity =>
        if affinity.accountId = id then none else some affinity }

end

end SmoothWeightedPool

namespace PooledTokenAccount

/-- Back to service, with something in the bucket. -/
def reset (acc : PooledTokenAccount) : PooledTokenAccount :=
  { acc with
    status := .healthy
    consecutiveFailures := 0
    cooldownUntilTimestampMs := none
    effectiveWeight := acc.baseWeight
    tokenBucket :=
      { acc.tokenBucket with
        remainingRequests := max acc.tokenBucket.remainingRequests 10
        remainingTokens := max acc.tokenBucket.remainingTokens 5000 } }

end PooledTokenAccount

/-- Continuous refill of a token bucket. -/
def refillBucket (bucket : TokenBucketState) (nowMs : ℚ) : TokenBucketState :=
  let elapsedMs := max 0 (nowMs - bucket.lastRefillTimestampMs)
  if elapsedMs = 0 then bucket
  else
    let elapsedMinutes := elapsedMs / 60000
    let tokensToAdd := ⌊elapsedMinutes * bucket.refillRatePerMinute⌋
    let requestsToAdd := ⌊elapsedMinutes * bucket.maxRequests⌋
    { bucket with
      remainingTokens := min bucket.maxTokens (bucket.remainingTokens + tokensToAdd)
      remainingRequests := min bucket.maxRequests (bucket.remainingRequests + requestsToAdd)
      lastRefillTimestampMs := nowMs }

namespace PooledTokenAccount

section

variable (account : PooledTokenAccount)

/-- The requests that are in the window. -/
def purge (nowMs : ℚ) : PooledTokenAccount :=
  { account with
    requestHistoryTimestampsMs := account.requestHistoryTimestampsMs.filter fun ts =>
      ts > nowMs - account.windowDurationMs }

/-- The cooldown is over: a time that is not zero has been reached. -/
def cooldownOver (nowMs : ℚ) : Bool :=
  match account.cooldownUntilTimestampMs with
  | some until_ => until_ ≠ 0 && until_ ≤ nowMs
  | none => false

/-- A cooldown that is over makes the account half-open. -/
def recover (nowMs : ℚ) : PooledTokenAccount :=
  if account.status = .cooldown ∧ account.cooldownOver nowMs then
    { account with status := .halfOpen, consecutiveCanaryPasses := 0 }
  else account

/-- The share of the window that is used. -/
def ratio : ℚ :=
  account.requestHistoryTimestampsMs.length / account.maxRequestsPerWindow

/-- Saturation, soft draining, or full weight. -/
def drain : PooledTokenAccount :=
  if account.ratio ≥ 1 then { account with status := .exhausted, effectiveWeight := 0 }
  else
    let status :=
      if account.status = .exhausted ∧ account.ratio < 9 / 10 then .healthy else account.status
    if account.ratio ≥ 17 / 20 then
      let derateMultiplier : ℚ := max (1 / 10) (1 - account.ratio ^ 4)
      { account with
        status := .softDraining
        effectiveWeight := max 1 ⌊account.baseWeight * derateMultiplier⌋ }
    else if status ≠ .halfOpen then
      { account with status := .healthy, effectiveWeight := account.baseWeight }
    else { account with status := status }

end

end PooledTokenAccount

/-- Updates the window, the status and the weight of an account. -/
def updateAccountQuotaAndWeight (account : PooledTokenAccount) (nowMs : ℚ) : PooledTokenAccount :=
  let account := (account.purge nowMs).recover nowMs
  if account.status = .dead then { account with effectiveWeight := 0 }
  else if account.status = .cooldown then { account with effectiveWeight := 0 }
  else account.drain

section

variable {account : PooledTokenAccount} {nowMs : ℚ}

namespace PooledTokenAccount

theorem ratio_purge_le (account : PooledTokenAccount) (nowMs : ℚ) :
    (account.purge nowMs).ratio ≤ account.ratio := by
  have hcap : (0 : ℚ) ≤ account.maxRequestsPerWindow := by
    exact_mod_cast zero_le_one.trans account.one_le_maxRequestsPerWindow
  refine div_le_div_of_nonneg_right ?_ hcap
  exact_mod_cast List.length_filter_le _ _

theorem drain_of_ratio_lt (h : account.ratio < 17 / 20) :
    account.drain = if account.status = .halfOpen then account
      else { account with status := .healthy, effectiveWeight := account.baseWeight } := by
  unfold drain
  rw [if_neg (by linarith)]
  dsimp only
  rw [if_neg (by linarith)]
  by_cases hhalf : account.status = .halfOpen
  · have hstatus : (if account.status = .exhausted ∧ account.ratio < 9 / 10 then .healthy
        else account.status) = account.status := if_neg fun hand => by simp [hhalf] at hand
    rw [hstatus, if_neg (not_not.mpr hhalf), if_pos hhalf]
  · rw [if_pos ?_, if_neg hhalf]
    split
    · decide
    · exact hhalf

theorem status_drain_of_le (h : 17 / 20 ≤ account.ratio) :
    account.drain.status = .softDraining ∨ account.drain.status = .exhausted := by
  unfold drain
  split
  · exact .inr rfl
  · exact .inl rfl

@[simp] theorem recover_of_ne (h : account.status ≠ .cooldown) : account.recover nowMs = account :=
  if_neg fun hand => h hand.1

/-- Draining changes the status and the effective weight. -/
theorem drain_eq (account : PooledTokenAccount) : ∃ status effectiveWeight,
    account.drain = { account with status := status, effectiveWeight := effectiveWeight } := by
  by_cases hratio : account.ratio < 17 / 20
  · rw [drain_of_ratio_lt hratio]
    split
    · exact ⟨_, _, rfl⟩
    · exact ⟨_, _, rfl⟩
  · unfold drain
    by_cases hfull : account.ratio ≥ 1
    · rw [if_pos hfull]
      exact ⟨_, _, rfl⟩
    · rw [if_neg hfull]
      dsimp only
      rw [if_pos (not_lt.mp hratio)]
      exact ⟨_, _, rfl⟩

end PooledTokenAccount

open PooledTokenAccount

/-- An update leaves the credit and the token. -/
theorem update_keeps (account : PooledTokenAccount) (nowMs : ℚ) :
    (updateAccountQuotaAndWeight account nowMs).currentWeight = account.currentWeight
      ∧ (updateAccountQuotaAndWeight account nowMs).accessToken = account.accessToken := by
  have hrecover : ((account.purge nowMs).recover nowMs).currentWeight = account.currentWeight
      ∧ ((account.purge nowMs).recover nowMs).accessToken = account.accessToken := by
    unfold recover
    split
    · exact ⟨rfl, rfl⟩
    · exact ⟨rfl, rfl⟩
  unfold updateAccountQuotaAndWeight
  dsimp only
  split
  · exact hrecover
  · split
    · exact hrecover
    · obtain ⟨status, effectiveWeight, hdrain⟩ := ((account.purge nowMs).recover nowMs).drain_eq
      rw [hdrain]
      exact hrecover

theorem update_of_dead (h : account.status = .dead) :
    (updateAccountQuotaAndWeight account nowMs).status = .dead := by
  have hpurge : (account.purge nowMs).status = .dead := h
  rw [updateAccountQuotaAndWeight, recover_of_ne (by rw [hpurge]; decide)]
  rw [if_pos hpurge]
  exact hpurge

/-- An account that is neither dead nor cooling down is drained. -/
theorem update_of_drained (hdead : account.status ≠ .dead) (hcooldown : account.status ≠ .cooldown) :
    updateAccountQuotaAndWeight account nowMs = (account.purge nowMs).drain := by
  have hpurge : (account.purge nowMs).status = account.status := rfl
  rw [updateAccountQuotaAndWeight, recover_of_ne (by rw [hpurge]; exact hcooldown)]
  rw [if_neg (by rw [hpurge]; exact hdead), if_neg (by rw [hpurge]; exact hcooldown)]

end

namespace PooledTokenAccount

section

variable (account : PooledTokenAccount)

/-- Up to date for a selection. -/
def refresh (nowMs : ℚ) : PooledTokenAccount :=
  let updated := updateAccountQuotaAndWeight account nowMs
  { updated with tokenBucket := refillBucket updated.tokenBucket nowMs }

section

variable (requiredTokens : ℚ)

def hasTokens : Bool :=
  requiredTokens ≤ account.tokenBucket.remainingTokens
    && 1 ≤ account.tokenBucket.remainingRequests

/-- A session may keep to the account. -/
def serves : Bool :=
  (account.status = .healthy || account.status = .softDraining) && account.hasTokens requiredTokens

def isEligible : Bool :=
  if account.status = .dead ∨ account.status = .cooldown ∨ account.status = .exhausted then false
  else if startsWith account.accessToken (text "ey_sample_") then false
  else account.hasTokens requiredTokens

/-- Each candidate gains its weight. -/
def gain : PooledTokenAccount :=
  if account.isEligible requiredTokens then
    { account with currentWeight := account.currentWeight + account.effectiveWeight }
  else account

end

/-- The one that is selected pays for all. -/
def pay (totalEffectiveWeight : ℤ) : PooledTokenAccount :=
  { account with currentWeight := account.currentWeight - totalEffectiveWeight }

end

end PooledTokenAccount

/-- The loop that keeps the first candidate of the greatest weight. -/
def mostWeight {ι : Type*} (weight : ι → ℤ) : ι → List ι → ι
  | selected, [] => selected
  | selected, candidate :: rest =>
    mostWeight weight (if weight candidate > weight selected then candidate else selected) rest

namespace SmoothWeightedPool

section

variable (pool : SmoothWeightedPool)

/-- The account a session keeps to. -/
def stickyAccount (sessionId : Text) (requiredTokens nowMs : ℚ) : Option Text :=
  match pool.sessionAffinityMap.get? sessionId with
  | none => none
  | some affinity =>
    if nowMs - affinity.lastSeenMs < pool.sessionTtlMs
        ∧ ((pool.accounts.get? affinity.accountId).any (·.serves requiredTokens)) = true then
      some affinity.accountId
    else none

/-- Every account up to date. -/
def refreshed (nowMs : ℚ) : SmoothWeightedPool :=
  { pool with accounts := pool.accounts.map fun _ account => account.refresh nowMs }

/-- `if (sessionId) this.setSessionAffinity(sessionId, accountId, nowMs)` -/
def anchor (sessionId : Option Text) (accountId : Text) (nowMs : ℚ) : SmoothWeightedPool :=
  match sessionId with
  | none => pool
  | some sessionId =>
    if sessionId = [] then pool else pool.setSessionAffinity sessionId accountId nowMs

/-- The accounts that are eligible, after all of them gained their weight. -/
def candidates (requiredTokens : ℚ) : List (Text × PooledTokenAccount) :=
  (pool.accounts.entries.filter fun entry => entry.2.isEligible requiredTokens).map fun entry =>
    (entry.1, entry.2.gain requiredTokens)

/-- One step of smooth weighted round robin over the eligible accounts. -/
def smoothStep (requiredTokens : ℚ) : Option (Text × SmoothWeightedPool) :=
  match pool.candidates requiredTokens with
  | [] => none
  | first :: rest =>
    let gained := pool.accounts.map fun _ account => account.gain requiredTokens
    let totalEffectiveWeight := ((first :: rest).map fun entry => entry.2.effectiveWeight).sum
    let selected := mostWeight (fun entry => entry.2.currentWeight) first rest
    some (selected.1,
      { pool with accounts := gained.set selected.1 (selected.2.pay totalEffectiveWeight) })

def selectAccount (sessionId : Option Text) (requiredTokens nowMs : ℚ) :
    SmoothWeightedPool × AccountSelectionResult :=
  if pool.accounts.size = 0 then
    (pool, ⟨none, false, some (text "No token accounts registered in pool"), 0⟩)
  else
    let pool := pool.refreshed nowMs
    match (sessionId.filter (· ≠ [])).bind fun sessionId =>
        (pool.stickyAccount sessionId requiredTokens nowMs).map (sessionId, ·) with
    | some (sessionId, accountId) =>
      let seen := pool.sessionAffinityMap.set sessionId ⟨accountId, nowMs⟩
      ({ pool with sessionAffinityMap := seen }.setSessionAffinity sessionId accountId nowMs,
        ⟨some accountId, true, none, pool.accounts.size⟩)
    | none =>
      match pool.smoothStep requiredTokens with
      | none =>
        (pool, ⟨none, false, some (text
          "All accounts in pool are in cooldown, exhausted, or token-bucket constrained"),
          pool.accounts.size⟩)
      | some (accountId, after) =>
        (after.anchor sessionId accountId nowMs,
          ⟨some accountId, false, none,
            (pool.accounts.values.filter (·.isEligible requiredTokens)).length⟩)

/-- Changes an account, where there is one. -/
def modify (accountId : Text) (f : PooledTokenAccount → PooledTokenAccount) : SmoothWeightedPool :=
  match pool.accounts.get? accountId with
  | none => pool
  | some acc => { pool with accounts := pool.accounts.set accountId (f acc) }

def resetCooldown (id : Text) : SmoothWeightedPool :=
  pool.modify id PooledTokenAccount.reset

def resetAllCooldowns : SmoothWeightedPool :=
  { pool with
    accounts := pool.accounts.map fun _ acc =>
      if acc.status = .cooldown ∨ acc.status = .dead ∨ acc.status = .exhausted then acc.reset
      else acc }

end

end SmoothWeightedPool

namespace PooledTokenAccount

def use (acc : PooledTokenAccount) (tokensUsed : Number) (nowMs : ℚ) : PooledTokenAccount :=
  let safeTokensUsed := ⌊boundedNumber (some tokensUsed) 0 0 100000000⌋
  { acc with
    totalRequestsServed := acc.totalRequestsServed + 1
    totalTokensConsumed := acc.totalTokensConsumed + safeTokensUsed
    requestHistoryTimestampsMs := acc.requestHistoryTimestampsMs ++ [nowMs]
    tokenBucket :=
      { acc.tokenBucket with
        remainingTokens := max 0 (acc.tokenBucket.remainingTokens - safeTokensUsed)
        remainingRequests := max 0 (acc.tokenBucket.remainingRequests - 1) } }

def succeed (acc : PooledTokenAccount) : PooledTokenAccount :=
  let acc := { acc with consecutiveFailures := 0 }
  if acc.status = .halfOpen then
    let acc := { acc with consecutiveCanaryPasses := acc.consecutiveCanaryPasses + 1 }
    if acc.consecutiveCanaryPasses ≥ 3 then
      { acc with status := .healthy, effectiveWeight := acc.baseWeight }
    else acc
  else acc

end PooledTokenAccount

/-- A failure as it is reported; `jitter` comes from the host. -/
structure Failure where
  statusCode : Number
  errorText : Text
  retryAfterSeconds : Option Number
  jitter : Fin 5000

section

variable [Host]

def Failure.isRevoked (failure : Failure) : Bool :=
  let lowerErr := toLowerCase failure.errorText
  failure.statusCode = .finite 401
    && (includes lowerErr (text "token_revoked") || includes lowerErr (text "invalidated")
      || includes lowerErr (text "invalid_grant") || includes lowerErr (text "session has ended"))

def Failure.isRateLimit (failure : Failure) : Bool :=
  let lowerErr := toLowerCase failure.errorText
  failure.statusCode = .finite 429 || includes lowerErr (text "rate_limit")
    || includes lowerErr (text "quota")

/-- The cooldown after a failure that is one of `consecutiveFailures`. -/
def Failure.cooldownMs (failure : Failure) (consecutiveFailures : ℕ) : ℚ :=
  let truthy := failure.retryAfterSeconds.filter fun seconds =>
    seconds ≠ .finite 0 ∧ seconds ≠ .nan
  let baseCooldownMs : ℚ :=
    match truthy with
    | some seconds => boundedNumber (some seconds) 30 1 3600 * 1000
    | none =>
      if failure.isRateLimit then 30000
      else min (5 * 60000) (1000 * 2 ^ min consecutiveFailures 8)
  max 10000 (baseCooldownMs + failure.jitter)

def PooledTokenAccount.fail (acc : PooledTokenAccount) (failure : Failure) (nowMs : ℚ) :
    PooledTokenAccount :=
  let acc :=
    { acc with
      consecutiveFailures := acc.consecutiveFailures + 1
      consecutiveCanaryPasses := 0 }
  if failure.isRevoked then { acc with status := .dead, effectiveWeight := 0 }
  else
    { acc with
      status := .cooldown
      cooldownUntilTimestampMs := some (nowMs + failure.cooldownMs acc.consecutiveFailures)
      effectiveWeight := 0 }

end

namespace SmoothWeightedPool

section

variable (pool : SmoothWeightedPool)

def recordUsage (accountId : Text) (tokensUsed : Number) (nowMs : ℚ)
    (sessionId : Option Text) : SmoothWeightedPool :=
  match pool.accounts.get? accountId with
  | none => pool
  | some acc =>
    let anchored := pool.anchor sessionId accountId nowMs
    { anchored with
      accounts := pool.accounts.set accountId
        (updateAccountQuotaAndWeight (acc.use tokensUsed nowMs) nowMs) }

def recordSuccess (accountId : Text) : SmoothWeightedPool :=
  pool.modify accountId PooledTokenAccount.succeed

def recordFailure [Host] (accountId : Text) (failure : Failure) (nowMs : ℚ) : SmoothWeightedPool :=
  pool.modify accountId fun acc => acc.fail failure nowMs

def updateRefreshedTokens (accountId accessToken : Text)
    (refreshToken : Option Text) : SmoothWeightedPool :=
  pool.modify accountId fun acc =>
    { acc with
      accessToken := accessToken
      refreshToken := (refreshToken.filter (· ≠ [])).or acc.refreshToken
      status := .healthy
      consecutiveFailures := 0
      effectiveWeight := acc.baseWeight
      cooldownUntilTimestampMs := none }

end

end SmoothWeightedPool

end Lumi.Credential
