import Lumi.Lib.BitFields

/-!
# Snowflake identifiers

`SnowflakeIdGenerator` packs a time in milliseconds, the number of the worker and a sequence number
of twelve bits.  Within a millisecond the sequence counts up; when it overflows, the clock is read
until it shows a later time.  A time that lies before the last one starts the sequence afresh.

The readings of the clock are a list, from which every call takes as many as it needs.  An identifier
is the number whose decimal text the generator returns.
-/

open List

namespace Lumi.Substrate
structure SnowflakeIdGenerator where
  workerId : BitVec 5
  sequence : BitVec 12
  lastTimestamp : ℤ
  deriving DecidableEq

/-- A call that has returned: the first and the last reading that it took, and the identifier. -/
structure NextId where
  began : ℤ
  ended : ℤ
  id : ℤ
  deriving DecidableEq

namespace SnowflakeIdGenerator

/-- `new SnowflakeIdGenerator(workerId)`. -/
def new (workerId : ℤ) : SnowflakeIdGenerator := ⟨BitVec.ofInt 5 workerId, 0, -1⟩

/-- The first of January 2024. -/
def epochOffset : ℤ := 1704067200000

def snowflake (timestamp : ℤ) (workerId : BitVec 5) (sequence : BitVec 12) : ℤ :=
  let timeComponent := (timestamp - epochOffset) <<< (22 : ℕ)
  let workerComponent := workerId.toNat <<< 12
  Int.lor (Int.lor timeComponent workerComponent) sequence.toNat

/-- The clock is read until it shows a time after the last one. -/
def waitBeyond (lastTimestamp : ℤ) (readings : List ℤ) : Option (ℤ × List ℤ) :=
  match readings.dropWhile (· ≤ lastTimestamp) with
  | [] => none
  | timestamp :: rest => some (timestamp, rest)

/-- What `nextId` leaves and returns, once it has settled on a time and a number. -/
def issue (s : SnowflakeIdGenerator) (began timestamp : ℤ) (sequence : BitVec 12) :
    NextId × SnowflakeIdGenerator :=
  (⟨began, timestamp, snowflake timestamp s.workerId sequence⟩,
    { s with sequence, lastTimestamp := timestamp })

/-- `nextId`, with the readings that are left; there is no answer while the readings that it waits
for are missing. -/
def nextId (s : SnowflakeIdGenerator) : List ℤ → Option ((NextId × SnowflakeIdGenerator) × List ℤ)
  | [] => none
  | timestamp :: rest =>
    if timestamp = s.lastTimestamp then
      let sequence := s.sequence + 1
      if sequence = 0 then
        (waitBeyond s.lastTimestamp rest).map fun (later, rest) =>
          (s.issue timestamp later sequence, rest)
      else some (s.issue timestamp timestamp sequence, rest)
    else some (s.issue timestamp timestamp 0, rest)

/-- The first calls, if the readings are enough for them. -/
def nextIds : ℕ → SnowflakeIdGenerator → List ℤ → Option (List NextId)
  | 0, _, _ => some []
  | calls + 1, s, readings =>
    (s.nextId readings).bind fun ((call, s), rest) => (nextIds calls s rest).map (call :: ·)

/-! ## The fields of an identifier -/

theorem snowflake_eq (timestamp : ℤ) (workerId : BitVec 5) (sequence : BitVec 12) :
    snowflake timestamp workerId sequence =
      (timestamp - epochOffset) * 2 ^ 22 + (workerId.toNat * 2 ^ 12 + sequence.toNat) := by
  have hworker := workerId.isLt
  have hsequence := sequence.isLt
  have hroom : workerId.toNat <<< 12 < 2 ^ 22 := by
    rw [Nat.shiftLeft_eq]
    omega
  have hlower : ((workerId.toNat <<< 12 : ℕ) : ℤ) = workerId.toNat * 2 ^ 12 := by
    rw [Nat.shiftLeft_eq]
    push_cast
    rfl
  have hupper : (timestamp - epochOffset) * (2 : ℤ) ^ 22 + workerId.toNat * (2 : ℤ) ^ 12 =
      ((timestamp - epochOffset) * 2 ^ 10 + workerId.toNat) <<< (12 : ℕ) := by
    rw [Int.shiftLeft_eq]
    ring
  calc snowflake timestamp workerId sequence
      = Int.lor ((timestamp - epochOffset) * 2 ^ 22 + (workerId.toNat * 2 ^ 12 : ℤ))
          sequence.toNat := by
        rw [snowflake, BitFields.lor_shiftLeft _ _ hroom, hlower]
    _ = ((timestamp - epochOffset) * 2 ^ 10 + workerId.toNat) * 2 ^ 12 + sequence.toNat := by
        rw [hupper, BitFields.lor_shiftLeft _ _ hsequence]
    _ = _ := by ring

/-- Identifiers of one worker are ordered by their times, then by their sequence numbers. -/
theorem snowflake_lt_iff {timestamp timestamp' : ℤ} {workerId : BitVec 5}
    {sequence sequence' : BitVec 12} :
    snowflake timestamp workerId sequence < snowflake timestamp' workerId sequence' ↔
      timestamp < timestamp' ∨ timestamp = timestamp' ∧ sequence.toNat < sequence'.toNat := by
  have hworker := workerId.isLt
  have hsequence := sequence.isLt
  have hsequence' := sequence'.isLt
  rw [snowflake_eq, snowflake_eq, BitFields.packed_lt_iff (by omega) (by omega) (by omega)
    (by omega)]
  omega

/-! ## One call -/

variable {s s' : SnowflakeIdGenerator} {readings rest : List ℤ} {call : NextId}

theorem waitBeyond_eq_some {lastTimestamp timestamp : ℤ}
    (h : waitBeyond lastTimestamp readings = some (timestamp, rest)) :
    lastTimestamp < timestamp ∧ ∃ earlier, readings = earlier ++ timestamp :: rest := by
  unfold waitBeyond at h
  split at h
  · cases h
  · next later rest' hlater =>
    obtain ⟨rfl, rfl⟩ := Prod.mk.inj (Option.some.inj h)
    have hnot := head?_dropWhile_not (· ≤ lastTimestamp) readings
    rw [hlater] at hnot
    refine ⟨by simpa using hnot, readings.takeWhile (· ≤ lastTimestamp), ?_⟩
    rw [← hlater, takeWhile_append_dropWhile]

/-- What a call does: it takes the time that the clock shows, it counts up within the millisecond,
or it waits for the next one. -/
theorem nextId_cases (h : s.nextId readings = some ((call, s'), rest)) :
    (s', call.id) = ((s.issue call.began call.ended s'.sequence).2,
      snowflake call.ended s.workerId s'.sequence) ∧
    ((call.began ≠ s.lastTimestamp ∧ call.ended = call.began) ∨
      (call.began = s.lastTimestamp ∧ call.ended = s.lastTimestamp ∧
        s'.sequence.toNat = s.sequence.toNat + 1) ∨
      (call.began = s.lastTimestamp ∧ s.lastTimestamp < call.ended)) := by
  cases readings with
  | nil => cases h
  | cons timestamp readings =>
    simp only [nextId] at h
    split_ifs at h with hsame hoverflow
    · obtain ⟨⟨later, rest'⟩, hwait, heq⟩ := Option.map_eq_some_iff.mp h
      obtain ⟨hcall, rfl⟩ := Prod.mk.inj heq
      obtain ⟨rfl, rfl⟩ := Prod.mk.inj hcall
      exact ⟨rfl, .inr (.inr ⟨hsame, (waitBeyond_eq_some hwait).1⟩)⟩
    · obtain ⟨hcall, rfl⟩ := Prod.mk.inj (Option.some.inj h)
      obtain ⟨rfl, rfl⟩ := Prod.mk.inj hcall
      refine ⟨rfl, .inr (.inl ⟨hsame, hsame, ?_⟩)⟩
      -- without an overflow the number is the next one
      have hnumber := s.sequence.isLt
      have hne : (s.sequence + 1).toNat ≠ 0 := fun hzero => hoverflow (BitVec.eq_of_toNat_eq hzero)
      rw [BitVec.toNat_add] at hne
      show (s.sequence + 1).toNat = _
      rw [BitVec.toNat_add]
      change (s.sequence.toNat + 1) % 4096 ≠ 0 at hne
      change (s.sequence.toNat + 1) % 4096 = _
      omega
    · obtain ⟨hcall, rfl⟩ := Prod.mk.inj (Option.some.inj h)
      obtain ⟨rfl, rfl⟩ := Prod.mk.inj hcall
      exact ⟨rfl, .inl ⟨hsame, rfl⟩⟩

/-- The identifier is above the last one unless the clock has gone back. -/
theorem lt_id_iff (h : s.nextId readings = some ((call, s'), rest)) :
    snowflake s.lastTimestamp s.workerId s.sequence < call.id ↔ s.lastTimestamp ≤ call.began := by
  obtain ⟨heq, hcases⟩ := nextId_cases h
  rw [(Prod.mk.inj heq).2, snowflake_lt_iff]
  omega

/-! ## All calls -/

/-- The identifiers are distinct, and each is greater than those before it. -/
def NeverRepeat (calls : List NextId) : Prop :=
  (calls.map NextId.id).Nodup ∧ (calls.map NextId.id).Pairwise (· < ·)

/-- No call begins at an earlier time than that at which the call before it has ended. -/
def ClockNeverBack (calls : List NextId) : Prop :=
  calls.IsChain fun call next => call.ended ≤ next.began

instance (calls : List NextId) : Decidable (NeverRepeat calls) := inferInstanceAs (Decidable (_ ∧ _))

theorem neverRepeat_iff_isChain {calls : List NextId} :
    NeverRepeat calls ↔ calls.IsChain fun call next => call.id < next.id := by
  rw [← isChain_map NextId.id (R := (· < ·)), isChain_iff_pairwise]
  exact ⟨fun h => h.2, fun h => ⟨h.imp ne_of_lt, h⟩⟩

/-- Behind a call whose identifier is that of the state, the identifiers rise as long as the clock
does not go back. -/
theorem isChain_nextIds {calls : ℕ} {first : NextId} {later : List NextId}
    (h : s.nextIds calls readings = some later) (hended : first.ended = s.lastTimestamp)
    (hid : first.id = snowflake s.lastTimestamp s.workerId s.sequence) :
    ((first :: later).IsChain fun call next => call.id < next.id) ↔
      ClockNeverBack (first :: later) := by
  induction calls generalizing s readings first later with
  | zero =>
    obtain rfl := Option.some.inj h
    exact iff_of_true (isChain_singleton _) (isChain_singleton _)
  | succ calls ih =>
    obtain ⟨⟨⟨call, s'⟩, rest⟩, hcall, hrest⟩ := Option.bind_eq_some_iff.mp h
    obtain ⟨later', hlater, rfl⟩ := Option.map_eq_some_iff.mp hrest
    have hstep := lt_id_iff hcall
    obtain ⟨hstate, -⟩ := nextId_cases hcall
    obtain ⟨hs', hcallId⟩ := Prod.mk.inj hstate
    have hnext := ih hlater (by rw [hs']; rfl) (by rw [hcallId, hs']; rfl)
    rw [ClockNeverBack, isChain_cons_cons, isChain_cons_cons, hended, hid, hstep, hnext]
    rfl

/-- **Identifiers never repeat** and only rise, exactly as long as no call is made at an earlier time
than the call before it. -/
theorem never_repeat_iff {workerId : ℤ} {calls : ℕ} {ids : List NextId}
    (h : (new workerId).nextIds calls readings = some ids) :
    NeverRepeat ids ↔ ClockNeverBack ids := by
  rw [neverRepeat_iff_isChain]
  cases calls with
  | zero =>
    obtain rfl := Option.some.inj h
    exact iff_of_true isChain_nil isChain_nil
  | succ calls =>
    obtain ⟨⟨⟨call, s'⟩, rest⟩, hcall, hrest⟩ := Option.bind_eq_some_iff.mp h
    obtain ⟨later, hlater, rfl⟩ := Option.map_eq_some_iff.mp hrest
    obtain ⟨hstate, -⟩ := nextId_cases hcall
    obtain ⟨hs', hcallId⟩ := Prod.mk.inj hstate
    exact isChain_nextIds hlater (by rw [hs']; rfl) (by rw [hcallId, hs']; rfl)

/-- Three calls within two milliseconds. -/
theorem never_repeat_within_millisecond :
    ∃ ids, (new 1).nextIds 3 [1704067200005, 1704067200005, 1704067200006] = some ids ∧
      (NeverRepeat ids ↔ ClockNeverBack ids) := by
  have h : (new 1).nextIds 3 [1704067200005, 1704067200005, 1704067200006] =
      some [⟨1704067200005, 1704067200005, 20975616⟩, ⟨1704067200005, 1704067200005, 20975617⟩,
        ⟨1704067200006, 1704067200006, 25169920⟩] := by
    decide +kernel
  exact ⟨_, h, never_repeat_iff h⟩

/-- The clock steps back by a millisecond, and the first identifier is issued again. -/
theorem clock_back_repeats :
    ∃ ids, (new 1).nextIds 3 [1704067200005, 1704067200004, 1704067200005] = some ids ∧
      ¬ NeverRepeat ids :=
  ⟨_, rfl, by decide +kernel⟩

end SnowflakeIdGenerator

end Lumi.Substrate
