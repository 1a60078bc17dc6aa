import Lumi.Lib.Decimal
import Lumi.Lib.Run
import Lumi.Cas.Store

/-!
# Deltas

`createDelta` goes through the source and the target side by side.  Where they agree it writes a copy
instruction, for at most 255 bytes, else the byte of the target; the offset of a copy is written in
two bytes.  `applyDelta` reads the instructions and skips what is none.  The deltas of a store are
kept under the hashes of the two sides.
-/

namespace Lumi.Cas

open Js List

structure CasDeltaPatch where
  sourceHash : Text
  targetHash : Text
  deltaBytes : ℕ
  deltaData : Bytes
  deriving DecidableEq

/-- The deltas of a store. -/
abbrev Deltas := InsertionMap Text CasDeltaPatch

/-- The inner loop of `createDelta`: how far the sides agree, in at most so many steps. -/
def matchLength (sourceData targetData : Bytes) (sIdx tIdx : ℕ) : ℕ → ℕ
  | 0 => 0
  | steps + 1 =>
    if sIdx < sourceData.length ∧ tIdx < targetData.length ∧
        sourceData[sIdx]? = targetData[tIdx]? then
      matchLength sourceData targetData (sIdx + 1) (tIdx + 1) steps + 1
    else 0

/-- The outer loop of `createDelta`; each turn goes on in the target, so that as many turns as it has
bytes are enough. -/
def deltaLoop (sourceData targetData : Bytes) : ℕ → ℕ → ℕ → Bytes
  | 0, _, _ => []
  | turns + 1, sIdx, tIdx =>
    match targetData[tIdx]? with
    | none => []
    | some byte =>
      if sIdx < sourceData.length ∧ sourceData[sIdx]? = some byte then
        let matchLen := matchLength sourceData targetData sIdx tIdx 255
        0 :: ((sIdx >>> 8) &&& 0xff).toUInt8 :: (sIdx &&& 0xff).toUInt8 :: matchLen.toUInt8 ::
          deltaLoop sourceData targetData turns (sIdx + matchLen) (tIdx + matchLen)
      else 1 :: byte :: deltaLoop sourceData targetData turns (sIdx + 1) (tIdx + 1)

def deltaOf (sourceData targetData : Bytes) : Bytes :=
  deltaLoop sourceData targetData targetData.length 0 0

section

variable [Runtime]

def deltaKey (sourceData targetData : Bytes) : Text :=
  sha256 sourceData ++ text ":" ++ sha256 targetData

def createDelta (deltas : Deltas) (sourceData targetData : Bytes) : CasDeltaPatch × Deltas :=
  match deltas.get? (deltaKey sourceData targetData) with
  | some existing => (existing, deltas)
  | none =>
    let deltaData := deltaOf sourceData targetData
    let patch : CasDeltaPatch :=
      { sourceHash := sha256 sourceData
        targetHash := sha256 targetData
        deltaBytes := deltaData.length
        deltaData }
    (patch, deltas.set (deltaKey sourceData targetData) patch)

/-- What writes the deltas of a store. -/
inductive DeltaCall
  | createDelta (sourceData targetData : Bytes)
  | clear

def Deltas.step (deltas : Deltas) : DeltaCall → Deltas
  | .createDelta sourceData targetData => (createDelta deltas sourceData targetData).2
  | .clear => .empty

end

/-- The loop of a copy instruction; an offset beyond the source copies nothing. -/
def copyBytes (sourceData : Bytes) (offset len : ℕ) : Bytes := (sourceData.drop offset).take len

/-- `applyDelta`.  A byte that is missing reads as zero, and is no length. -/
def applyDelta (sourceData : Bytes) : Bytes → Bytes
  | [] => []
  | opcode :: rest =>
    if opcode = 0 then
      match rest with
      | offsetHigh :: offsetLow :: len :: rest =>
        copyBytes sourceData ((offsetHigh.toNat <<< 8) ||| offsetLow.toNat) len.toNat ++
          applyDelta sourceData rest
      | _ => []
    else if opcode = 1 then
      match rest with
      | byte :: rest => byte :: applyDelta sourceData rest
      | [] => [0]
    else applyDelta sourceData rest

/-! ## Where the sides agree -/

section

variable (sourceData targetData : Bytes)

/-- The sides have the same byte at the index. -/
def Agrees (i : ℕ) : Prop :=
  i < sourceData.length ∧ i < targetData.length ∧ sourceData[i]? = targetData[i]?

instance (i : ℕ) : Decidable (Agrees sourceData targetData i) :=
  inferInstanceAs (Decidable (_ ∧ _))

/-- For how many bytes before the index the sides agree without a gap. -/
def agreementBefore : ℕ → ℕ
  | 0 => 0
  | i + 1 => if Agrees sourceData targetData i then agreementBefore i + 1 else 0

/-- Where the copy that covers the index begins: every 255 bytes of an agreement. -/
def copyStart (i : ℕ) : ℕ := i - agreementBefore sourceData targetData i % 255

/-- The byte that an offset of two bytes leads to is the one at the index. -/
def Reaches (i : ℕ) : Prop :=
  sourceData[copyStart sourceData targetData i % 2 ^ 16 + (i - copyStart sourceData targetData i)]? =
    sourceData[i]?

/-- What is copied from beyond the reach of an offset stands in the source also where the offset
leads to. -/
def OffsetsReach : Prop :=
  ∀ i, Agrees sourceData targetData i → 2 ^ 16 ≤ copyStart sourceData targetData i →
    Reaches sourceData targetData i

end

variable {sourceData targetData : Bytes}

theorem offsetsReach_iff : OffsetsReach sourceData targetData ↔
    ∀ i, Agrees sourceData targetData i → Reaches sourceData targetData i := by
  refine ⟨fun h i hi => ?_, fun h i hi _ => h i hi⟩
  rcases Nat.lt_or_ge (copyStart sourceData targetData i) (2 ^ 16) with hnear | hfar
  · have hle : copyStart sourceData targetData i ≤ i := Nat.sub_le _ _
    rw [Reaches, Nat.mod_eq_of_lt hnear, Nat.add_sub_cancel' hle]
  · exact h i hi hfar

/-- A source that offsets can reach everywhere. -/
theorem offsetsReach_of_length_le (h : sourceData.length ≤ 2 ^ 16) :
    OffsetsReach sourceData targetData := by
  intro i hi hfar
  have hle : copyStart sourceData targetData i ≤ i := Nat.sub_le _ _
  have hlt := hi.1
  omega

theorem matchLength_succ (i steps : ℕ) : matchLength sourceData targetData i i (steps + 1) =
    if Agrees sourceData targetData i then
      matchLength sourceData targetData (i + 1) (i + 1) steps + 1
    else 0 := rfl

theorem matchLength_agrees (i steps : ℕ) :
    matchLength sourceData targetData i i steps ≤ steps ∧
      (∀ k < matchLength sourceData targetData i i steps, Agrees sourceData targetData (i + k)) ∧
      (matchLength sourceData targetData i i steps < steps →
        ¬ Agrees sourceData targetData (i + matchLength sourceData targetData i i steps)) := by
  induction steps generalizing i with
  | zero => exact ⟨Nat.le_refl _, fun k hk => absurd hk (Nat.not_lt_zero k),
      fun h => absurd h (Nat.lt_irrefl _)⟩
  | succ steps ih =>
    rw [matchLength_succ]
    by_cases hi : Agrees sourceData targetData i
    · obtain ⟨hle, hagrees, hend⟩ := ih (i + 1)
      rw [if_pos hi]
      refine ⟨Nat.succ_le_succ hle, fun k hk => ?_, fun hlt => ?_⟩
      · cases k with
        | zero => exact hi
        | succ k =>
          rw [Nat.add_comm k 1, ← Nat.add_assoc]
          exact hagrees k (Nat.lt_of_succ_lt_succ hk)
      · rw [Nat.add_comm _ 1, ← Nat.add_assoc]
        exact hend (Nat.lt_of_succ_lt_succ hlt)
    · rw [if_neg hi]
      exact ⟨Nat.zero_le _, fun k hk => absurd hk (Nat.not_lt_zero k), fun _ => hi⟩

theorem agreementBefore_add {i k : ℕ} (h : ∀ l < k, Agrees sourceData targetData (i + l)) :
    agreementBefore sourceData targetData (i + k) = agreementBefore sourceData targetData i + k := by
  induction k with
  | zero => rfl
  | succ k ih =>
    rw [← Nat.add_assoc, agreementBefore, if_pos (h k (Nat.lt_succ_self k)),
      ih fun l hl => h l (Nat.lt_succ_of_lt hl), Nat.add_assoc]

/-- A copy that begins at the index covers the next 255 bytes of the agreement. -/
theorem copyStart_add {i k : ℕ} (hstart : agreementBefore sourceData targetData i % 255 = 0)
    (hk : k < 255) (h : ∀ l < k, Agrees sourceData targetData (i + l)) :
    copyStart sourceData targetData (i + k) = i := by
  rw [copyStart, agreementBefore_add h]
  omega

/-! ## One instruction -/

/-- The offset of a copy, as it is read again. -/
theorem offset_read (i : ℕ) :
    ((((i >>> 8) &&& 0xff).toUInt8.toNat <<< 8) ||| (i &&& 0xff).toUInt8.toNat) = i % 2 ^ 16 := by
  have hlow : (i &&& 0xff).toUInt8.toNat = i % 256 := by
    rw [show 0xff = 2 ^ 8 - 1 from rfl, Nat.and_two_pow_sub_one_eq_mod]
    show i % 256 % 256 = i % 256
    omega
  have hhigh : ((i >>> 8) &&& 0xff).toUInt8.toNat = i / 256 % 256 := by
    rw [show 0xff = 2 ^ 8 - 1 from rfl, Nat.and_two_pow_sub_one_eq_mod, Nat.shiftRight_eq_div_pow]
    show i / 256 % 256 % 256 = i / 256 % 256
    omega
  rw [hlow, hhigh, ← Nat.shiftLeft_add_eq_or_of_lt (show i % 256 < 2 ^ 8 by omega),
    Nat.shiftLeft_eq]
  omega

theorem applyDelta_copy (offset : ℕ) {len : ℕ} (hlen : len ≤ 255) (rest : Bytes) :
    applyDelta sourceData (0 :: ((offset >>> 8) &&& 0xff).toUInt8 :: (offset &&& 0xff).toUInt8 ::
        len.toUInt8 :: rest) =
      copyBytes sourceData (offset % 2 ^ 16) len ++ applyDelta sourceData rest := by
  have hlen' : len.toUInt8.toNat = len := Nat.mod_eq_of_lt (by omega)
  rw [applyDelta, if_pos rfl, offset_read, hlen']

theorem applyDelta_literal (byte : UInt8) (rest : Bytes) :
    applyDelta sourceData (1 :: byte :: rest) = byte :: applyDelta sourceData rest := by
  conv_lhs => unfold applyDelta
  rw [if_neg (by decide), if_pos rfl]

/-- A copy gives the bytes of the target exactly where its offset leads to them. -/
theorem copyBytes_eq_iff {i len : ℕ} (h : ∀ k < len, Agrees sourceData targetData (i + k)) :
    copyBytes sourceData (i % 2 ^ 16) len = (targetData.drop i).take len ↔
      ∀ k < len, sourceData[i % 2 ^ 16 + k]? = sourceData[i + k]? := by
  constructor
  · intro heq k hk
    have hget := congrArg (·[k]?) heq
    simp only [copyBytes, getElem?_take, if_pos hk, getElem?_drop] at hget
    exact hget.trans (h k hk).2.2.symm
  · intro hreach
    refine ext_getElem? fun k => ?_
    simp only [copyBytes, getElem?_take, getElem?_drop]
    split
    · next hk => exact (hreach k hk).trans (h k hk).2.2
    · rfl

theorem length_copyBytes {i len : ℕ} (h : ∀ k < len, Agrees sourceData targetData (i + k)) :
    (copyBytes sourceData (i % 2 ^ 16) len).length = ((targetData.drop i).take len).length := by
  cases len with
  | zero => rfl
  | succ len =>
    have hlast := h len (Nat.lt_succ_self len)
    have hmod : i % 2 ^ 16 ≤ i := Nat.mod_le _ _
    have hsource := hlast.1
    have htarget := hlast.2.1
    rw [copyBytes, length_take, length_take, length_drop, length_drop]
    omega

/-! ## The round trip -/

/-- From the start of an instruction on, the delta gives the target again exactly where the offsets
lead to what is copied. -/
theorem applyDelta_deltaLoop_iff {turns i : ℕ} (hturns : targetData.length ≤ i + turns)
    (hstart : Agrees sourceData targetData i → agreementBefore sourceData targetData i % 255 = 0) :
    applyDelta sourceData (deltaLoop sourceData targetData turns i i) = targetData.drop i ↔
      ∀ j, i ≤ j → Agrees sourceData targetData j → Reaches sourceData targetData j := by
  induction turns generalizing i with
  | zero =>
    have hover : targetData.length ≤ i := hturns
    refine iff_of_true (drop_eq_nil_of_le hover).symm fun j hj hagrees => ?_
    have := hagrees.2.1
    omega
  | succ turns ih =>
    rw [deltaLoop]
    split
    · next hnone =>
      have hover := List.getElem?_eq_none_iff.mp hnone
      refine iff_of_true (drop_eq_nil_of_le hover).symm fun j hj hagrees => ?_
      have := hagrees.2.1
      omega
    · next byte hbyte =>
      obtain ⟨hlt, rfl⟩ := List.getElem?_eq_some_iff.mp hbyte
      have hiff : (i < sourceData.length ∧ sourceData[i]? = some targetData[i]) ↔
          Agrees sourceData targetData i := by
        rw [Agrees, hbyte]
        exact ⟨fun h => ⟨h.1, hlt, h.2⟩, fun h => ⟨h.1, h.2.2⟩⟩
      split
      · next hcopy =>
        have hi := hiff.mp hcopy
        obtain ⟨hle, hagrees, hend⟩ : _ ∧ _ ∧ _ :=
          @matchLength_agrees sourceData targetData i 255
        set len := matchLength sourceData targetData i i 255 with hlen
        have hpos : 0 < len := by
          rw [hlen, matchLength_succ, if_pos hi]
          exact Nat.succ_pos _
        have hnext : Agrees sourceData targetData (i + len) →
            agreementBefore sourceData targetData (i + len) % 255 = 0 := by
          intro hmore
          rcases Nat.lt_or_ge len 255 with hlt | hge
          · exact absurd hmore (hend hlt)
          · rw [agreementBefore_add hagrees, Nat.le_antisymm hle hge, Nat.add_mod_right]
            exact hstart hi
        have hcovered : (∀ k < len, sourceData[i % 2 ^ 16 + k]? = sourceData[i + k]?) ↔
            ∀ k < len, Reaches sourceData targetData (i + k) := by
          refine forall₂_congr fun k hk => ?_
          rw [Reaches, copyStart_add (hstart hi) (hk.trans_le hle) fun l hl =>
            hagrees l (hl.trans hk), Nat.add_sub_cancel_left]
        have hsplit : targetData.drop i =
            (targetData.drop i).take len ++ targetData.drop (i + len) := by
          rw [← drop_drop, take_append_drop]
        rw [applyDelta_copy i hle, hsplit, append_eq_append_iff_of_size_eq_left
          (length_copyBytes hagrees), copyBytes_eq_iff hagrees, hcovered,
          ih (by omega) hnext]
        constructor
        · rintro ⟨hcopied, hlater⟩ j hj hj'
          rcases Nat.lt_or_ge j (i + len) with hlt | hge
          · have hwithin := hcopied (j - i) (by omega)
            rwa [Nat.add_sub_cancel' hj] at hwithin
          · exact hlater j hge hj'
        · intro h
          exact ⟨fun k hk => h (i + k) (Nat.le_add_right i k) (hagrees k hk),
            fun j hj => h j ((Nat.le_add_right i len).trans hj)⟩
      · next hliteral =>
        have hi : ¬ Agrees sourceData targetData i := fun h => hliteral (hiff.mpr h)
        have hnext : Agrees sourceData targetData (i + 1) →
            agreementBefore sourceData targetData (i + 1) % 255 = 0 := by
          intro _
          rw [agreementBefore, if_neg hi]
        rw [applyDelta_literal, drop_eq_getElem_cons hlt, cons_inj_right,
          ih (by omega) hnext]
        constructor
        · intro h j hj hagrees
          rcases Nat.lt_or_ge i j with hij | hij
          · exact h j hij hagrees
          · exact absurd (Nat.le_antisymm hij hj ▸ hagrees) hi
        · exact fun h j hj => h j (Nat.le_of_succ_le hj)

theorem applyDelta_deltaOf_iff : applyDelta sourceData (deltaOf sourceData targetData) = targetData ↔
    OffsetsReach sourceData targetData := by
  have hloop := @applyDelta_deltaLoop_iff sourceData targetData targetData.length 0
    (Nat.le_add_left _ _) fun _ => rfl
  rw [offsetsReach_iff, deltaOf]
  rw [drop_zero] at hloop
  exact hloop.trans (forall_congr' fun j => forall_prop_of_true (Nat.zero_le j))

section

variable [Runtime]

theorem deltaKey_injective (hsha : Function.Injective (sha256 : Bytes → Text))
    (hhex : ∀ data : Bytes, 0x3A ∉ sha256 data) {source target source' target' : Bytes}
    (h : deltaKey source target = deltaKey source' target') : source = source' ∧ target = target' := by
  rw [deltaKey, deltaKey, append_assoc, append_assoc] at h
  obtain ⟨hsource, htarget⟩ := eq_of_last_field (hhex target) (hhex target') h
  exact ⟨hsha hsource, hsha htarget⟩

/-- What is kept under the hashes of two sides is their delta. -/
def Deltas.Sound (deltas : Deltas) : Prop :=
  ∀ source target patch, deltas.get? (deltaKey source target) = some patch →
    patch.deltaData = deltaOf source target

theorem Deltas.sound_empty : Deltas.Sound .empty := fun _ _ _ hget => absurd hget (by simp)

theorem Deltas.Sound.deltaData {deltas : Deltas} (h : deltas.Sound) (source target : Bytes) :
    (createDelta deltas source target).1.deltaData = deltaOf source target := by
  unfold createDelta
  split
  · next existing hexisting => exact h source target existing hexisting
  · rfl

theorem Deltas.Sound.step (hsha : Function.Injective (sha256 : Bytes → Text))
    (hhex : ∀ data : Bytes, 0x3A ∉ sha256 data) {deltas : Deltas} (h : deltas.Sound)
    (call : DeltaCall) : (deltas.step call).Sound := by
  cases call with
  | clear => exact Deltas.sound_empty
  | createDelta source target =>
    rw [Deltas.step, createDelta]
    split
    · exact h
    · intro source' target' patch hget
      by_cases hkey : deltaKey source' target' = deltaKey source target
      · obtain ⟨rfl, rfl⟩ := deltaKey_injective hsha hhex hkey
        rw [InsertionMap.get?_set_self] at hget
        obtain rfl := Option.some.inj hget
        rfl
      · rw [InsertionMap.get?_set_of_ne _ _ hkey] at hget
        exact h source' target' patch hget

/-- **The delta round trip** gives the target again if and only if the offsets of the copies lead to
what is copied. -/
theorem delta_round_trip_iff (hsha : Function.Injective (sha256 : Bytes → Text))
    (hhex : ∀ data : Bytes, 0x3A ∉ sha256 data) (calls : List DeltaCall) (source target : Bytes) :
    applyDelta source
        (createDelta (Run.run Deltas.step .empty calls) source target).1.deltaData = target ↔
      OffsetsReach source target := by
  have hsound : Deltas.Sound (Run.run Deltas.step .empty calls) :=
    Run.run_invariant (fun _ call h => h.step hsha hhex call) Deltas.sound_empty calls
  rw [hsound.deltaData, applyDelta_deltaOf_iff]

end

section

/-- Digests that show the data, and have no colon. -/
local instance : Runtime where
  sha256 data := data.map fun byte => byte.toUInt16 + 0x100
  utf8 s := s.map UInt16.toUInt8
  localeCompare := fun a b => compareOfLessAndEq a b

/-- Two short texts, after a delta of the same sides the other way round. -/
theorem delta_round_trip_short :
    applyDelta [1, 2, 3] (createDelta (Run.run Deltas.step .empty
      [.createDelta [1, 5, 3, 4] [1, 2, 3]]) [1, 2, 3] [1, 5, 3, 4]).1.deltaData = [1, 5, 3, 4] := by
  have hbyte : Function.Injective fun byte : UInt8 => byte.toUInt16 + 0x100 := by
    intro a b h
    have hnat := congrArg UInt16.toNat h
    simp only [UInt16.toNat_add, UInt8.toNat_toUInt16, UInt16.reduceToNat] at hnat
    have ha := a.toNat_lt
    have hb := b.toNat_lt
    exact UInt8.toNat_inj.mp (by omega)
  have hhex : ∀ data : Bytes, 0x3A ∉ sha256 data := by
    intro data hmem
    obtain ⟨byte, -, hbyte⟩ := mem_map.mp hmem
    have hnat := congrArg UInt16.toNat hbyte
    simp only [UInt16.toNat_add, UInt8.toNat_toUInt16, UInt16.reduceToNat] at hnat
    have hlt := byte.toNat_lt
    omega
  exact (delta_round_trip_iff (map_injective_iff.mpr hbyte) hhex _ _ _).mpr
    (offsetsReach_of_length_le (by decide))

/-- Zeros, and a byte that differs. -/
def farSource (n : ℕ) : Bytes := List.replicate n 0 ++ [1]

def farTarget (n : ℕ) : Bytes := List.replicate (n + 1) 1

theorem farSource_zero {n i : ℕ} (h : i < n) : (farSource n)[i]? = some 0 := by
  rw [farSource, getElem?_append_left (by rwa [length_replicate]),
    getElem?_replicate, if_pos h]

theorem farSource_one (n : ℕ) : (farSource n)[n]? = some 1 := by
  rw [farSource, getElem?_append_right (by rw [length_replicate]), length_replicate,
    Nat.sub_self]
  rfl

theorem farTarget_one {n i : ℕ} (h : i < n + 1) : (farTarget n)[i]? = some 1 := by
  rw [farTarget, getElem?_replicate, if_pos h]

/-- The sides agree at the last byte only, and a copy begins there. -/
theorem copyStart_far {n : ℕ} (hpos : 0 < n) : Agrees (farSource n) (farTarget n) n ∧
    copyStart (farSource n) (farTarget n) n = n := by
  obtain ⟨m, rfl⟩ := Nat.exists_eq_add_one_of_ne_zero hpos.ne'
  have hbefore : ¬ Agrees (farSource (m + 1)) (farTarget (m + 1)) m := by
    rintro ⟨-, -, heq⟩
    rw [farSource_zero (Nat.lt_succ_self m), farTarget_one (by omega)] at heq
    exact absurd heq (by decide)
  refine ⟨⟨?_, ?_, ?_⟩, ?_⟩
  · exact (List.getElem?_eq_some_iff.mp (farSource_one (m + 1))).1
  · exact (List.getElem?_eq_some_iff.mp (farTarget_one (Nat.lt_succ_self (m + 1)))).1
  · rw [farSource_one, farTarget_one (Nat.lt_succ_self _)]
  · rw [copyStart, agreementBefore, if_neg hbefore]
    rfl

/-- An agreement behind the reach of an offset, where the source begins with another byte. -/
theorem not_offsetsReach_far {n : ℕ} (hmod : n % 2 ^ 16 = 0) (hpos : 0 < n) :
    ¬ OffsetsReach (farSource n) (farTarget n) := by
  intro h
  obtain ⟨hagrees, hstart⟩ := copyStart_far hpos
  have hbyte := offsetsReach_iff.mp h n hagrees
  rw [Reaches, hstart, hmod, Nat.sub_self, farSource_one, farSource_zero hpos] at hbyte
  exact absurd hbyte (by decide)

/-- The last of 65537 bytes is copied with an offset that is written as zero. -/
theorem far_copy_is_lost :
    applyDelta (farSource 65536) (createDelta .empty (farSource 65536) (farTarget 65536)).1.deltaData ≠
      farTarget 65536 := by
  rw [Deltas.sound_empty.deltaData, Ne, applyDelta_deltaOf_iff]
  exact not_offsetsReach_far (by decide) (by decide)

end

end Lumi.Cas
