import Lumi.Lib.Decimal
import Lumi.Substrate.BroccoliTieredKvCache

/-!
# Coherence of the tiered cache

A coherent store has one entry for each key, which the callers write and a recomputation may refresh
as long as no caller touched the key since it began.  In every run whose recomputations do no more
than that, the two tiers answer like such a store (`answers_of_guarded`).  Nothing makes a
recomputation stop, though: one that completes after the key was deleted brings it back.
-/

namespace Lumi.Substrate

open Js InsertionMap

variable {ν : Type*}

/-- What the cache should hold: the value of each key with the time when it ends, and the number of
the last call by which a caller touched the key. -/
structure CoherentStore (ν : Type*) where
  stored : Text → Option (ν × Number)
  touched : Text → ℕ

namespace CoherentStore

def empty : CoherentStore ν := ⟨fun _ => none, fun _ => 0⟩

-- a recomputation that began before the key was touched changes nothing
def step (spec : CoherentStore ν) (s : CacheSystem ν) : CacheCall ν → CoherentStore ν
  | .put key value ttlMs _ now =>
    ⟨Function.update spec.stored key (some (value, (Number.finite now).add ttlMs)),
      Function.update spec.touched key (s.calls + 1)⟩
  | .delete key =>
    ⟨Function.update spec.stored key none, Function.update spec.touched key (s.calls + 1)⟩
  | .clear => ⟨fun _ => none, fun _ => s.calls + 1⟩
  | .complete i value _ again =>
    match s.running[i]? with
    | none => spec
    | some r =>
      if spec.touched r.1.key ≤ r.2 then
        ⟨Function.update spec.stored r.1.key (some (value, (Number.finite again).add r.1.ttlMs)),
          spec.touched⟩
      else spec
  | _ => spec

end CoherentStore

section

variable [Json ν]

/-- A cache beside the store that it should answer like. -/
abbrev ObservedCache (ν : Type*) := CacheSystem ν × CoherentStore ν

def ObservedCache.step (o : ObservedCache ν) (call : CacheCall ν) : ObservedCache ν :=
  (o.1.step call, o.2.step o.1 call)

/-- A value that comes back from JSON as it was. -/
def Survives (value : ν) : Prop := (Json.stringify value).bind Json.parse = some value

instance [DecidableEq ν] (value : ν) : Decidable (Survives value) :=
  inferInstanceAs (Decidable (_ = _))

/-- A `get` answers with the value that is stored and has not ended; for a key without a value it
finds nothing. -/
def Answers (o : ObservedCache ν) : Prop :=
  ∀ key fetcher options now again random,
    let answer := (o.1.cache.get key fetcher options now again random).1
    match o.2.stored key with
    | some (value, expiresAt) =>
      (Number.finite (now : ℕ)).lt expiresAt = true → answer = .value value
    | none => answer = if fetcher then .recomputed else .undefined

/-- What is stored survives JSON, a recomputation completes only if no caller touched its key since
it began, and the clock does not go back during a call. -/
def ObservedCache.Permits (o : ObservedCache ν) : CacheCall ν → Prop
  | .put _ value _ _ _ => Survives value
  | .get _ _ _ now again _ => now ≤ again
  | .complete i value _ _ => ∀ r ∈ o.1.running[i]?, o.2.touched r.1.key ≤ r.2 ∧ Survives value
  | _ => True

instance [DecidableEq ν] (o : ObservedCache ν) : (call : CacheCall ν) → Decidable (o.Permits call)
  | .put _ _ _ _ _ => inferInstanceAs (Decidable (Survives _))
  | .get _ _ _ _ _ _ => inferInstanceAs (Decidable (_ ≤ _))
  | .complete _ _ _ _ => inferInstanceAs (Decidable (∀ _ ∈ _, _))
  | .delete _ | .clear | .fail _ => isTrue trivial

/-! ## The two tiers of one key -/

/-- Whatever has not ended with `b` has not ended with `a`. -/
def Lasts (a b : Number) : Prop :=
  ∀ t : ℕ, (Number.finite t).lt b = true → (Number.finite t).lt a = true

/-- The tiers hold what is stored: L2 holds it for sure, and L1 nothing else. -/
def HoldsAt (l1 : Option (BroccoliTieredCacheEntry ν)) (l2 : Option CompressedEntry) :
    Option (ν × Number) → Prop
  | none => l1 = none ∧ l2 = none
  | some (value, expiresAt) =>
    (∀ e ∈ l1, e.value = value ∧ Lasts e.expiresAt expiresAt) ∧ Survives value ∧
      ∃ e, l2 = some e ∧ Json.parse e.json = some value ∧ Lasts e.expiresAt expiresAt

theorem HoldsAt.of_demoted {l1 l1' : Option (BroccoliTieredCacheEntry ν)} {l2 : Option CompressedEntry}
    {x : Option (ν × Number)} (h : HoldsAt l1 l2 x) (hl1 : l1' = l1 ∨ l1' = none) :
    HoldsAt l1' l2 x := by
  rcases hl1 with rfl | rfl
  · exact h
  · cases x with
    | none => exact ⟨rfl, h.2⟩
    | some x => exact ⟨nofun, h.2⟩

/-- The entry of L1 is read. -/
theorem HoldsAt.of_read {e : BroccoliTieredCacheEntry ν} {l2 : Option CompressedEntry}
    {x : Option (ν × Number)} (h : HoldsAt (some e) l2 x) (n : ℕ) :
    HoldsAt (some { e with readCount := n }) l2 x := by
  cases x with
  | none => exact absurd h.1 nofun
  | some x =>
    obtain ⟨hl1, hl2⟩ := h
    refine ⟨fun e' he' => ?_, hl2⟩
    obtain rfl := Option.some.inj he'
    exact hl1 e rfl

/-- The cache holds what is stored. -/
def HoldsStored (s : BroccoliTieredKvCache ν) (stored : Text → Option (ν × Number)) : Prop :=
  ∀ key, HoldsAt (s.l1Memory.get? key) (s.l2Compressed.get? key) (stored key)

namespace BroccoliTieredKvCache

variable {s : BroccoliTieredKvCache ν} {stored : Text → Option (ν × Number)}

omit [Json ν] in
theorem l1Memory_demoteOldestToL2 (s : BroccoliTieredKvCache ν) (key : Text) :
    s.demoteOldestToL2.l1Memory.get? key = s.l1Memory.get? key ∨
      s.demoteOldestToL2.l1Memory.get? key = none := by
  rw [demoteOldestToL2]
  split
  · exact .inl rfl
  · split
    · exact .inl rfl
    · dsimp only
      rw [get?_delete]
      split
      · exact .inr rfl
      · exact .inl rfl

omit [Json ν] in
theorem l2Compressed_demoteOldestToL2 (s : BroccoliTieredKvCache ν) :
    s.demoteOldestToL2.l2Compressed = s.l2Compressed := by
  rw [demoteOldestToL2]
  split
  · rfl
  · split <;> rfl

/-- **Spec lemma of `put`.**  It stores what it is given, whatever it demotes for it. -/
theorem holdsStored_put (h : HoldsStored s stored) (key : Text) {value : ν} {expiresAt : Number}
    (hvalue : Survives value) {ttlMs : Number} {now : ℕ}
    (hlasts : Lasts ((Number.finite now).add ttlMs) expiresAt) (computationTimeMs : Number) :
    HoldsStored (s.put key value ttlMs computationTimeMs now)
      (Function.update stored key (some (value, expiresAt))) := by
  obtain ⟨json, hjson, hparse⟩ := Option.bind_eq_some_iff.mp hvalue
  -- the entries of the other keys, after an entry may have been demoted
  have hroom : ∀ key', HoldsAt
      ((if (Number.finite s.l1Memory.size).ge s.maxL1Entries then s.demoteOldestToL2
        else s).l1Memory.get? key')
      ((if (Number.finite s.l1Memory.size).ge s.maxL1Entries then s.demoteOldestToL2
        else s).l2Compressed.get? key') (stored key') := by
    intro key'
    split
    · rw [l2Compressed_demoteOldestToL2]
      exact (h key').of_demoted (s.l1Memory_demoteOldestToL2 key')
    · exact h key'
  intro key'
  rw [put, hjson]
  dsimp only
  rw [get?_set, get?_set, Function.update_apply]
  split
  · refine ⟨fun e he => ?_, hvalue, _, rfl, hparse, hlasts⟩
    obtain rfl := Option.some.inj he
    exact ⟨rfl, hlasts⟩
  · exact hroom key'

theorem holdsStored_delete (h : HoldsStored s stored) (key : Text) :
    HoldsStored (s.delete key).2 (Function.update stored key none) := by
  intro key'
  rw [delete]
  dsimp only
  rw [get?_delete, get?_delete, Function.update_apply]
  split
  · exact ⟨rfl, rfl⟩
  · exact h key'

theorem holdsStored_clear (s : BroccoliTieredKvCache ν) :
    HoldsStored s.clear (fun _ => none : Text → Option (ν × Number)) :=
  fun _ => ⟨rfl, rfl⟩

/-- The answer that a `get` owes to what is stored. -/
def Owed (stored : Option (ν × Number)) (fetcher : Bool) (now : ℕ) (answer : GetResult ν) : Prop :=
  match stored with
  | some (value, expiresAt) => (Number.finite now).lt expiresAt = true → answer = .value value
  | none => answer = if fetcher then .recomputed else .undefined

theorem getBelow_spec (h : HoldsStored s stored) (key : Text) (fetcher : Bool) (options : GetOptions)
    (now again : ℕ) :
    Owed (stored key) fetcher now (s.getBelow key fetcher options now again).1 ∧
      (now ≤ again → HoldsStored (s.getBelow key fetcher options now again).2.2 stored) := by
  have hkey := h key
  rw [getBelow]
  cases hl2 : s.l2Compressed.get? key with
  | none =>
    rw [hl2] at hkey
    cases hstored : stored key with
    | none =>
      refine ⟨?_, fun _ => ?_⟩
      · cases fetcher <;> rfl
      · cases fetcher <;> exact h
    | some x =>
      rw [hstored] at hkey
      obtain ⟨-, -, e, he, -⟩ := hkey
      cases he
  | some l2Entry =>
    rw [hl2] at hkey
    cases hstored : stored key with
    | none =>
      rw [hstored] at hkey
      exact absurd hkey.2 nofun
    | some x =>
      obtain ⟨value, expiresAt⟩ := x
      rw [hstored] at hkey
      obtain ⟨-, hsurvives, e, he, hparse, hlasts⟩ := hkey
      obtain rfl := Option.some.inj he
      dsimp only
      split
      · next hlive =>
        rw [hparse]
        refine ⟨fun _ => rfl, fun hle => ?_⟩
        -- what is promoted lasts at least as long as it was stored for
        have hpromoted : Lasts ((Number.finite again).add
            (l2Entry.expiresAt.sub (.finite now))) expiresAt :=
          fun t ht => Number.lt_add_sub (Nat.cast_le.mpr hle) hlive (hlasts t ht)
        have hput := holdsStored_put (s := { s with
          counts := { s.counts with l2Hits := s.counts.l2Hits + 1 } }) h key hsurvives
          hpromoted (.finite 5)
        rwa [← hstored, Function.update_eq_self] at hput
      · next hended =>
        refine ⟨fun hlive => absurd (hlasts now hlive) hended, fun _ => ?_⟩
        cases fetcher <;> exact h

/-- **Spec lemma of `get`.** -/
theorem get_spec (h : HoldsStored s stored) (key : Text) (fetcher : Bool) (options : GetOptions)
    (now again : ℕ) (random : Float) :
    Owed (stored key) fetcher now (s.get key fetcher options now again random).1 ∧
      (now ≤ again → HoldsStored (s.get key fetcher options now again random).2.2 stored) := by
  rw [get]
  cases hl1 : s.l1Memory.get? key with
  | none => exact getBelow_spec h key fetcher options now again
  | some l1Entry =>
    have hread : HoldsStored { s with
        l1Memory := s.l1Memory.set key { l1Entry with readCount := l1Entry.readCount + 1 } }
        stored := by
      intro key'
      dsimp only
      rw [get?_set]
      split
      · next heq =>
        have hkey := h key
        rw [hl1] at hkey
        rw [heq]
        exact hkey.of_read _
      · exact h key'
    dsimp only
    split
    · next hlive =>
      rw [Number.lt_zero_sub_iff] at hlive
      have howed : Owed (stored key) fetcher now (.value l1Entry.value) := by
        have hkey := h key
        rw [hl1] at hkey
        cases hstored : stored key with
        | none =>
          rw [hstored] at hkey
          exact absurd hkey.1 nofun
        | some x =>
          rw [hstored] at hkey
          exact fun _ => congrArg GetResult.value (hkey.1 l1Entry rfl).1
      split
      · exact ⟨howed, fun _ => hread⟩
      · exact ⟨howed, fun _ => hread⟩
    · exact getBelow_spec hread key fetcher options now again

end BroccoliTieredKvCache

/-! ## Runs -/

variable {o : ObservedCache ν}

/-- **Step lemma.** -/
theorem HoldsStored.step (h : HoldsStored o.1.cache o.2.stored) {call : CacheCall ν}
    (hcall : o.Permits call) : HoldsStored (o.step call).1.cache (o.step call).2.stored := by
  cases call with
  | put key value ttlMs computationTimeMs now =>
    exact BroccoliTieredKvCache.holdsStored_put h key hcall (fun _ ht => ht) _
  | delete key => exact BroccoliTieredKvCache.holdsStored_delete h key
  | clear => exact BroccoliTieredKvCache.holdsStored_clear _
  | get key fetcher options now again random =>
    exact (BroccoliTieredKvCache.get_spec h key fetcher options now again random).2 hcall
  | complete i value now again =>
    simp only [ObservedCache.step, CacheSystem.step, CoherentStore.step]
    cases hrunning : o.1.running[i]? with
    | none => exact h
    | some r =>
      obtain ⟨hcurrent, hsurvives⟩ := hcall r hrunning
      dsimp only
      rw [if_pos hcurrent]
      exact BroccoliTieredKvCache.holdsStored_put h r.1.key hsurvives (fun _ ht => ht) _
  | fail i => exact h

theorem HoldsStored.answers (h : HoldsStored o.1.cache o.2.stored) : Answers o := by
  intro key fetcher options now again random
  have howed := (BroccoliTieredKvCache.get_spec h key fetcher options now again random).1
  cases hstored : o.2.stored key with
  | none =>
    rw [hstored] at howed
    exact howed
  | some x =>
    rw [hstored] at howed
    exact howed

/-- **The tiers are coherent** in every run in which recomputations complete only while no caller
has touched their keys since they began, and values survive JSON. -/
theorem answers_of_guarded (maxL1Entries : Number) {calls : List (CacheCall ν)}
    (hcalls : Run.Guarded ObservedCache.step ObservedCache.Permits
      (CacheSystem.new maxL1Entries, CoherentStore.empty) calls) :
    Run.Always ObservedCache.step Answers (CacheSystem.new maxL1Entries, CoherentStore.empty) calls :=
  Run.Always.mono (fun _ => HoldsStored.answers)
    (Run.always_of_guarded (P := fun o : ObservedCache ν => HoldsStored o.1.cache o.2.stored)
      (fun _ _ h hcall => h.step hcall) (fun _ => ⟨rfl, rfl⟩) hcalls)

end

section

/-- JSON of natural numbers. -/
instance : Json ℕ where
  stringify n := some (some (decimal n))
  parse json := json.bind Js.Ascii.digits?

def noOptions : GetOptions := ⟨none, none⟩

/-- An entry that is demoted and promoted again, and a recomputation of a missing one. -/
theorem answers_after_promotion :
    Run.Always ObservedCache.step Answers (CacheSystem.new (.finite 1), CoherentStore.empty)
      [.put (text "a") 1 (.finite 60) (.finite 5) 10, .put (text "b") 2 (.finite 60) (.finite 5) 11,
        .get (text "a") false noOptions 12 12 0, .get (text "c") true noOptions 13 14 0,
        .complete 0 3 20 21] :=
  answers_of_guarded (.finite 1) (by decide +kernel)

/-- A recomputation that began before the key was deleted brings it back. -/
theorem recomputation_resurrects :
    ¬Answers (Run.run ObservedCache.step (CacheSystem.new (.finite 1000), CoherentStore.empty)
      [.get (text "k") true noOptions 0 0 0, .put (text "k") 1 (.finite 60000) (.finite 5) 1,
        .delete (text "k"), .complete 0 7 2 2]) := by
  intro h
  have hdeleted := h (text "k") false noOptions 3 3 0
  change (_ : GetResult ℕ) = .undefined at hdeleted
  revert hdeleted
  decide +kernel

end

end Lumi.Substrate
