import Mathlib.Algebra.Field.Rat
import Lumi.Db.Merges

/-!
# Times to live

A table with the time at which its timers are due.  A timer fires when it is due or later; how
late, the calls decide.  Every record that expires is noted, with the last `put` of its id.

A `put` without a time to live leaves an older timer of its id running, and so the record that it
puts can be removed by it.
-/

namespace Lumi.Db

open Js Run Function

/-- The delay of `setTimeout(f, ms)`: what is below `1` or above `2³¹ - 1`, and what is no number,
becomes `1`, and fractions are cut off. -/
def timerDelay : Number → ℚ
  | .finite ms => if 1 ≤ ms ∧ ms ≤ 2147483647 then ms.floor else 1
  | _ => 1

/-- `elapsed >= ms`. -/
def hasPassed (elapsed : ℚ) (ms : Number) : Bool := Number.less? (.finite elapsed) ms = some false

/-- A `put`, as the timers see it. -/
structure TimedPut where
  time : ℚ
  ttlMs : Option Number
  deriving DecidableEq

/-- A record that expired, and the last `put` of its id. -/
structure Expiry where
  id : Text
  time : ℚ
  lastPut : Option TimedPut
  deriving DecidableEq

structure TimedTable (ρ : Type*) where
  table : DbTable ρ
  time : ℚ
  due : Text → ℚ
  lastPut : Text → Option TimedPut
  expiries : List Expiry

inductive TtlEvent (ρ : Type*)
  | put (id : Text) (record : ρ) (ttlMs : Option Number)
  | delete (id : Text)
  | clear
  | undo
  | redo
  | fire (id : Text)
  | elapse (ms : ℚ≥0)

namespace TimedTable

variable {ρ : Type*}

def new (table : DbTable ρ) : TimedTable ρ := ⟨table, 0, fun _ => 0, fun _ => none, []⟩

/-- The timer of an id can fire. -/
def CanFire (s : TimedTable ρ) (id : Text) : Prop :=
  s.table.ttlTimers.get? id = some .pending ∧ s.due id ≤ s.time

instance (s : TimedTable ρ) (id : Text) : Decidable (s.CanFire id) :=
  inferInstanceAs (Decidable (_ ∧ _))

/-- `put` arms a timer. -/
def arms : Option Number → Bool
  | some ms => ms.isPositive
  | none => false

section

variable [Record ρ] [Host]

def step (s : TimedTable ρ) : TtlEvent ρ → TimedTable ρ
  | .put id record ttlMs =>
    { s with
      table := (s.table.put id record ttlMs).2
      due := if arms ttlMs then
          Function.update s.due id (s.time + timerDelay (ttlMs.getD .nan))
        else s.due
      lastPut := Function.update s.lastPut id (some ⟨s.time, ttlMs⟩) }
  | .delete id => { s with table := (s.table.delete id).2 }
  | .clear => { s with table := s.table.clear }
  | .undo => { s with table := s.table.undo.2 }
  | .redo => { s with table := s.table.redo.2 }
  | .fire id =>
    if s.CanFire id then
      { s with
        table := s.table.expire id
        expiries := if (s.table.records.get? id).isSome then
            s.expiries ++ [⟨id, s.time, s.lastPut id⟩]
          else s.expiries }
    else s
  | .elapse ms => { s with time := s.time + ms }

end

end TimedTable

/-- The last `put` had a time to live, and that time has passed. -/
def Expiry.Outlived (e : Expiry) : Prop :=
  ∃ put ms, e.lastPut = some put ∧ put.ttlMs = some ms ∧ hasPassed (e.time - put.time) ms = true

namespace TimedTable

variable {ρ : Type*}

/-- Every record that expired had outlived its last `put`. -/
def Deserved (s : TimedTable ρ) : Prop := ∀ e ∈ s.expiries, e.Outlived

/-- The last `put` of an id had a time to live that `setTimeout` does not shorten, or that has
passed nevertheless. -/
def KeepsTtl (s : TimedTable ρ) (id : Text) : Prop :=
  ∃ put ms, s.lastPut id = some put ∧ put.ttlMs = some ms ∧
    (hasPassed (timerDelay ms) ms = true ∨ hasPassed (s.time - put.time) ms = true)

/-- A timer that fires on a record finds such a `put`. -/
def Timely (s : TimedTable ρ) : TtlEvent ρ → Prop
  | .fire id => s.CanFire id → (s.table.records.get? id).isSome → s.KeepsTtl id
  | _ => True

/-- A pending timer was armed by the last `put` that arms one, and is due after its delay. -/
structure Sound (s : TimedTable ρ) : Prop where
  past : ∀ {id put}, s.lastPut id = some put → put.time ≤ s.time
  armed : ∀ {id put ms}, s.table.ttlTimers.get? id = some .pending → s.lastPut id = some put →
    put.ttlMs = some ms → ms.isPositive = true → s.due id = put.time + timerDelay ms

theorem sound_new (name : Text) (hasWalHook : Bool) :
    (new (.init name hasWalHook) : TimedTable ρ).Sound where
  past := fun h => nomatch h
  armed := fun h => nomatch h

/-! ## Delays -/

theorem hasPassed_trans {elapsed later : ℚ} {ms : Number} (h : hasPassed elapsed ms = true)
    (hle : elapsed ≤ later) : hasPassed later ms = true := by
  cases ms with
  | finite q =>
    simp only [hasPassed, Number.less?, Option.some.injEq, decide_eq_true_eq,
      decide_eq_false_iff_not] at h ⊢
    exact fun hlt => h (lt_of_le_of_lt hle hlt)
  | _ => exact h

/-- What is not positive has passed at once, if it is a number at all. -/
theorem hasPassed_of_not_isPositive {ms : Number} (hms : ms.isPositive = false)
    (hdelay : hasPassed (timerDelay ms) ms = true) {elapsed : ℚ} (helapsed : 0 ≤ elapsed) :
    hasPassed elapsed ms = true := by
  cases ms with
  | finite q =>
    simp only [Number.isPositive, hasPassed, Number.less?, Option.some.injEq, decide_eq_true_eq,
      decide_eq_false_iff_not] at hms ⊢
    exact fun hlt => hms (lt_of_le_of_lt helapsed hlt)
  | _ => exact hdelay

/-- A timer that fires finds that the last `put` has been outlived, or was not meant. -/
theorem Sound.outlived_iff {s : TimedTable ρ} (hs : s.Sound) {id : Text} (hfire : s.CanFire id) :
    (Expiry.mk id s.time (s.lastPut id)).Outlived ↔ s.KeepsTtl id := by
  constructor
  · rintro ⟨put, ms, hput, hms, hpassed⟩
    exact ⟨put, ms, hput, hms, .inr hpassed⟩
  · rintro ⟨put, ms, hput, hms, hdelay | hpassed⟩
    · refine ⟨put, ms, hput, hms, ?_⟩
      cases hpositive : ms.isPositive with
      | true =>
        -- the timer is the one that this `put` armed
        have hdue := hs.armed hfire.1 hput hms hpositive
        have hle := hfire.2
        rw [hdue] at hle
        exact hasPassed_trans hdelay (le_sub_iff_add_le'.mpr hle)
      | false =>
        exact hasPassed_of_not_isPositive hpositive hdelay (sub_nonneg.mpr (hs.past hput))
    · exact ⟨put, ms, hput, hms, hpassed⟩

/-! ## Timers that are pending after a call -/

section

variable [Record ρ] [Host] {t : DbTable ρ} {id other : Text}

theorem ttlTimers_put (record : ρ) (ttlMs : Option Number) :
    (t.put id record ttlMs).2.ttlTimers =
      if arms ttlMs then t.ttlTimers.set id .pending else t.ttlTimers := by
  match ttlMs with
  | some ms => rfl
  | none => rfl

theorem ttlTimers_applyChange (change : Option (RecordChange ρ)) :
    (t.applyChange change).ttlTimers = t.ttlTimers := by
  match change with
  | some (.put id record) => rfl
  | some (.delete id) =>
    rw [DbTable.applyChange, DbTable.deleteInternal_frame]
  | none => rfl

theorem pending_delete (h : (t.delete id).2.ttlTimers.get? other = some .pending) :
    t.ttlTimers.get? other = some .pending := by
  rw [DbTable.delete] at h
  split at h
  · exact h
  · have hdelete : ((t.deleteInternal id).2.ttlTimers.delete id).get? other = some .pending := h
    rw [InsertionMap.get?_delete, DbTable.deleteInternal_frame] at hdelete
    split_ifs at hdelete
    exact hdelete

theorem pending_expire (hfire : t.ttlTimers.get? id = some .pending)
    (h : (t.expire id).ttlTimers.get? other = some .pending) :
    t.ttlTimers.get? other = some .pending := by
  rw [DbTable.expire, if_pos hfire] at h
  split at h
  · have hset : (t.ttlTimers.set id .fired).get? other = some .pending := h
    rw [InsertionMap.get?_set] at hset
    split_ifs at hset
    · cases hset
    · exact hset
  · have hdelete : ((t.deleteInternal id).2.ttlTimers.delete id).get? other = some .pending := h
    rw [InsertionMap.get?_delete, DbTable.deleteInternal_frame] at hdelete
    split_ifs at hdelete
    exact hdelete

/-! ## Runs -/

/-- **Step lemma.** -/
theorem Sound.step {s : TimedTable ρ} (hs : s.Sound) (event : TtlEvent ρ) :
    (s.step event).Sound := by
  -- a call that arms no timer
  have hquiet : ∀ table : DbTable ρ, (∀ other, table.ttlTimers.get? other = some .pending →
      s.table.ttlTimers.get? other = some .pending) → ({ s with table } : TimedTable ρ).Sound :=
    fun table hpending => ⟨hs.past, fun h => hs.armed (hpending _ h)⟩
  cases event with
  | put id record ttlMs =>
    refine ⟨fun {other put} hput => ?_, fun {other put ms} hpending hput hms hpositive => ?_⟩
    · have hupdate : Function.update s.lastPut id (some ⟨s.time, ttlMs⟩) other = some put := hput
      rw [update_apply] at hupdate
      split_ifs at hupdate
      · obtain rfl := Option.some.inj hupdate
        exact le_refl s.time
      · exact hs.past hupdate
    · have hupdate : Function.update s.lastPut id (some ⟨s.time, ttlMs⟩) other = some put := hput
      have htimers : (s.table.put id record ttlMs).2.ttlTimers.get? other = some .pending :=
        hpending
      show (if arms ttlMs then Function.update s.due id (s.time + timerDelay (ttlMs.getD .nan))
        else s.due) other = put.time + timerDelay ms
      rw [update_apply] at hupdate
      split_ifs at hupdate with hother
      · obtain rfl := Option.some.inj hupdate
        have hms' : ttlMs = some ms := hms
        have harms : arms ttlMs = true := by rw [hms']; exact hpositive
        rw [if_pos harms, hother, update_self, hms']
        rfl
      · have hdue : (if arms ttlMs then
            Function.update s.due id (s.time + timerDelay (ttlMs.getD .nan)) else s.due) other =
              s.due other := by
          split_ifs
          · exact update_of_ne hother _ _
          · rfl
        rw [hdue]
        refine hs.armed ?_ hupdate hms hpositive
        rw [ttlTimers_put] at htimers
        split_ifs at htimers
        · rwa [InsertionMap.get?_set_of_ne _ _ hother] at htimers
        · exact htimers
  | delete id => exact hquiet _ fun other h => pending_delete h
  | clear => exact hquiet _ fun other h => nomatch h
  | undo => exact hquiet _ fun other h => by rwa [DbTable.undo, ttlTimers_applyChange] at h
  | redo => exact hquiet _ fun other h => by rwa [DbTable.redo, ttlTimers_applyChange] at h
  | fire id =>
    rw [TimedTable.step]
    split_ifs with hfire
    · exact ⟨hs.past, fun h => hs.armed (pending_expire hfire.1 h)⟩
    · exact ⟨hs.past, fun h => hs.armed (pending_expire hfire.1 h)⟩
    · exact hs
  | elapse ms =>
    exact ⟨fun hput => (hs.past hput).trans (le_add_of_nonneg_right ms.2), hs.armed⟩

/-- **Step lemma.**  What one step needs. -/
theorem deserved_step_iff {s : TimedTable ρ} (hs : s.Sound) (hd : s.Deserved) (event : TtlEvent ρ) :
    (s.step event).Deserved ↔ s.Timely event := by
  have hsame : (s.step event).expiries = s.expiries → ((s.step event).Deserved ↔ True) := fun h =>
    iff_true_intro fun e he => hd e (h ▸ he)
  cases event with
  | fire id =>
    by_cases hfire : s.CanFire id
    · by_cases hrecord : (s.table.records.get? id).isSome
      · have hexpiries : (s.step (.fire id)).expiries =
            s.expiries ++ [⟨id, s.time, s.lastPut id⟩] := by
          rw [TimedTable.step, if_pos hfire]
          exact if_pos hrecord
        have hlast : (s.step (.fire id)).Deserved ↔
            (Expiry.mk id s.time (s.lastPut id)).Outlived := by
          rw [Deserved, hexpiries]
          constructor
          · exact fun h => h _ (List.mem_append_right _ List.mem_cons_self)
          · intro h e he
            rcases List.mem_append.mp he with he | he
            · exact hd e he
            · rwa [List.mem_singleton.mp he]
        rw [hlast, hs.outlived_iff hfire]
        exact ⟨fun h _ _ => h, fun h => h hfire hrecord⟩
      · have hexpiries : (s.step (.fire id)).expiries = s.expiries := by
          rw [TimedTable.step, if_pos hfire]
          exact if_neg hrecord
        rw [hsame hexpiries]
        exact ⟨fun _ _ h => absurd h hrecord, fun _ => trivial⟩
    · have hexpiries : (s.step (.fire id)).expiries = s.expiries := by
        rw [TimedTable.step, if_neg hfire]
      rw [hsame hexpiries]
      exact ⟨fun _ h => absurd h hfire, fun _ => trivial⟩
  | put id record ttlMs => exact hsame rfl
  | delete id => exact hsame rfl
  | clear => exact hsame rfl
  | undo => exact hsame rfl
  | redo => exact hsame rfl
  | elapse ms => exact hsame rfl

/-- **Expiry removes only what has outlived its last `put`, if and only if every timer that fires
on a record finds that its last `put` had a time to live that `setTimeout` keeps, or that has
passed.** -/
theorem deserved_iff_timely (name : Text) (hasWalHook : Bool) (events : List (TtlEvent ρ)) :
    Always step Deserved (new (.init name hasWalHook)) events ↔
      Guarded step Timely (new (.init name hasWalHook)) events := by
  have hkeep : ∀ (s : TimedTable ρ) (event : TtlEvent ρ), s.Sound ∧ s.Deserved → True →
      s.Timely event → (s.step event).Sound ∧ (s.step event).Deserved := by
    intro s event h _ htimely
    exact ⟨h.1.step event, (deserved_step_iff h.1 h.2 event).mpr htimely⟩
  have hbreak : ∀ (s : TimedTable ρ) (event : TtlEvent ρ), s.Sound ∧ s.Deserved → True →
      ¬s.Timely event → ¬(s.step event).Deserved := by
    intro s event h _ hnot hdeserved
    exact hnot ((deserved_step_iff h.1 h.2 event).mp hdeserved)
  exact always_iff_guarded_of_invariant (fun s h => h.2) hkeep hbreak
    ⟨sound_new name hasWalHook, fun _ h => absurd h List.not_mem_nil⟩
    (guarded_of_forall_mem fun _ _ _ => trivial)

end

section

open scoped Js.Ascii

/-- A record is put for a tenth of a second, and at half that time for good. -/
def putForGood : List (TtlEvent PlainRecord) :=
  [.put (text "a") (task "draft") (some (.finite 100)), .elapse 50,
    .put (text "a") (task "final") none, .elapse 50, .fire (text "a")]

theorem stale_timer_removes_record :
    (run step (new (.init (text "tasks") false)) putForGood).expiries =
        [⟨text "a", 100, some ⟨50, none⟩⟩] ∧
      (run step (new (.init (text "tasks") false)) putForGood).table.records.get? (text "a")
        = none ∧
      ¬Always step Deserved (new (.init (text "tasks") false)) putForGood := by
  have hexpiries : (run step (new (.init (text "tasks") false)) putForGood).expiries =
      [⟨text "a", 100, some ⟨50, none⟩⟩] := by decide +kernel
  refine ⟨hexpiries, by decide +kernel, fun halways => ?_⟩
  have hlast := always_iff_forall_split.mp halways putForGood [] (List.append_nil _).symm
  obtain ⟨put, ms, hput, hms, -⟩ := hlast _ (hexpiries ▸ List.mem_cons_self)
  obtain rfl := Option.some.inj hput
  cases hms

end

end TimedTable

end Lumi.Db
