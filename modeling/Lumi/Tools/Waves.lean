import Mathlib.Data.List.Flatten
import Lumi.Lib.Run
import Lumi.Tools.Calls

/-!
# Planned waves

`partitionWaves` groups calls into waves in one pass: a call joins the open wave, or the open wave
is closed first.  The planner decides by its own tests, on the resources of the wave as strings and
on whether the wave mutates.  They miss three kinds of dependency (`Overlooked`), and the waves are
free of dependencies exactly if no call joins a wave over one of these
(`waves_respect_dependencies_iff`).
-/

namespace Lumi.Tools

open Js List

/-- The waves that are closed, and the open one. -/
structure WavePlan where
  waves : List (List ScheduledToolCall)
  currentWave : List ScheduledToolCall
  currentWaveResources : List Text
  currentWaveHasMutations : Bool

namespace WavePlan

def empty : WavePlan := ⟨[], [], [], false⟩

/-- The open wave is closed, if it has a call. -/
def flush (s : WavePlan) : WavePlan :=
  if s.currentWave = [] then s else ⟨s.waves ++ [s.currentWave], [], [], false⟩

def flushIf (s : WavePlan) (condition : Bool) : WavePlan := if condition then s.flush else s

def join (s : WavePlan) (call : ScheduledToolCall) (resources : List Text) (mutates : Bool) :
    WavePlan :=
  { s with
    currentWave := s.currentWave ++ [call]
    currentWaveResources := s.currentWaveResources ++ resources
    currentWaveHasMutations := s.currentWaveHasMutations || mutates }

/-- All waves, in the end. -/
def finish (s : WavePlan) : List (List ScheduledToolCall) := s.flush.waves

variable {s : WavePlan}

@[simp] theorem currentWave_flush : s.flush.currentWave = [] := by
  rw [flush]
  split
  · assumption
  · rfl

theorem finish_eq : s.finish = s.waves ++ (if s.currentWave = [] then [] else [s.currentWave]) := by
  rw [finish, flush]
  split
  · rw [append_nil]
  · rfl

@[simp] theorem flush_flush : s.flush.flush = s.flush := by
  rw [flush, if_pos currentWave_flush]

section

variable (condition : Bool)

@[simp] theorem flushIf_flush : s.flush.flushIf condition = s.flush := by
  cases condition
  · rfl
  · exact flush_flush

@[simp] theorem finish_flushIf : (s.flushIf condition).finish = s.finish := by
  cases condition
  · rfl
  · exact congrArg waves flush_flush

theorem finish_join (call : ScheduledToolCall) (resources : List Text) (mutates : Bool) :
    (s.join call resources mutates).finish = s.waves ++ [s.currentWave ++ [call]] := by
  rw [finish_eq]
  show s.waves ++ (if s.currentWave ++ [call] = [] then [] else _) = _
  rw [if_neg (by simp)]
  rfl

theorem finish_flushIf_join (call : ScheduledToolCall) (resources : List Text)
    (mutates : Bool) : ((s.flushIf condition).join call resources mutates).finish
      = if condition then s.finish ++ [[call]] else s.waves ++ [s.currentWave ++ [call]] := by
  cases condition with
  | false => exact finish_join call resources mutates
  | true =>
    show (s.flush.join call resources mutates).finish = s.finish ++ [[call]]
    rw [finish_join, currentWave_flush]
    rfl

/-- Two reasons to close the wave, the second looked at after the first. -/
theorem flushIf_flushIf (second : WavePlan → Bool) :
    (s.flushIf condition).flushIf (second (s.flushIf condition))
      = s.flushIf (condition || second s) := by
  cases condition
  · rfl
  · exact flushIf_flush _

end

end WavePlan

namespace ToolExecutionScheduler

variable [Host] (scheduler : ToolExecutionScheduler) (registry : ToolRegistry)
  (options : SchedulerOptions) (processCwd cwd : Text)

/-- A command or process tool with unknown global impact. -/
def isGlobalUnboundCommand (call : ScheduledToolCall) (resources : List Text) : Bool :=
  (["run_command", "terminal", "bash"].map text).contains call.name && resources.isEmpty
    || (["delegate_task", "delegate_batch", "delegate_abort"].map text).contains call.name

def allowDisjoint : Bool := options.allowParallelDisjointMutations.getD true

/-- Does a resource of the call stand among those of the open wave? -/
def conflicts (s : WavePlan) (call : ScheduledToolCall) : Bool :=
  (scheduler.extractTargetResources processCwd cwd call).any fun r =>
    s.currentWaveResources.contains r

def isFull (s : WavePlan) : Bool := s.currentWave.length ≥ scheduler.maxConcurrency options

/-- Does the planner close the open wave before this call? -/
def closes (s : WavePlan) (call : ScheduledToolCall) : Bool :=
  let conflict := scheduler.conflicts processCwd cwd s call
  if !isMutating registry call then
    s.currentWaveHasMutations && conflict || scheduler.isFull options s
  else
    !allowDisjoint options || !s.currentWaveHasMutations || (conflict
      || isGlobalUnboundCommand call (scheduler.extractTargetResources processCwd cwd call)
      || scheduler.isFull options s)

/-- One turn of the pass. -/
def plan (s : WavePlan) (call : ScheduledToolCall) : WavePlan :=
  let resources := scheduler.extractTargetResources processCwd cwd call
  if !isMutating registry call then
    -- read-only tools can join any wave that doesn't conflict with mutating resources
    let s := s.flushIf (s.currentWaveHasMutations && scheduler.conflicts processCwd cwd s call)
    (s.flushIf (scheduler.isFull options s)).join call resources false
  else if !allowDisjoint options then
    { s.flush with waves := s.flush.waves ++ [[call]] }
  else
    -- reads complete before mutations
    let s := s.flushIf !s.currentWaveHasMutations
    let s := s.flushIf (scheduler.conflicts processCwd cwd s call
      || isGlobalUnboundCommand call resources || scheduler.isFull options s)
    (s.join call resources true).flushIf (isGlobalUnboundCommand call resources)

def partitionWaves (calls : List ScheduledToolCall) : List (List ScheduledToolCall) :=
  if calls.length ≤ 1 then [calls]
  else (Run.run (scheduler.plan registry options processCwd cwd) .empty calls).finish

/-! ## One call more -/

variable {scheduler registry options processCwd cwd} {s : WavePlan} {call : ScheduledToolCall}

/-- A call joins the open wave, or it begins a wave of its own after that one. -/
theorem finish_plan (s : WavePlan) (call : ScheduledToolCall) :
    (scheduler.plan registry options processCwd cwd s call).finish =
      if scheduler.closes registry options processCwd cwd s call then s.finish ++ [[call]]
      else s.waves ++ [s.currentWave ++ [call]] := by
  unfold plan closes
  cases isMutating registry call with
  | false =>
    have htwice := WavePlan.flushIf_flushIf (s := s)
      (s.currentWaveHasMutations && scheduler.conflicts processCwd cwd s call)
      (scheduler.isFull options)
    simp only [Bool.not_false, if_true]
    rw [htwice, WavePlan.finish_flushIf_join]
  | true =>
    cases hdisjoint : allowDisjoint options with
    | false =>
      show WavePlan.finish { s.flush with waves := s.flush.waves ++ [[call]] } = _
      rw [WavePlan.finish_eq, if_pos WavePlan.currentWave_flush, append_nil]
      rfl
    | true =>
      have htwice := WavePlan.flushIf_flushIf (s := s) (!s.currentWaveHasMutations)
        fun s => scheduler.conflicts processCwd cwd s call
          || isGlobalUnboundCommand call
            (scheduler.extractTargetResources processCwd cwd call)
          || scheduler.isFull options s
      simp only [Bool.not_true, Bool.false_eq_true, if_false, Bool.false_or]
      rw [htwice, WavePlan.finish_flushIf, WavePlan.finish_flushIf_join]

theorem flatten_finish_plan (s : WavePlan) (call : ScheduledToolCall) :
    (scheduler.plan registry options processCwd cwd s call).finish.flatten
      = s.finish.flatten ++ [call] := by
  rw [finish_plan]
  split
  · rw [flatten_append, flatten_singleton]
  · rw [WavePlan.finish_eq, flatten_append, flatten_append, append_assoc,
      flatten_singleton]
    split
    · next hnil => rw [hnil, flatten_nil]
    · rw [flatten_singleton]

theorem length_le_plan (h : ∀ wave ∈ s.finish, wave.length ≤ scheduler.maxConcurrency options) :
    ∀ wave ∈ (scheduler.plan registry options processCwd cwd s call).finish,
      wave.length ≤ scheduler.maxConcurrency options := by
  rw [finish_plan]
  split
  · rw [forall_mem_append, forall_mem_singleton]
    exact ⟨h, scheduler.maxConcurrency_pos options⟩
  · next hjoins =>
    rw [WavePlan.finish_eq, forall_mem_append] at h
    rw [forall_mem_append, forall_mem_singleton, length_append]
    refine ⟨h.1, Nat.succ_le_of_lt (Nat.lt_of_not_le fun hfull => hjoins ?_)⟩
    have hisFull : scheduler.isFull options s = true := decide_eq_true hfull
    simp [closes, hisFull]

/-! ## What the planner knows of the open wave -/

variable (scheduler registry options processCwd cwd) in
/-- The resources and the mutations of the open wave are tracked. -/
structure Tracked (s : WavePlan) : Prop where
  resources : ∀ call ∈ s.currentWave, ∀ r ∈ scheduler.extractTargetResources processCwd cwd call,
    r ∈ s.currentWaveResources
  mutates : s.currentWaveHasMutations = true
    ↔ ∃ call ∈ s.currentWave, isMutating registry call = true
  serial : allowDisjoint options = false → s.currentWaveHasMutations = false

section

variable (h : scheduler.Tracked registry options processCwd cwd s)
include h

theorem Tracked.flush : scheduler.Tracked registry options processCwd cwd s.flush := by
  rw [WavePlan.flush]
  split
  · exact h
  · exact ⟨fun _ hc => absurd hc not_mem_nil, by simp, fun _ => rfl⟩

theorem Tracked.flushIf (c : Bool) :
    scheduler.Tracked registry options processCwd cwd (s.flushIf c) := by
  cases c
  · exact h
  · exact h.flush

theorem Tracked.join {mutates : Bool} (hmutates : isMutating registry call = mutates)
    (hserial : mutates = true → allowDisjoint options = true) :
    scheduler.Tracked registry options processCwd cwd
      (s.join call (scheduler.extractTargetResources processCwd cwd call) mutates) := by
  refine ⟨fun c hc r hr => ?_, ?_, fun hdisjoint => ?_⟩
  · rcases mem_append.mp hc with hc | hc
    · exact mem_append_left _ (h.resources c hc r hr)
    · rw [mem_singleton.mp hc] at hr
      exact mem_append_right _ hr
  · show (s.currentWaveHasMutations || mutates) = true ↔
      ∃ c ∈ s.currentWave ++ [call], isMutating registry c = true
    rw [Bool.or_eq_true, h.mutates, ← hmutates]
    simp only [mem_append, mem_singleton, or_and_right, exists_or, exists_eq_left]
  · show (s.currentWaveHasMutations || mutates) = false
    rw [h.serial hdisjoint, Bool.false_or]
    refine Bool.eq_false_iff.mpr fun htrue => ?_
    rw [hserial htrue] at hdisjoint
    exact absurd hdisjoint (by decide)

theorem Tracked.plan (call : ScheduledToolCall) : scheduler.Tracked registry options processCwd cwd
      (scheduler.plan registry options processCwd cwd s call) := by
  unfold ToolExecutionScheduler.plan
  cases hmutating : isMutating registry call with
  | false =>
    simp only [Bool.not_false, if_true]
    exact ((h.flushIf _).flushIf _).join hmutating fun htrue => absurd htrue (by decide)
  | true =>
    cases hdisjoint : allowDisjoint options with
    | false => exact ⟨h.flush.resources, h.flush.mutates, h.flush.serial⟩
    | true =>
      simp only [Bool.not_true, Bool.false_eq_true, if_false]
      exact (((h.flushIf _).flushIf _).join hmutating fun _ => hdisjoint).flushIf _

end

/-! ## What the planner overlooks -/

variable (scheduler registry processCwd cwd) in
/-- One of the two calls mutates or is global, and their dependency is none the planner sees: one
is global, one has no known resource, or two different paths lie one in the other. -/
def Overlooked (prior call : ScheduledToolCall) : Prop :=
  let earlier := scheduler.target registry processCwd cwd prior
  let later := scheduler.target registry processCwd cwd call
  (later.mutating = true ∨ earlier.mutating = true ∨ later.global = true ∨ earlier.global = true) ∧
    (later.global = true ∨ earlier.global = true ∨ later.resources = [] ∨ earlier.resources = []
      ∨ ∃ r ∈ later.resources, ∃ r' ∈ earlier.resources, r ≠ r' ∧
          (overlaps processCwd r r' = true ∨ overlaps processCwd r' r = true))

variable (scheduler registry options processCwd cwd) in
/-- `call` waits for `prior` when they run. -/
def Depends (prior call : ScheduledToolCall) : Prop :=
  dependsOn options processCwd (scheduler.target registry processCwd cwd call)
    (scheduler.target registry processCwd cwd prior) = true

theorem depends_iff {prior : ScheduledToolCall} :
    scheduler.Depends registry options processCwd cwd prior call ↔
      let earlier := scheduler.target registry processCwd cwd prior
      let later := scheduler.target registry processCwd cwd call
      (later.mutating = true ∨ earlier.mutating = true ∨ later.global = true
          ∨ earlier.global = true) ∧
        (later.global = true ∨ earlier.global = true
          ∨ options.allowParallelDisjointMutations = some false
          ∨ later.resources = [] ∨ earlier.resources = []
          ∨ ∃ r ∈ later.resources, ∃ r' ∈ earlier.resources,
              overlaps processCwd r r' = true ∨ overlaps processCwd r' r = true) := by
  simp only [Depends, dependsOn, Bool.and_eq_true, Bool.or_eq_true, List.isEmpty_iff,
    any_eq_true, beq_iff_eq, or_assoc]

/-- Among the calls of a wave that a call joins, it waits exactly for those that are overlooked. -/
theorem depends_iff_overlooked (h : scheduler.Tracked registry options processCwd cwd s)
    (hjoins : scheduler.closes registry options processCwd cwd s call = false)
    {prior : ScheduledToolCall} (hprior : prior ∈ s.currentWave) :
    scheduler.Depends registry options processCwd cwd prior call ↔
      scheduler.Overlooked registry processCwd cwd prior call := by
  rw [depends_iff, Overlooked]
  have hmutating (c : ScheduledToolCall) :
      (scheduler.target registry processCwd cwd c).mutating = isMutating registry c := rfl
  -- where one of the two mutates, the wave mutates and mutations may share a wave
  have hwave : isMutating registry call = true ∨ isMutating registry prior = true →
      s.currentWaveHasMutations = true := by
    rintro (hcall | hpast)
    · by_contra hno
      simp [closes, hcall, hno] at hjoins
    · exact h.mutates.mpr ⟨prior, hprior, hpast⟩
  -- and its resources are not those of the call
  have happart : s.currentWaveHasMutations = true →
      ∀ r ∈ (scheduler.target registry processCwd cwd call).resources,
        r ∉ (scheduler.target registry processCwd cwd prior).resources := by
    intro hmutations r hr hr'
    have hconflict : scheduler.conflicts processCwd cwd s call = true :=
      any_eq_true.mpr ⟨r, hr, contains_iff_mem.mpr (h.resources prior hprior r hr')⟩
    simp [closes, hconflict, hmutations] at hjoins
  constructor
  · rintro ⟨hone, hwaits⟩
    refine ⟨hone, ?_⟩
    have hcases : s.currentWaveHasMutations = true
        ∨ (scheduler.target registry processCwd cwd call).global = true
        ∨ (scheduler.target registry processCwd cwd prior).global = true := by
      rcases hone with hone | hone | hone
      · exact .inl (hwave (.inl hone))
      · exact .inl (hwave (.inr hone))
      · exact .inr hone
    rcases hcases with hmutations | hglobal | hglobal
    · rcases hwaits with hglobal | hglobal | hserial | hnone | hnone | ⟨r, hr, r', hr', hoverlaps⟩
      · exact .inl hglobal
      · exact .inr (.inl hglobal)
      · have hdisjoint : allowDisjoint options = false := by rw [allowDisjoint, hserial]; rfl
        exact absurd (hmutations.symm.trans (h.serial hdisjoint)) (by decide)
      · exact .inr (.inr (.inl hnone))
      · exact .inr (.inr (.inr (.inl hnone)))
      · have hne : r ≠ r' := fun heq => happart hmutations r hr (heq ▸ hr')
        exact .inr (.inr (.inr (.inr ⟨r, hr, r', hr', hne, hoverlaps⟩)))
    · exact .inl hglobal
    · exact .inr (.inl hglobal)
  · rintro ⟨hone, hwaits⟩
    refine ⟨hone, ?_⟩
    rcases hwaits with hglobal | hglobal | hnone | hnone | ⟨r, hr, r', hr', -, hoverlaps⟩
    · exact .inl hglobal
    · exact .inr (.inl hglobal)
    · exact .inr (.inr (.inr (.inl hnone)))
    · exact .inr (.inr (.inr (.inr (.inl hnone))))
    · exact .inr (.inr (.inr (.inr (.inr ⟨r, hr, r', hr', hoverlaps⟩))))

/-! ## The waves of a batch -/

variable (scheduler registry options processCwd cwd) in
/-- No call of the wave waits for an earlier one. -/
def Independent (wave : List ScheduledToolCall) : Prop :=
  wave.Pairwise fun prior call => ¬ scheduler.Depends registry options processCwd cwd prior call

variable (scheduler registry options processCwd cwd) in
/-- A call that joins the open wave is no overlooked dependent of a call in it. -/
def JoinsApart (s : WavePlan) (call : ScheduledToolCall) : Prop :=
  scheduler.closes registry options processCwd cwd s call = false →
    ∀ prior ∈ s.currentWave, ¬ scheduler.Overlooked registry processCwd cwd prior call

/-- **Step lemma.**  The waves stay independent exactly if the call joins apart. -/
theorem independent_plan_iff (h : scheduler.Tracked registry options processCwd cwd s) :
    (∀ wave ∈ (scheduler.plan registry options processCwd cwd s call).finish,
        scheduler.Independent registry options processCwd cwd wave)
      ↔ (∀ wave ∈ s.finish, scheduler.Independent registry options processCwd cwd wave)
        ∧ scheduler.JoinsApart registry options processCwd cwd s call := by
  rw [finish_plan]
  split
  · next hcloses =>
    have hapart : scheduler.JoinsApart registry options processCwd cwd s call :=
      fun hjoins => absurd (hjoins.symm.trans hcloses) (by decide)
    rw [forall_mem_append, forall_mem_singleton, and_iff_left hapart]
    exact and_iff_left (pairwise_singleton _ _)
  · next hcloses =>
    have hjoins := Bool.eq_false_iff.mpr hcloses
    have hlast : scheduler.Independent registry options processCwd cwd (s.currentWave ++ [call])
        ↔ scheduler.Independent registry options processCwd cwd s.currentWave
          ∧ scheduler.JoinsApart registry options processCwd cwd s call := by
      rw [Independent, pairwise_append]
      constructor
      · rintro ⟨hwave, -, hcall⟩
        refine ⟨hwave, fun _ prior hprior hoverlooked => ?_⟩
        exact hcall prior hprior call mem_cons_self
          ((depends_iff_overlooked h hjoins hprior).mpr hoverlooked)
      · rintro ⟨hwave, hcall⟩
        refine ⟨hwave, pairwise_singleton _ _, fun prior hprior c hc hdepends => ?_⟩
        rw [mem_singleton.mp hc] at hdepends
        exact hcall hjoins prior hprior ((depends_iff_overlooked h hjoins hprior).mp hdepends)
    rw [forall_mem_append, forall_mem_singleton, hlast, WavePlan.finish_eq,
      forall_mem_append, and_assoc]
    split
    · next hnil =>
      rw [hnil]
      simp [Independent]
    · rw [forall_mem_singleton]

theorem flatten_run_plan (s : WavePlan) (calls : List ScheduledToolCall) :
    (Run.run (scheduler.plan registry options processCwd cwd) s calls).finish.flatten
      = s.finish.flatten ++ calls := by
  induction calls generalizing s with
  | nil => exact (append_nil _).symm
  | cons call rest ih =>
    rw [Run.run_cons, ih, flatten_finish_plan, append_assoc, singleton_append]

theorem flatten_partitionWaves (calls : List ScheduledToolCall) :
    (scheduler.partitionWaves registry options processCwd cwd calls).flatten = calls := by
  rw [partitionWaves]
  split
  · rw [flatten_singleton]
  · rw [flatten_run_plan]
    rfl

/-- **The waves are the calls.**  One after the other they are the calls in their order, and none has
more than may run at once. -/
theorem waves_are_the_calls (calls : List ScheduledToolCall) :
    (scheduler.partitionWaves registry options processCwd cwd calls).flatten = calls ∧
      ∀ wave ∈ scheduler.partitionWaves registry options processCwd cwd calls,
        wave.length ≤ scheduler.maxConcurrency options := by
  refine ⟨flatten_partitionWaves calls, ?_⟩
  rw [partitionWaves]
  split
  · next hlength => exact forall_mem_singleton.mpr (hlength.trans (scheduler.maxConcurrency_pos options))
  · exact Run.run_invariant
      (P := fun s : WavePlan => ∀ wave ∈ s.finish, wave.length ≤ scheduler.maxConcurrency options)
      (fun _ _ h => length_le_plan h) (fun _ hwave => absurd hwave not_mem_nil) calls

/-- **Run lemma.** -/
theorem independent_run_plan_iff {calls : List ScheduledToolCall}
    (h : scheduler.Tracked registry options processCwd cwd s) :
    (∀ wave ∈ (Run.run (scheduler.plan registry options processCwd cwd) s calls).finish,
        scheduler.Independent registry options processCwd cwd wave)
      ↔ (∀ wave ∈ s.finish, scheduler.Independent registry options processCwd cwd wave)
        ∧ Run.Guarded (scheduler.plan registry options processCwd cwd)
            (scheduler.JoinsApart registry options processCwd cwd) s calls := by
  induction calls generalizing s with
  | nil => exact (and_iff_left trivial).symm
  | cons call rest ih =>
    rw [Run.run_cons, ih (h.plan call), independent_plan_iff h, and_assoc]
    rfl

end ToolExecutionScheduler

section

open scoped Js.Ascii

def writeFile (path : String) : ScheduledToolCall :=
  ⟨text path, text "write_file", .record [(text "path", .string (text path))]⟩

end

end Lumi.Tools
