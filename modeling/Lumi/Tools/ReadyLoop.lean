import Mathlib.Data.List.Nodup
import Mathlib.Data.List.Perm.Subperm
import Lumi.Lib.Run

/-!
# The loop of ready calls

`executeReadyCalls` is an async generator.  Each time its consumer asks for a record it starts the
calls whose dependencies are completed, as far as the concurrency allows, and then waits for one of
the active runs; it yields the record of that call and is suspended until it is asked again.

The calls are their indices here, and of a run only its end is seen, with the record it gives: a
run does not reject.  Runs end in any order and at any time, also while the generator is suspended,
and of several that have ended the race may give any.  A consumer may also close the generator,
which then launches nothing more.  Every event runs to its end before the next one.
-/

open List

namespace Lumi.Tools
/-- What happens to the calls, in the order in which it happens. -/
inductive TraceEvent
  | started (index : ℕ)
  | finished (index : ℕ)
  deriving DecidableEq

inductive Phase
  | suspended
  | racing
  | done
  | closed
  deriving DecidableEq

/-- The state of the loop.  A run that has ended is `finished` until the race gives it. -/
structure ReadyLoop (ρ : Type*) where
  pending : List ℕ
  active : List ℕ
  finished : List (ℕ × ρ)
  completed : List ℕ
  phase : Phase
  trace : List TraceEvent
  yielded : List (ℕ × ρ)

inductive LoopEvent (ρ : Type*)
  /-- the consumer asks for the next record -/
  | next
  /-- the run of an active call ends -/
  | settle (index : ℕ) (record : ρ)
  /-- the race gives a call whose run has ended -/
  | take (index : ℕ)
  /-- the consumer closes the generator -/
  | close

namespace ReadyLoop

variable {ρ : Type*} (dependencies : ℕ → List ℕ) (maxConcurrency : ℕ)

def new (count : ℕ) : ReadyLoop ρ := ⟨List.range count, [], [], [], .suspended, [], []⟩

section

variable (s : ReadyLoop ρ)

/-- A pending call is started, if there is room and nothing it waits for is missing. -/
def launch (index : ℕ) : ReadyLoop ρ :=
  if s.active.length < maxConcurrency ∧ ∀ dependency ∈ dependencies index, dependency ∈ s.completed
  then { s with
    pending := s.pending.erase index
    active := s.active ++ [index]
    trace := s.trace ++ [.started index] }
  else s

/-- All pending calls, in their order. -/
def launchReady : ReadyLoop ρ :=
  s.pending.foldl (launch dependencies maxConcurrency) s

def step : LoopEvent ρ → ReadyLoop ρ
  | .next =>
    if s.phase = .suspended then
      if s.pending = [] ∧ s.active = [] then { s with phase := .done }
      else { launchReady dependencies maxConcurrency s with phase := .racing }
    else s
  | .settle index record =>
    if index ∈ s.active ∧ index ∉ s.finished.map Prod.fst then
      { s with
        finished := s.finished ++ [(index, record)]
        trace := s.trace ++ [.finished index] }
    else s
  | .take index =>
    match s.finished.lookup index with
    | some record =>
      if s.phase = .racing then
        { s with
          active := s.active.erase index
          finished := s.finished.filter fun entry => entry.1 ≠ index
          completed := s.completed ++ [index]
          phase := .suspended
          yielded := s.yielded ++ [(index, record)] }
      else s
    | none => s
  | .close => if s.phase = .suspended then { s with phase := .closed } else s

/-- Can the event happen in this state? -/
def Enabled : LoopEvent ρ → Prop
  | .next => s.phase = .suspended
  | .settle index _ => index ∈ s.active ∧ index ∉ s.finished.map Prod.fst
  | .take index => index ∈ s.finished.map Prod.fst ∧ s.phase = .racing
  | .close => s.phase = .suspended

end

section

variable (trace : List TraceEvent)

/-- The calls that were started, in their order. -/
def startedOf : List ℕ :=
  trace.filterMap fun | .started index => some index | .finished _ => none

/-- The calls that were finished, in their order. -/
def finishedOf : List ℕ :=
  trace.filterMap fun | .started _ => none | .finished index => some index

/-- Everything a call waits for has finished before the call starts. -/
def Ordered : Prop :=
  ∀ before index after, trace = before ++ .started index :: after →
    ∀ dependency ∈ dependencies index, .finished dependency ∈ before

end

variable {dependencies maxConcurrency}

theorem startedOf_append (first second : List TraceEvent) :
    startedOf (first ++ second) = startedOf first ++ startedOf second := filterMap_append

theorem finishedOf_append (first second : List TraceEvent) :
    finishedOf (first ++ second) = finishedOf first ++ finishedOf second := filterMap_append

variable {trace : List TraceEvent}

theorem mem_startedOf {index : ℕ} : index ∈ startedOf trace ↔ .started index ∈ trace := by
  rw [startedOf, mem_filterMap]
  constructor
  · rintro ⟨event, hevent, heq⟩
    cases event with
    | started i => exact Option.some.inj heq ▸ hevent
    | finished i => cases heq
  · exact fun h => ⟨_, h, rfl⟩

theorem mem_finishedOf {index : ℕ} : index ∈ finishedOf trace ↔ .finished index ∈ trace := by
  rw [finishedOf, mem_filterMap]
  constructor
  · rintro ⟨event, hevent, heq⟩
    cases event with
    | started i => cases heq
    | finished i => exact Option.some.inj heq ▸ hevent
  · exact fun h => ⟨_, h, rfl⟩

theorem Ordered.concat (h : Ordered dependencies trace) {event : TraceEvent}
    (hevent : ∀ index, event = .started index →
      ∀ dependency ∈ dependencies index, .finished dependency ∈ trace) :
    Ordered dependencies (trace ++ [event]) := by
  intro before index after heq dependency hdependency
  rcases eq_nil_or_concat after with rfl | ⟨after, last, rfl⟩
  · obtain ⟨rfl, hlast⟩ := append_inj' heq rfl
    exact hevent index (singleton_inj.mp hlast) dependency hdependency
  · rw [concat_eq_append, ← cons_append, ← append_assoc] at heq
    exact h before index after (append_inj' heq rfl).1 dependency hdependency

/-! ## What the loop keeps -/

variable (dependencies maxConcurrency) in
/-- Each call is pending, active or completed, and the trace says which. -/
structure Steady (count : ℕ) (s : ReadyLoop ρ) : Prop where
  sorted : s.pending.Pairwise (· < ·)
  split : (s.pending ++ s.active ++ s.completed).Perm (List.range count)
  active_le : s.active.length ≤ maxConcurrency
  finished_nodup : (s.finished.map Prod.fst).Nodup
  finished_active : s.finished.map Prod.fst ⊆ s.active
  started : (startedOf s.trace).Perm (s.active ++ s.completed)
  ended : (finishedOf s.trace).Perm (s.finished.map Prod.fst ++ s.completed)
  ordered : Ordered dependencies s.trace
  yields : s.yielded.map Prod.fst = s.completed

variable {count : ℕ} {s : ReadyLoop ρ} {index : ℕ}

theorem Steady.nodup (h : s.Steady dependencies maxConcurrency count) :
    (s.pending ++ s.active ++ s.completed).Nodup := h.split.nodup_iff.mpr nodup_range

theorem Steady.launch (h : s.Steady dependencies maxConcurrency count)
    (hindex : index ∈ s.pending) :
    (s.launch dependencies maxConcurrency index).Steady dependencies maxConcurrency count := by
  rw [ReadyLoop.launch]
  split
  · next hlaunch =>
    obtain ⟨hroom, hready⟩ := hlaunch
    refine ⟨h.sorted.sublist erase_sublist, ?_, ?_, h.finished_nodup,
      fun i hi => mem_append_left _ (h.finished_active hi), ?_, ?_,
      h.ordered.concat fun i heq => ?_, h.yields⟩
    · refine List.Perm.trans (List.Perm.append_right _ ?_) h.split
      have hmoved := ((perm_cons_erase hindex).append_right s.active).symm
      refine List.Perm.trans ?_ hmoved
      show (s.pending.erase index ++ (s.active ++ [index])).Perm
        ((index :: s.pending.erase index) ++ s.active)
      rw [← append_assoc]
      exact perm_append_singleton index _
    · show (s.active ++ [index]).length ≤ _
      rw [length_append]
      exact hroom
    · show (startedOf (s.trace ++ [.started index])).Perm (s.active ++ [index] ++ s.completed)
      rw [startedOf_append]
      refine (h.started.append_right _).trans ?_
      rw [append_assoc, append_assoc]
      exact perm_append_comm.append_left _
    · show (finishedOf (s.trace ++ [.started index])).Perm _
      rw [finishedOf_append]
      exact (append_nil _).symm ▸ h.ended
    · obtain rfl := TraceEvent.started.inj heq
      intro dependency hdependency
      refine mem_finishedOf.mp (h.ended.mem_iff.mpr ?_)
      exact mem_append_right _ (hready dependency hdependency)
  · exact h

theorem mem_pending_launch {i : ℕ} (hi : i ∈ s.pending) (hne : i ≠ index) :
    i ∈ (s.launch dependencies maxConcurrency index).pending := by
  rw [ReadyLoop.launch]
  split
  · exact (mem_erase_of_ne hne).mpr hi
  · exact hi

variable {indices : List ℕ}

theorem Steady.foldl_launch : ∀ {s : ReadyLoop ρ},
    s.Steady dependencies maxConcurrency count → indices.Nodup → indices ⊆ s.pending →
      (indices.foldl (ReadyLoop.launch dependencies maxConcurrency) s).Steady dependencies
        maxConcurrency count := by
  induction indices with
  | nil => exact fun h _ _ => h
  | cons index rest ih =>
    intro s h hnodup hsub
    obtain ⟨hnotMem, hrest⟩ := nodup_cons.mp hnodup
    refine ih (h.launch (hsub mem_cons_self)) hrest fun i hi => ?_
    exact mem_pending_launch (hsub (mem_cons_of_mem _ hi)) fun heq => hnotMem (heq ▸ hi)

theorem Steady.launchReady (h : s.Steady dependencies maxConcurrency count) :
    (s.launchReady dependencies maxConcurrency).Steady dependencies maxConcurrency count :=
  h.foldl_launch h.sorted.nodup (List.Subset.refl _)

/-! ## There is always something to wait for -/

theorem active_subset_foldl_launch : ∀ {s : ReadyLoop ρ},
    s.active ⊆ (indices.foldl (ReadyLoop.launch dependencies maxConcurrency) s).active := by
  induction indices with
  | nil => exact fun hi => hi
  | cons index rest ih =>
    intro s
    refine List.Subset.trans ?_ ih
    rw [ReadyLoop.launch]
    split
    · exact subset_append_left _ _
    · exact List.Subset.refl _

/-- The first pending call waits for completed calls only, if nothing is active. -/
theorem Steady.ready_head (h : s.Steady dependencies maxConcurrency count)
    (hearlier : ∀ index, ∀ dependency ∈ dependencies index, dependency < index)
    (hactive : s.active = []) {rest : List ℕ} (hpending : s.pending = index :: rest) :
    ∀ dependency ∈ dependencies index, dependency ∈ s.completed := by
  intro dependency hdependency
  have hlt := hearlier index dependency hdependency
  have hindex : index ∈ List.range count := by
    refine h.split.mem_iff.mp (mem_append_left _ (mem_append_left _ ?_))
    rw [hpending]
    exact mem_cons_self
  have hrange : dependency ∈ List.range count :=
    mem_range.mpr (Nat.lt_trans hlt (mem_range.mp hindex))
  have hsomewhere := h.split.mem_iff.mpr hrange
  rw [hactive, append_nil] at hsomewhere
  rcases mem_append.mp hsomewhere with hlater | hcompleted
  · have hsorted := h.sorted
    rw [hpending] at hlater hsorted
    rcases mem_cons.mp hlater with rfl | hrest
    · exact absurd hlt (Nat.lt_irrefl _)
    · exact absurd (rel_of_pairwise_cons hsorted hrest) (Nat.lt_asymm hlt)
  · exact hcompleted

theorem Steady.active_launchReady (h : s.Steady dependencies maxConcurrency count)
    (hearlier : ∀ index, ∀ dependency ∈ dependencies index, dependency < index)
    (hmax : 0 < maxConcurrency) (hwork : ¬ (s.pending = [] ∧ s.active = [])) :
    (s.launchReady dependencies maxConcurrency).active ≠ [] := by
  by_cases hactive : s.active = []
  · obtain ⟨index, rest, hpending⟩ :=
      exists_cons_of_ne_nil fun hnil => hwork ⟨hnil, hactive⟩
    have hready := h.ready_head hearlier hactive hpending
    have hfirst : index ∈ (s.launch dependencies maxConcurrency index).active := by
      rw [ReadyLoop.launch, if_pos ⟨by rw [hactive]; exact hmax, hready⟩]
      exact mem_append_right _ mem_cons_self
    rw [ReadyLoop.launchReady, hpending, foldl_cons]
    exact ne_nil_of_mem (active_subset_foldl_launch hfirst)
  · obtain ⟨index, rest, hcons⟩ := exists_cons_of_ne_nil hactive
    have hindex : index ∈ s.active := hcons ▸ mem_cons_self
    exact ne_nil_of_mem (active_subset_foldl_launch hindex)

variable (dependencies maxConcurrency) in
/-- The loop waits for a race only with something active, and is done with nothing left. -/
structure Invariant (count : ℕ) (s : ReadyLoop ρ) : Prop where
  steady : s.Steady dependencies maxConcurrency count
  racing : s.phase = .racing → s.active ≠ []
  done : s.phase = .done → s.pending = [] ∧ s.active = []

theorem invariant_new : (new count : ReadyLoop ρ).Invariant dependencies maxConcurrency count := by
  refine ⟨⟨pairwise_lt_range, ?_, Nat.zero_le _, nodup_nil, List.Subset.refl _,
    List.Perm.refl _, List.Perm.refl _, ?_, rfl⟩, fun h => absurd h (by simp [new]),
    fun h => absurd h (by simp [new])⟩
  · show (List.range count ++ [] ++ []).Perm _
    rw [append_nil, append_nil]
  · intro before index after heq
    exact absurd heq (by simp [new])

theorem perm_erase_concat {xs ys : List ℕ} (hindex : index ∈ xs) :
    (xs.erase index ++ (ys ++ [index])).Perm (xs ++ ys) := by
  rw [← append_assoc]
  refine (perm_append_singleton index _).trans ?_
  exact ((perm_cons_erase hindex).append_right ys).symm

/-- A call whose run has ended, once it is taken out. -/
theorem Steady.keys_filter (h : s.Steady dependencies maxConcurrency count) (index : ℕ) :
    (s.finished.filter fun entry => entry.1 ≠ index).map Prod.fst
      = (s.finished.map Prod.fst).erase index := by
  rw [h.finished_nodup.erase_eq_filter, filter_map]
  refine congrArg _ (filter_congr fun entry _ => ?_)
  show decide (entry.1 ≠ index) = (entry.1 != index)
  rw [bne, decide_not]
  rfl

theorem mem_keys_of_lookup {record : ρ} (h : s.finished.lookup index = some record) :
    index ∈ s.finished.map Prod.fst := by
  obtain ⟨before, after, hsplit, -⟩ := List.lookup_eq_some_iff.mp h
  rw [hsplit, map_append, map_cons]
  exact mem_append_right _ mem_cons_self

theorem lookup_of_mem_keys (h : index ∈ s.finished.map Prod.fst) :
    ∃ record, s.finished.lookup index = some record := by
  obtain ⟨entry, hentry, heq⟩ := mem_map.mp h
  rw [← Option.isSome_iff_exists, lookup_isSome_iff]
  exact ⟨entry, hentry, beq_iff_eq.mpr heq.symm⟩

section

variable (h : s.Steady dependencies maxConcurrency count)
include h

theorem Steady.take {record : ρ} (hrecord : s.finished.lookup index = some record) (phase : Phase) :
    { s with
      active := s.active.erase index
      finished := s.finished.filter fun entry => entry.1 ≠ index
      completed := s.completed ++ [index]
      phase := phase
      yielded := s.yielded ++ [(index, record)] }.Steady dependencies maxConcurrency count := by
  have hkey := mem_keys_of_lookup hrecord
  have hactive := h.finished_active hkey
  have hkeys := h.keys_filter index
  refine ⟨h.sorted, ?_, (length_erase_le ..).trans h.active_le, ?_, ?_, ?_, ?_, h.ordered, ?_⟩
  · rw [append_assoc]
    refine List.Perm.trans ?_ (append_assoc .. ▸ h.split)
    exact (perm_erase_concat hactive).append_left _
  · exact hkeys ▸ h.finished_nodup.erase _
  · intro i hi
    have hi' : i ∈ (s.finished.map Prod.fst).erase index := hkeys ▸ hi
    obtain ⟨hne, hmem⟩ := h.finished_nodup.mem_erase_iff.mp hi'
    exact (mem_erase_of_ne hne).mpr (h.finished_active hmem)
  · exact h.started.trans (perm_erase_concat hactive).symm
  · show (finishedOf s.trace).Perm (List.map _ (s.finished.filter _) ++ (s.completed ++ [index]))
    rw [hkeys]
    exact h.ended.trans (perm_erase_concat hkey).symm
  · show (s.yielded ++ [_]).map _ = _
    rw [map_append, h.yields]
    rfl

theorem Steady.settle (record : ρ) (hactive : index ∈ s.active)
    (hnew : index ∉ s.finished.map Prod.fst) :
    { s with
      finished := s.finished ++ [(index, record)]
      trace := s.trace ++ [TraceEvent.finished index] }.Steady dependencies maxConcurrency
        count := by
  have hkeys : (s.finished ++ [(index, record)]).map Prod.fst
      = s.finished.map Prod.fst ++ [index] := map_append
  refine ⟨h.sorted, h.split, h.active_le, ?_, ?_, ?_, ?_,
    h.ordered.concat fun _ heq => absurd heq (by simp), h.yields⟩
  · refine hkeys ▸ nodup_append.mpr ⟨h.finished_nodup, pairwise_singleton _ _, ?_⟩
    intro i hi j hj heq
    rw [mem_singleton.mp hj] at heq
    exact hnew (heq ▸ hi)
  · intro i hi
    rcases mem_append.mp (hkeys ▸ hi) with hi | hi
    · exact h.finished_active hi
    · exact mem_singleton.mp hi ▸ hactive
  · show (startedOf (s.trace ++ [_])).Perm _
    rw [startedOf_append]
    exact (append_nil _).symm ▸ h.started
  · show (finishedOf (s.trace ++ [_])).Perm (List.map _ (s.finished ++ [_]) ++ s.completed)
    rw [finishedOf_append, hkeys]
    refine (h.ended.append_right _).trans ?_
    rw [append_assoc, append_assoc]
    exact perm_append_comm.append_left _

theorem Steady.phase (phase : Phase) :
    { s with phase := phase }.Steady dependencies maxConcurrency count :=
  ⟨h.sorted, h.split, h.active_le, h.finished_nodup, h.finished_active, h.started, h.ended,
    h.ordered, h.yields⟩

end

/-- **Step lemma.** -/
theorem Invariant.step (h : s.Invariant dependencies maxConcurrency count)
    (hearlier : ∀ index, ∀ dependency ∈ dependencies index, dependency < index)
    (hmax : 0 < maxConcurrency) (event : LoopEvent ρ) :
    (s.step dependencies maxConcurrency event).Invariant dependencies maxConcurrency count := by
  cases event with
  | next =>
    rw [ReadyLoop.step]
    split
    · split
      · next hnothing =>
        exact ⟨h.steady.phase _, fun heq => absurd heq (by simp), fun _ => hnothing⟩
      · next hwork =>
        exact ⟨h.steady.launchReady.phase _,
          fun _ => h.steady.active_launchReady hearlier hmax hwork,
          fun heq => absurd heq (by simp)⟩
    · exact h
  | settle index record =>
    rw [ReadyLoop.step]
    split
    · next hsettles =>
      exact ⟨h.steady.settle record hsettles.1 hsettles.2, h.racing, h.done⟩
    · exact h
  | take index =>
    unfold ReadyLoop.step
    dsimp only
    cases hrecord : s.finished.lookup index with
    | none => exact h
    | some record =>
      dsimp only
      split
      · exact ⟨h.steady.take hrecord _, fun heq => absurd heq (by simp),
          fun heq => absurd heq (by simp)⟩
      · exact h
  | close =>
    rw [ReadyLoop.step]
    split
    · exact ⟨h.steady.phase _, fun heq => absurd heq (by simp), fun heq => absurd heq (by simp)⟩
    · exact h

/-! ## The loop ends -/

/-- What is still to happen: four steps for a pending call, three for an active one, two for one
whose run has ended, and the next request. -/
def weight (s : ReadyLoop ρ) : ℕ :=
  4 * s.pending.length + 2 * s.active.length + (s.active.length - s.finished.length)
    + if s.phase = .suspended then 1 else 0

theorem Steady.finished_le (h : s.Steady dependencies maxConcurrency count) :
    s.finished.length ≤ s.active.length := by
  have hle := (subperm_of_subset h.finished_nodup h.finished_active).length_le
  rwa [length_map] at hle

/-- A launch moves calls from the pending to the active ones. -/
theorem launch_lengths (hindex : index ∈ s.pending) :
    (s.launch dependencies maxConcurrency index).pending.length
        + (s.launch dependencies maxConcurrency index).active.length
        = s.pending.length + s.active.length
      ∧ (s.launch dependencies maxConcurrency index).pending.length ≤ s.pending.length
      ∧ (s.launch dependencies maxConcurrency index).finished = s.finished := by
  rw [launch]
  split
  · have herase := length_erase_of_mem hindex
    have hpos := length_pos_of_mem hindex
    refine ⟨?_, length_erase_le .., rfl⟩
    show (s.pending.erase index).length + (s.active ++ [index]).length = _
    rw [length_append, length_singleton]
    omega
  · exact ⟨rfl, Nat.le_refl _, rfl⟩

theorem foldl_launch_lengths : ∀ {s : ReadyLoop ρ}, indices.Nodup →
    indices ⊆ s.pending →
      let s' := indices.foldl (ReadyLoop.launch dependencies maxConcurrency) s
      s'.pending.length + s'.active.length = s.pending.length + s.active.length
        ∧ s'.pending.length ≤ s.pending.length ∧ s'.finished = s.finished := by
  induction indices with
  | nil => exact fun _ _ => ⟨rfl, Nat.le_refl _, rfl⟩
  | cons index rest ih =>
    intro s hnodup hsub
    obtain ⟨hnotMem, hrest⟩ := nodup_cons.mp hnodup
    have hstill : rest ⊆ (s.launch dependencies maxConcurrency index).pending := fun i hi =>
      mem_pending_launch (hsub (mem_cons_of_mem _ hi)) fun heq => hnotMem (heq ▸ hi)
    obtain ⟨hsum, hle, hfinished⟩ := ih hrest hstill
    obtain ⟨hsum', hle', hfinished'⟩ :=
      @launch_lengths _ dependencies maxConcurrency s index (hsub mem_cons_self)
    exact ⟨hsum.trans hsum', hle.trans hle', hfinished.trans hfinished'⟩

/-- Every event that can happen takes something away from what is still to happen. -/
theorem Invariant.weight_step (h : s.Invariant dependencies maxConcurrency count)
    {event : LoopEvent ρ} (henabled : s.Enabled event) :
    (s.step dependencies maxConcurrency event).weight + 1 ≤ s.weight := by
  have hle := h.steady.finished_le
  cases event with
  | next =>
    have hphase : s.phase = .suspended := henabled
    obtain ⟨hsum, hpending, hfinished⟩ := @foldl_launch_lengths _ dependencies maxConcurrency
      s.pending s h.steady.sorted.nodup (List.Subset.refl _)
    rw [ReadyLoop.step, if_pos hphase]
    split
    · rw [weight, weight, if_neg (by simp), if_pos hphase]
    · rw [weight, weight, if_neg (by simp), if_pos hphase]
      show 4 * (s.launchReady dependencies maxConcurrency).pending.length
        + 2 * (s.launchReady dependencies maxConcurrency).active.length
        + ((s.launchReady dependencies maxConcurrency).active.length
          - (s.launchReady dependencies maxConcurrency).finished.length) + 0 + 1 ≤ _
      unfold ReadyLoop.launchReady
      rw [hfinished]
      omega
  | settle index record =>
    have hsettles : index ∈ s.active ∧ index ∉ s.finished.map Prod.fst := henabled
    have hlt : s.finished.length + 1 ≤ s.active.length := by
      have hnodup : (index :: s.finished.map Prod.fst).Nodup :=
        nodup_cons.mpr ⟨hsettles.2, h.steady.finished_nodup⟩
      have hsub : index :: s.finished.map Prod.fst ⊆ s.active :=
        cons_subset.mpr ⟨hsettles.1, h.steady.finished_active⟩
      have hlength := (subperm_of_subset hnodup hsub).length_le
      rwa [length_cons, length_map] at hlength
    rw [ReadyLoop.step, if_pos hsettles, weight, weight]
    show 4 * s.pending.length + 2 * s.active.length
      + (s.active.length - (s.finished ++ [_]).length)
      + (if s.phase = .suspended then 1 else 0) + 1 ≤ _
    rw [length_append, length_singleton]
    omega
  | take index =>
    obtain ⟨hkey, hphase⟩ : index ∈ s.finished.map Prod.fst ∧ s.phase = .racing := henabled
    obtain ⟨record, hrecord⟩ := lookup_of_mem_keys hkey
    have hactive := length_erase_of_mem (h.steady.finished_active hkey)
    have hfinished := congrArg List.length (h.steady.keys_filter index)
    rw [length_map, length_erase_of_mem hkey, length_map] at hfinished
    have hpos : 0 < s.finished.length := by
      rw [← length_map Prod.fst]
      exact length_pos_of_mem hkey
    unfold ReadyLoop.step
    simp only [hrecord, if_pos hphase]
    rw [weight, weight, if_pos rfl, if_neg (by simp [hphase])]
    show 4 * s.pending.length + 2 * (s.active.erase index).length
      + ((s.active.erase index).length
        - (s.finished.filter fun entry => entry.1 ≠ index).length) + 1 + 1 ≤ _
    rw [hactive, hfinished]
    omega
  | close =>
    have hphase : s.phase = .suspended := henabled
    rw [ReadyLoop.step, if_pos hphase, weight, weight, if_neg (by simp), if_pos hphase]

/-- **Run lemma.**  A run of events that can happen is no longer than what was to happen. -/
theorem Invariant.length_le
    (hearlier : ∀ index, ∀ dependency ∈ dependencies index, dependency < index)
    (hmax : 0 < maxConcurrency) {events : List (LoopEvent ρ)} : ∀ {s : ReadyLoop ρ},
      s.Invariant dependencies maxConcurrency count →
      Run.Guarded (ReadyLoop.step dependencies maxConcurrency) Enabled s events →
        events.length + (Run.run (ReadyLoop.step dependencies maxConcurrency) s events).weight
          ≤ s.weight := by
  induction events with
  | nil => exact fun _ _ => Nat.le_of_eq (Nat.zero_add _)
  | cons event rest ih =>
    rintro s h ⟨henabled, hrest⟩
    have hstep := h.weight_step henabled
    have hrun := ih (h.step hearlier hmax event) hrest
    rw [Run.run_cons, length_cons]
    omega

section

variable (h : s.Invariant dependencies maxConcurrency count)
include h

/-- Until the loop is done or closed, something can happen, whatever the records are. -/
theorem Invariant.progress (record : ρ) (hdone : s.phase ≠ .done) (hclosed : s.phase ≠ .closed) :
    ∃ event, s.Enabled event := by
  cases hphase : s.phase with
  | suspended => exact ⟨.next, hphase⟩
  | racing =>
    obtain ⟨index, hindex⟩ := exists_mem_of_ne_nil _ (h.racing hphase)
    by_cases hfinished : index ∈ s.finished.map Prod.fst
    · exact ⟨.take index, hfinished, hphase⟩
    · exact ⟨.settle index record, hindex, hfinished⟩
  | done => exact absurd hphase hdone
  | closed => exact absurd hphase hclosed

theorem Invariant.run (hearlier : ∀ index, ∀ dependency ∈ dependencies index, dependency < index)
    (hmax : 0 < maxConcurrency) (events : List (LoopEvent ρ)) :
    (Run.run (ReadyLoop.step dependencies maxConcurrency) s events).Invariant dependencies
      maxConcurrency count :=
  Run.run_invariant (fun _ event h => h.step hearlier hmax event) h events

/-- When the loop is done, every call was completed. -/
theorem Invariant.completed_perm (hdone : s.phase = .done) :
    s.completed.Perm (List.range count) := by
  obtain ⟨hpending, hactive⟩ := h.done hdone
  have hsplit := h.steady.split
  rwa [hpending, hactive, nil_append, nil_append] at hsplit

end

end ReadyLoop

end Lumi.Tools
