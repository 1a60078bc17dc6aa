import Lumi.Tools.ReadyLoop
import Lumi.Tools.Waves

/-!
# Batches of tool calls

`executeReadyCalls` runs the loop of ready calls over the dependencies between the targets of the
calls, and `executePipelinedStream` puts the records it yields back into the order of the calls.
Whatever the order in which runs end, conflicting calls run one after the other and every call runs
once (`batch_serialisable`).

A call is executed by `executeSafely`, which turns whatever goes wrong into a record.
-/

namespace Lumi.Tools

open Js List

/-- A record of the stream, with its place in the planned waves. -/
structure PipelinedStreamChunk (ρ : Type*) where
  waveIndex : ℕ
  totalWaves : ℕ
  callId : Text
  toolName : Text
  record : ρ
  isLastInWave : Bool
  isFinal : Bool

/-- The records that wait for an earlier one, and what the stream has yielded. -/
structure StreamState (ρ : Type*) where
  ready : List (ℕ × ρ)
  nextIndex : ℕ
  chunks : List (PipelinedStreamChunk ρ)

/-- For every call of the waves, its wave and whether it is the last one there. -/
def positions (waves : List (List ScheduledToolCall)) : List (ℕ × Bool) :=
  waves.zipIdx.flatMap fun (wave, waveIndex) =>
    wave.zipIdx.map fun (_, index) => (waveIndex, index = wave.length - 1)

section

variable {ρ : Type*} (calls : List ScheduledToolCall) (waves : List (List ScheduledToolCall))

/-- The chunk of the `index`-th call; without that call the stream throws. -/
def chunk (index : ℕ) (record : ρ) : Option (PipelinedStreamChunk ρ) :=
  match calls[index]?, (positions waves)[index]? with
  | some call, some position => some {
      waveIndex := position.1 + 1
      totalWaves := waves.length
      callId := call.id
      toolName := call.name
      record
      isLastInWave := position.2
      isFinal := index + 1 = calls.length }
  | _, _ => none

/-- While the record of the next call is there, it is yielded. -/
def drain : ℕ → StreamState ρ → Option (StreamState ρ)
  | 0, st => some st
  | fuel + 1, st =>
    match st.ready.lookup st.nextIndex with
    | none => some st
    | some record =>
      (chunk calls waves st.nextIndex record).bind fun next =>
        drain fuel {
          ready := st.ready.filter fun entry => entry.1 ≠ st.nextIndex
          nextIndex := st.nextIndex + 1
          chunks := st.chunks ++ [next] }

/-- One record of `executeReadyCalls`.  Each turn of the loop takes a record from `ready`. -/
def receive (st : StreamState ρ) (entry : ℕ × ρ) : Option (StreamState ρ) :=
  let ready := st.ready.filter (fun e => e.1 ≠ entry.1) ++ [entry]
  drain calls waves ready.length { st with ready }

/-- What the stream has yielded when `executeReadyCalls` has yielded these records. -/
def pipelinedStream (yielded : List (ℕ × ρ)) : Option (List (PipelinedStreamChunk ρ)) :=
  (yielded.foldlM (receive calls waves) ⟨[], 0, []⟩).map StreamState.chunks

/-! ## The stream is in call order -/

variable {calls waves}

theorem length_positions (waves : List (List ScheduledToolCall)) :
    (positions waves).length = waves.flatten.length := by
  have hlengths : ∀ start, ((waves.zipIdx start).flatMap fun (wave, waveIndex) =>
      wave.zipIdx.map fun (_, index) => (waveIndex, decide (index = wave.length - 1))).length
      = waves.flatten.length := by
    induction waves with
    | nil => exact fun _ => rfl
    | cons wave rest ih =>
      intro start
      rw [zipIdx_cons, flatMap_cons, length_append, ih, flatten_cons,
        length_append, length_map, length_zipIdx]
  exact hlengths 0

theorem exists_chunk (hwaves : waves.flatten = calls) {index : ℕ} (hindex : index < calls.length)
    (record : ρ) : ∃ next, chunk calls waves index record = some next := by
  have hposition : index < (positions waves).length := by
    rwa [length_positions, hwaves]
  rw [chunk, getElem?_eq_getElem hindex, getElem?_eq_getElem hposition]
  exact ⟨_, rfl⟩

variable (calls waves) in
/-- What was yielded so far are the first records, and the rest of what was received waits. -/
structure Streamed (received : List (ℕ × ρ)) (st : StreamState ρ) : Prop where
  length : st.chunks.length = st.nextIndex
  chunks : ∀ k < st.nextIndex, ∃ record, (k, record) ∈ received
    ∧ st.chunks[k]? = chunk calls waves k record
  ready : ∀ entry, entry ∈ st.ready ↔ entry ∈ received ∧ st.nextIndex ≤ entry.1

theorem Streamed.drain (hwaves : waves.flatten = calls) {received : List (ℕ × ρ)}
    (hreceived : ∀ entry ∈ received, entry.1 < calls.length) {fuel : ℕ} :
    ∀ {st : StreamState ρ}, Streamed calls waves received st → st.ready.length ≤ fuel →
      ∃ st', Tools.drain calls waves fuel st = some st' ∧ Streamed calls waves received st'
        ∧ st'.nextIndex ∉ st'.ready.map Prod.fst := by
  induction fuel with
  | zero =>
    intro st h hlength
    refine ⟨st, rfl, h, ?_⟩
    rw [eq_nil_of_length_eq_zero (Nat.le_zero.mp hlength)]
    exact not_mem_nil
  | succ fuel ih =>
    intro st h hlength
    rw [Tools.drain]
    cases hlookup : st.ready.lookup st.nextIndex with
    | none =>
      refine ⟨st, rfl, h, fun hmem => ?_⟩
      obtain ⟨entry, hentry, heq⟩ := mem_map.mp hmem
      exact bne_iff_ne.mp (lookup_eq_none_iff.mp hlookup entry hentry) heq.symm
    | some record =>
      have hready : (st.nextIndex, record) ∈ st.ready := by
        obtain ⟨before, after, hsplit, -⟩ := List.lookup_eq_some_iff.mp hlookup
        rw [hsplit]
        exact mem_append_right _ mem_cons_self
      have hmem := ((h.ready _).mp hready).1
      obtain ⟨next, hnext⟩ := exists_chunk hwaves (hreceived _ hmem) record
      dsimp only
      rw [hnext, Option.bind_some]
      refine ih ⟨?_, fun k hk => ?_, fun entry => ?_⟩ ?_
      · rw [length_append, h.length]
        rfl
      · rcases Nat.lt_succ_iff_lt_or_eq.mp hk with hk | rfl
        · obtain ⟨record', hmem', hchunk⟩ := h.chunks k hk
          refine ⟨record', hmem', ?_⟩
          rw [getElem?_append_left (h.length.symm ▸ hk), hchunk]
        · refine ⟨record, hmem, ?_⟩
          rw [← h.length, getElem?_concat_length, h.length, hnext]
      · rw [mem_filter, h.ready, decide_eq_true_eq, and_assoc]
        have hnext : st.nextIndex ≤ entry.1 ∧ entry.1 ≠ st.nextIndex
            ↔ st.nextIndex + 1 ≤ entry.1 := by omega
        exact and_congr_right fun _ => hnext
      · have hlt : (st.ready.filter fun e => e.1 ≠ st.nextIndex).length < st.ready.length :=
          length_filter_lt_length_iff_exists.mpr ⟨_, hready, by simp⟩
        exact Nat.le_of_lt_succ (Nat.lt_of_lt_of_le hlt hlength)

theorem Streamed.receive (hwaves : waves.flatten = calls) {received : List (ℕ × ρ)}
    {st : StreamState ρ} (h : Streamed calls waves received st) {entry : ℕ × ρ}
    (hnew : entry.1 ∉ received.map Prod.fst)
    (hreceived : ∀ e ∈ received ++ [entry], e.1 < calls.length) :
    ∃ st', Tools.receive calls waves st entry = some st'
      ∧ Streamed calls waves (received ++ [entry]) st'
      ∧ st'.nextIndex ∉ st'.ready.map Prod.fst := by
  have hlater : st.nextIndex ≤ entry.1 := by
    by_contra hlt
    obtain ⟨record, hmem, -⟩ := h.chunks entry.1 (Nat.lt_of_not_le hlt)
    exact hnew (mem_map.mpr ⟨_, hmem, rfl⟩)
  refine Streamed.drain hwaves hreceived ⟨h.length, fun k hk => ?_, fun e => ?_⟩ (Nat.le_refl _)
  · obtain ⟨record, hmem, hchunk⟩ := h.chunks k hk
    exact ⟨record, mem_append_left _ hmem, hchunk⟩
  · rw [mem_append, mem_append, mem_filter, h.ready, decide_eq_true_eq,
      mem_singleton]
    constructor
    · rintro (⟨⟨hmem, hle⟩, -⟩ | rfl)
      · exact ⟨.inl hmem, hle⟩
      · exact ⟨.inr rfl, hlater⟩
    · rintro ⟨hmem | rfl, hle⟩
      · exact .inl ⟨⟨hmem, hle⟩, fun heq => hnew (heq ▸ mem_map_of_mem hmem)⟩
      · exact .inr rfl

variable (calls waves) in
/-- Chunk after chunk, the record of the first call, of the second one, and so on. -/
structure InCallOrder (yielded : List (ℕ × ρ)) (chunks : List (PipelinedStreamChunk ρ)) : Prop where
  chunk : ∀ k < chunks.length, ∃ record, (k, record) ∈ yielded
    ∧ chunks[k]? = chunk calls waves k record
  length_le : chunks.length ≤ calls.length
  complete : (yielded.map Prod.fst).Perm (List.range calls.length) → chunks.length = calls.length

/-- **Run lemma.** -/
theorem foldlM_receive (hwaves : waves.flatten = calls) {rest : List (ℕ × ρ)} :
    ∀ {received : List (ℕ × ρ)} {st : StreamState ρ}, Streamed calls waves received st →
      st.nextIndex ∉ st.ready.map Prod.fst →
      ((received ++ rest).map Prod.fst).Nodup → (∀ e ∈ received ++ rest, e.1 < calls.length) →
        ∃ st', rest.foldlM (receive calls waves) st = some st'
          ∧ Streamed calls waves (received ++ rest) st'
          ∧ st'.nextIndex ∉ st'.ready.map Prod.fst := by
  induction rest with
  | nil =>
    intro received st h hwaits _ _
    exact ⟨st, rfl, (append_nil received).symm ▸ h, hwaits⟩
  | cons entry rest ih =>
    intro received st h _ hnodup hreceived
    rw [← singleton_append, ← append_assoc] at hnodup hreceived ⊢
    have hnew : entry.1 ∉ received.map Prod.fst := by
      rw [map_append, map_append] at hnodup
      have hfirst := (nodup_append.mp (nodup_append.mp hnodup).1).2.2
      exact fun hmem => hfirst _ hmem _ mem_cons_self rfl
    obtain ⟨st', hreceive, hst', hwaits'⟩ := h.receive hwaves hnew fun e he =>
      hreceived e (mem_append_left _ he)
    rw [singleton_append, foldlM_cons, hreceive]
    exact ih hst' hwaits' hnodup hreceived

theorem pipelinedStream_inCallOrder (hwaves : waves.flatten = calls) {yielded : List (ℕ × ρ)}
    (hnodup : (yielded.map Prod.fst).Nodup) (hyielded : ∀ e ∈ yielded, e.1 < calls.length) :
    ∃ chunks, pipelinedStream calls waves yielded = some chunks
      ∧ InCallOrder calls waves yielded chunks := by
  have hstart : Streamed calls waves ([] : List (ℕ × ρ)) ⟨[], 0, []⟩ :=
    ⟨rfl, fun _ hk => absurd hk (Nat.not_lt_zero _), fun _ => by simp⟩
  obtain ⟨st, hfold, h, hwaits⟩ := foldlM_receive hwaves hstart not_mem_nil hnodup hyielded
  rw [nil_append] at h
  have hle : st.nextIndex ≤ calls.length := by
    by_contra hlt
    obtain ⟨record, hmem, -⟩ := h.chunks calls.length (Nat.lt_of_not_le hlt)
    exact absurd (hyielded _ hmem) (Nat.lt_irrefl _)
  refine ⟨st.chunks, by rw [pipelinedStream, hfold]; rfl, ⟨fun k hk => ?_, ?_, fun hperm => ?_⟩⟩
  · exact h.chunks k (h.length ▸ hk)
  · exact h.length.symm ▸ hle
  · rw [h.length]
    refine Nat.le_antisymm hle (Nat.le_of_not_lt fun hlt => hwaits ?_)
    obtain ⟨entry, hmem, heq⟩ := mem_map.mp (hperm.mem_iff.mpr (mem_range.mpr hlt))
    exact mem_map.mpr ⟨entry, (h.ready entry).mpr ⟨hmem, Nat.le_of_eq heq.symm⟩, heq⟩

end

namespace ToolExecutionScheduler

variable [Host] (scheduler : ToolExecutionScheduler) (registry : ToolRegistry)
  (options : SchedulerOptions) (processCwd cwd : Text) (calls : List ScheduledToolCall)

/-- For every call, the earlier calls it waits for. -/
def dependencies : List (List ℕ) :=
  let targets := calls.map (scheduler.target registry processCwd cwd)
  targets.mapIdx fun index target =>
    ((targets.take index).zipIdx.filter fun entry =>
      dependsOn options processCwd target entry.1).map Prod.snd

/-- The loop over the calls, after these events. -/
def executeReadyCalls {ρ : Type*} (events : List (LoopEvent ρ)) : ReadyLoop ρ :=
  Run.run (ReadyLoop.step
    (fun index => (scheduler.dependencies registry options processCwd cwd calls).getD index [])
    (scheduler.maxConcurrency options)) (.new calls.length) events

variable {scheduler registry options processCwd cwd calls}

/-! ## Dependencies and conflicts -/

theorem mem_dependencies {index before : ℕ} :
    before ∈ (scheduler.dependencies registry options processCwd cwd calls).getD index [] ↔
      before < index ∧ ∃ call ∈ calls[index]?, ∃ prior ∈ calls[before]?,
        scheduler.Depends registry options processCwd cwd prior call := by
  rw [dependencies, getD_eq_getElem?_getD, getElem?_mapIdx, getElem?_map]
  cases hcall : calls[index]? with
  | none => simp
  | some call =>
    rw [Option.map_some, Option.map_some, Option.getD_some, mem_map]
    constructor
    · rintro ⟨⟨prior, before'⟩, hmem, rfl⟩
      obtain ⟨hmem, hdepends⟩ := mem_filter.mp hmem
      have hget := mk_mem_zipIdx_iff_getElem?.mp hmem
      rw [getElem?_take] at hget
      split at hget
      · next hlt =>
        rw [getElem?_map] at hget
        obtain ⟨priorCall, hprior, rfl⟩ := Option.map_eq_some_iff.mp hget
        exact ⟨hlt, call, rfl, priorCall, hprior, hdepends⟩
      · cases hget
    · rintro ⟨hlt, _, ⟨⟩, prior, hprior, hdepends⟩
      refine ⟨(scheduler.target registry processCwd cwd prior, before), ?_, rfl⟩
      refine mem_filter.mpr ⟨mk_mem_zipIdx_iff_getElem?.mpr ?_, hdepends⟩
      rw [getElem?_take, if_pos hlt, getElem?_map, hprior]
      rfl

theorem lt_of_mem_dependencies (index : ℕ) : ∀ before ∈
    (scheduler.dependencies registry options processCwd cwd calls).getD index [], before < index :=
  fun _ h => (mem_dependencies.mp h).1

variable (processCwd) in
/-- The two paths are equal, or one lies below the other. -/
def Nested (r r' : Text) : Prop :=
  PosixPath.resolveSegments processCwd [r] <+: PosixPath.resolveSegments processCwd [r']
    ∨ PosixPath.resolveSegments processCwd [r'] <+: PosixPath.resolveSegments processCwd [r]

variable (processCwd) in
/-- One of the two mutates, and they target equal or nested paths, or one of them has no known
resource or is a global command. -/
def Conflict (earlier later : Target) : Prop :=
  (earlier.mutating = true ∨ later.mutating = true) ∧
    (earlier.global = true ∨ later.global = true ∨ earlier.resources = [] ∨ later.resources = []
      ∨ ∃ r ∈ earlier.resources, ∃ r' ∈ later.resources, Nested processCwd r r')

/-- Of two calls in conflict, the later waits for the earlier. -/
theorem depends_of_conflict {prior call : ScheduledToolCall}
    (h : Conflict processCwd (scheduler.target registry processCwd cwd prior)
      (scheduler.target registry processCwd cwd call)) :
    scheduler.Depends registry options processCwd cwd prior call := by
  obtain ⟨hmutates, hconflict⟩ := h
  refine depends_iff.mpr ⟨?_, ?_⟩
  · rcases hmutates with h | h
    · exact .inr (.inl h)
    · exact .inl h
  · rcases hconflict with h | h | h | h | ⟨r, hr, r', hr', hnested⟩
    · exact .inr (.inl h)
    · exact .inl h
    · exact .inr (.inr (.inr (.inr (.inl h))))
    · exact .inr (.inr (.inr (.inl h)))
    · refine .inr (.inr (.inr (.inr (.inr ⟨r', hr', r, hr, ?_⟩))))
      rw [overlaps_iff, overlaps_iff]
      exact hnested.symm

/-! ## Every batch -/

variable (scheduler registry options processCwd cwd calls) in
/-- What can be said of a batch whose loop stands at `s`. -/
structure Serialised {ρ : Type*} (s : ReadyLoop ρ) : Prop where
  /-- no call runs twice -/
  started_once : (ReadyLoop.startedOf s.trace).Nodup
  finished_once : (ReadyLoop.finishedOf s.trace).Nodup
  active_le : s.active.length ≤ scheduler.maxConcurrency options
  running : ∀ i, .started i ∈ s.trace → .finished i ∉ s.trace → i ∈ s.active
  /-- of two calls in conflict, the earlier has finished before the later starts -/
  ordered : ∀ before j after, s.trace = before ++ .started j :: after →
    ∀ i < j, ∀ earlier ∈ calls[i]?, ∀ later ∈ calls[j]?,
      Conflict processCwd (scheduler.target registry processCwd cwd earlier)
        (scheduler.target registry processCwd cwd later) → .finished i ∈ before
  /-- in the end, every call has run -/
  complete : s.phase = .done →
    (ReadyLoop.startedOf s.trace).Perm (List.range calls.length)
      ∧ (ReadyLoop.finishedOf s.trace).Perm (List.range calls.length)
  /-- the stream yields each record once, in call order, and in the end all of them -/
  streamed : ∃ chunks,
    pipelinedStream calls (scheduler.partitionWaves registry options processCwd cwd calls)
        s.yielded = some chunks
      ∧ (∀ k < chunks.length, ∃ record, (k, record) ∈ s.yielded ∧ chunks[k]? = chunk calls
          (scheduler.partitionWaves registry options processCwd cwd calls) k record)
      ∧ (s.phase = .done → chunks.length = calls.length)

/-- For all calls, options and orders of events: no call runs twice, no more than `maxConcurrency`
at a time, conflicting calls one after the other; the loop cannot get stuck, ends after at most
`4 * n + 1` events, and then every call has run and the stream has given every record in order. -/
theorem batch_serialisable {ρ : Type*} (events : List (LoopEvent ρ)) :
    let s := scheduler.executeReadyCalls registry options processCwd cwd calls events
    scheduler.Serialised registry options processCwd cwd calls s
      ∧ (∀ _ : ρ, s.phase ≠ .done → s.phase ≠ .closed → ∃ event, s.Enabled event)
      ∧ (Run.Guarded (ReadyLoop.step
          (fun i => (scheduler.dependencies registry options processCwd cwd calls).getD i [])
          (scheduler.maxConcurrency options)) ReadyLoop.Enabled (.new calls.length) events →
        events.length ≤ 4 * calls.length + 1) := by
  intro s
  have hmax := scheduler.maxConcurrency_pos options
  have hs : s.Invariant _ (scheduler.maxConcurrency options) calls.length :=
    ReadyLoop.invariant_new.run lt_of_mem_dependencies hmax events
  have hyields := hs.steady.yields
  have hparts := hs.steady.nodup
  rw [append_assoc] at hparts
  have hrun : (s.active ++ s.completed).Nodup := (nodup_append.mp hparts).2.1
  obtain ⟨-, hcompleted, hapart⟩ := nodup_append.mp hrun
  refine ⟨⟨?_, ?_, hs.steady.active_le, ?_, ?_, ?_, ?_⟩, fun record => hs.progress record, ?_⟩
  · exact hs.steady.started.nodup_iff.mpr hrun
  · refine hs.steady.ended.nodup_iff.mpr (nodup_append.mpr
      ⟨hs.steady.finished_nodup, hcompleted, fun i hi => hapart i ?_⟩)
    exact hs.steady.finished_active hi
  · intro i hstarted hfinished
    have hi := hs.steady.started.mem_iff.mp (ReadyLoop.mem_startedOf.mpr hstarted)
    rcases mem_append.mp hi with hactive | hdone
    · exact hactive
    · refine absurd (ReadyLoop.mem_finishedOf.mp (hs.steady.ended.mem_iff.mpr ?_)) hfinished
      exact mem_append_right _ hdone
  · intro before j after htrace i hij earlier hearlier later hlater hconflict
    refine hs.steady.ordered before j after htrace i (mem_dependencies.mpr ⟨hij, ?_⟩)
    exact ⟨later, hlater, earlier, hearlier, depends_of_conflict hconflict⟩
  · intro hdone
    have hall := hs.completed_perm hdone
    obtain ⟨-, hactive⟩ := hs.done hdone
    have hfinished : s.finished.map Prod.fst = [] :=
      subset_nil.mp (hactive ▸ hs.steady.finished_active)
    refine ⟨hs.steady.started.trans ?_, hs.steady.ended.trans ?_⟩
    · rwa [hactive, nil_append]
    · rwa [hfinished, nil_append]
  · have hnodup : (s.yielded.map Prod.fst).Nodup := hyields.symm ▸ hcompleted
    have hlt : ∀ e ∈ s.yielded, e.1 < calls.length := fun e he => by
      have hmem : e.1 ∈ s.completed := hyields ▸ mem_map_of_mem he
      exact mem_range.mp (hs.steady.split.mem_iff.mp (mem_append_right _ hmem))
    obtain ⟨chunks, hchunks, horder⟩ :=
      pipelinedStream_inCallOrder (flatten_partitionWaves calls) hnodup hlt
    refine ⟨chunks, hchunks, horder.chunk, fun hdone => horder.complete ?_⟩
    exact hyields.symm ▸ hs.completed_perm hdone
  · intro hguarded
    have hlength := ReadyLoop.Invariant.length_le lt_of_mem_dependencies hmax
      ReadyLoop.invariant_new hguarded
    have hweight : (ReadyLoop.new calls.length : ReadyLoop ρ).weight = 4 * calls.length + 1 := by
      simp [ReadyLoop.weight, ReadyLoop.new]
    omega

end ToolExecutionScheduler

end Lumi.Tools
