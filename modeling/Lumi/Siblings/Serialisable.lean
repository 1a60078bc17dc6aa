import Lumi.Siblings.Turns

/-!
# Sibling tools are serialisable

Whatever the guards answer, whenever the scheduler is cancelled or woken and in whatever order the
runs settle, the nodes of a message run in an order that respects their conflicts and
prerequisites, and the execution ends with one envelope for each block (`siblings_serialisable`).
-/

namespace Lumi.Siblings

open Js List

namespace SiblingRun

variable {τ : Type*} {nodes : List SiblingToolDependencyNode} {capacity : ℕ} {s : SiblingRun τ}

theorem invariant_new (h : Connected nodes) (capacity : ℕ) (aborted : Bool) :
    (new nodes aborted : SiblingRun τ).Invariant nodes capacity :=
  (steady_new h capacity aborted).awake rfl

/-- **Run lemma.**  The weight bounds the length of a run. -/
theorem length_le_of_guarded (hnodes : Connected nodes) (stallTimeout : Text)
    {events : List (SiblingEvent τ)} : ∀ {s : SiblingRun τ}, s.Invariant nodes capacity →
      Run.Guarded (step nodes capacity stallTimeout) Enabled s events →
        events.length ≤ s.weight + 4 * events.countP isExternal := by
  induction events with
  | nil => exact fun _ _ => Nat.zero_le _
  | cons event rest ih =>
    intro s h hguard
    have hstep := h.weight_step hnodes stallTimeout hguard.1
    have hrest := ih (h.step hnodes stallTimeout event) hguard.2
    rw [length_cons, countP_cons]
    split at hstep
    · next hexternal => rw [if_pos hexternal]; omega
    · next hinternal => rw [if_neg hinternal]; omega

/-- There is always an event that does not come from outside, until the end. -/
theorem Invariant.enabled (h : s.Invariant nodes capacity) (callbacks : Callbacks)
    (outcome : Outcome τ) (hphase : s.phase ≠ .done) :
    ∃ event, isExternal event = false ∧ s.Enabled event := by
  cases hcase : s.phase with
  | awake => exact ⟨.resume callbacks, rfl, .inl hcase⟩
  | timedOut => exact ⟨.resume callbacks, rfl, .inr hcase⟩
  | stalled => exact ⟨.timeout, rfl, hcase⟩
  | done => exact absurd hcase hphase
  | waiting =>
    obtain ⟨i, rest, hrunning⟩ := exists_cons_of_ne_nil (h.waiting hcase)
    have hmem : i ∈ s.running := hrunning ▸ mem_cons_self
    cases hresult : s.results i with
    | none => exact ⟨.settle i outcome, rfl, hmem, by rw [hresult]; rfl⟩
    | some envelope => exact ⟨.drop i, rfl, hmem, by rw [hresult]; rfl⟩

theorem map_filterMap_of_forall {α β γ : Type*} {f : α → Option β} {g : β → γ} {k : α → γ}
    {xs : List α} (h : ∀ x ∈ xs, ∃ y, f x = some y ∧ g y = k x) :
    (xs.filterMap f).map g = xs.map k := by
  induction xs with
  | nil => rfl
  | cons x rest ih =>
    obtain ⟨y, hy, heq⟩ := h x mem_cons_self
    rw [filterMap_cons, hy, map_cons, map_cons, heq,
      ih fun z hz => h z (mem_cons_of_mem _ hz)]

/-- At the end every node has its envelope. -/
theorem Invariant.envelopes (hnodes : Connected nodes) (h : s.Invariant nodes capacity)
    (hphase : s.phase = .done) :
    (s.envelopes nodes).map (fun envelope => (envelope.sequence, envelope.id))
      = nodes.map fun node => (node.sequence, node.id) := by
  have hdone := h.done hphase
  have hresult : ∀ node ∈ nodes, ∃ envelope, s.results node.sequence = some envelope
      ∧ envelope.sequence = node.sequence ∧ envelope.id = node.id := by
    intro node hnode
    obtain ⟨i, hi⟩ := mem_iff_getElem?.mp hnode
    have hsequence := hnodes.sequence i node hi
    have hlt := (List.getElem?_eq_some_iff.mp hi).1
    rw [hsequence]
    have hsome : (s.results i).isSome := by
      rcases h.steady.covered i hlt with hpending | hrunning | hsome
      · exact absurd (hdone.1 ▸ hpending) not_mem_nil
      · exact absurd (hdone.2 ▸ hrunning) not_mem_nil
      · exact hsome
    obtain ⟨envelope, henvelope⟩ := Option.isSome_iff_exists.mp hsome
    obtain ⟨heq, other, hother, hid⟩ := h.steady.envelope i envelope henvelope
    rw [hnodes.nodeAt_eq, hi] at hother
    exact ⟨envelope, henvelope, heq, Option.some.inj hother ▸ hid⟩
  apply map_filterMap_of_forall
  intro node hnode
  obtain ⟨envelope, henvelope, hsequence, hid⟩ := hresult node hnode
  exact ⟨envelope, henvelope, by rw [hsequence, hid]⟩

end SiblingRun

theorem checkExecution_eq {nodes : List SiblingToolDependencyNode} (h : Connected nodes)
    (numberText : Number → Text) {options : SiblingToolSchedulerOptions} {capacity : ℕ}
    (hpos : 1 ≤ capacity) (hcapacity : options.capacity = .finite capacity) {timeout : ℚ}
    (htimeout : options.stallTimeout = .finite timeout) (hnonneg : 0 ≤ timeout) :
    checkExecution numberText options nodes = pure capacity := by
  have hinteger : positiveInteger? options.capacity = some capacity := by
    rw [hcapacity, positiveInteger?, if_pos ⟨Rat.den_natCast _, by rw [Rat.num_natCast]; omega⟩,
      Rat.num_natCast, Int.toNat_natCast]
  have hstall : isStallTimeout options.stallTimeout := by
    rw [htimeout]
    exact decide_eq_true hnonneg
  rw [checkExecution, validate_connected h, pure_bind, hinteger]
  exact if_pos hstall

/-- Whatever the callbacks and the runs do, sibling tools are started at most once, at most
`capacity` of them are running, none starts before the earlier ones it conflicts with have results
and its prerequisites have succeeded, and the execution ends with an envelope for each block. -/
theorem siblings_serialisable {τ : Type*} [Host] (host : SiblingHost) (cwd : Text)
    (modelOptions : SiblingDependencyModelOptions) (blocks : List ToolUse)
    (numberText : Number → Text) (options : SiblingToolSchedulerOptions) {capacity : ℕ}
    (hpos : 1 ≤ capacity) (hcapacity : options.capacity = .finite capacity) {timeout : ℚ}
    (htimeout : options.stallTimeout = .finite timeout) (hnonneg : 0 ≤ timeout) (aborted : Bool)
    (callbacks : Callbacks) (outcome : Outcome τ) {events : List (SiblingEvent τ)}
    (hevents : Run.Guarded (SiblingRun.step
        (buildSiblingToolDependencyModel host cwd modelOptions blocks) capacity
        (numberText options.stallTimeout)) SiblingRun.Enabled
      (.new (buildSiblingToolDependencyModel host cwd modelOptions blocks) aborted) events) :
    let nodes := buildSiblingToolDependencyModel host cwd modelOptions blocks
    let s : SiblingRun τ := Run.run (SiblingRun.step nodes capacity
      (numberText options.stallTimeout)) (.new nodes aborted) events
    nodes.map SiblingToolDependencyNode.block = blocks
      ∧ checkExecution numberText options nodes = pure capacity
      ∧ (startedOf s.trace).Nodup
      ∧ s.running.length ≤ capacity
      ∧ (∀ i ∈ startedOf s.trace, (∀ status, .completed i status ∉ s.trace) → i ∈ s.running)
      ∧ (∀ before j after, s.trace = before ++ .started j :: after →
        (∀ i left right, i < j → nodes[i]? = some left → nodes[j]? = some right →
          siblingNodesConflict left right → ∃ status, .completed i status ∈ before)
        ∧ ∀ node, nodes[j]? = some node → ∀ edge ∈ node.dependencyEdges, edge.kind ≠ .conflict →
          .completed edge.sequence .succeeded ∈ before)
      ∧ (s.phase ≠ .done → ∃ event, SiblingRun.isExternal event = false ∧ s.Enabled event)
      ∧ events.length ≤ 5 * blocks.length + 3 + 4 * events.countP SiblingRun.isExternal
      ∧ (s.phase = .done →
        (s.envelopes nodes).map SiblingExecutionEnvelope.sequence = List.range blocks.length
        ∧ (s.envelopes nodes).map SiblingExecutionEnvelope.id
          = nodes.map SiblingToolDependencyNode.id) := by
  intro nodes s
  have hnodes : Connected nodes := connected_buildSiblingToolDependencyModel host cwd _ blocks
  have hblocks : nodes.map SiblingToolDependencyNode.block = blocks :=
    block_buildSiblingToolDependencyModel host cwd modelOptions blocks
  have hlen : nodes.length = blocks.length := by rw [← hblocks, length_map]
  have hnew := @SiblingRun.invariant_new τ _ hnodes capacity aborted
  have h : s.Invariant nodes capacity :=
    Run.run_invariant (fun _ event h => h.step hnodes _ event) hnew events
  refine ⟨hblocks, checkExecution_eq hnodes numberText hpos hcapacity htimeout hnonneg,
    h.steady.started_nodup, h.steady.running_le, fun i hstarted hopen => ?_,
    fun before j after htrace => ⟨?_, ?_⟩, h.enabled callbacks outcome, ?_, fun hdone => ?_⟩
  · apply (h.steady.started_running i hstarted).2
    by_contra hsome
    obtain ⟨envelope, henvelope⟩ := Option.ne_none_iff_exists'.mp hsome
    exact hopen _ ((h.steady.completed_iff i _).mpr ⟨envelope, henvelope, rfl⟩)
  · intro i left right hij hleft hright hconflict
    obtain ⟨edge, hedge, hsequence⟩ := hnodes.conflict i j left right hij hleft hright hconflict
    have hnode : nodeAt nodes j = some right := (hnodes.nodeAt_eq j).trans hright
    obtain ⟨status, hcompleted, -⟩ := h.steady.ordered before j after htrace edge
      (SiblingRun.edgesOf_eq hnode ▸ hedge)
    exact ⟨status, hsequence ▸ hcompleted⟩
  · intro node hget edge hedge hkind
    have hnode : nodeAt nodes j = some node := (hnodes.nodeAt_eq j).trans hget
    obtain ⟨status, hcompleted, hsucceeded⟩ := h.steady.ordered before j after htrace edge
      (SiblingRun.edgesOf_eq hnode ▸ hedge)
    exact hsucceeded hkind ▸ hcompleted
  · have hbound := SiblingRun.length_le_of_guarded hnodes _ hnew hevents
    have hweight : (SiblingRun.new nodes aborted : SiblingRun τ).weight
        = 5 * nodes.length + 4 * 0 + 0 + 3 := by
      rw [SiblingRun.weight, SiblingRun.load]
      simp [SiblingRun.new, SiblingRun.unsettled, SiblingRun.phaseWeight]
    omega
  · have henvelopes := h.envelopes hnodes hdone
    constructor
    · calc _ = ((s.envelopes nodes).map fun e => (e.sequence, e.id)).map Prod.fst := by
            rw [map_map]; rfl
        _ = nodes.map SiblingToolDependencyNode.sequence := by
            rw [henvelopes, map_map]; rfl
        _ = List.range blocks.length := by rw [hnodes.sequences, hlen]
    · calc _ = ((s.envelopes nodes).map fun e => (e.sequence, e.id)).map Prod.snd := by
            rw [map_map]; rfl
        _ = nodes.map SiblingToolDependencyNode.id := by rw [henvelopes, map_map]; rfl

section

open scoped Js.Ascii

/-- Two calls that conflict, as nothing is known of their tools. -/
def twoBlocks : List ToolUse := [⟨[], [], none, []⟩, ⟨[], [], none, []⟩]

def admitAll : Callbacks := ⟨fun _ => false, fun _ _ => .admits true, fun _ _ _ => false⟩

def twoRuns : List (SiblingEvent ℕ) :=
  [.resume admitAll, .settle 0 (.fulfilled 7 true none), .drop 0, .resume admitAll,
    .settle 1 (.fulfilled 8 true none), .drop 1, .resume admitAll]

def anyHost : SiblingHost := ⟨[], some, fun _ => false⟩

theorem two_siblings_serialised :
    let nodes := buildSiblingToolDependencyModel anyHost [] {} twoBlocks
    let s := Run.run (SiblingRun.step nodes 4 []) (.new nodes false) twoRuns
    (s.envelopes nodes).map SiblingExecutionEnvelope.sequence = List.range twoBlocks.length :=
  have hevents := by
    refine ⟨?_, ?_, ?_, ?_, ?_, ?_, ?_, trivial⟩ <;> decide +kernel
  (@siblings_serialisable ℕ _ anyHost [] {} twoBlocks (fun _ => []) ⟨none, none⟩ 4 (by decide) rfl
    15000 rfl (by decide +kernel) false admitAll (.rejected []) twoRuns hevents).2.2.2.2.2.2.2.2
      (by decide +kernel) |>.1

end

end Lumi.Siblings
