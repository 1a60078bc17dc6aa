import Lumi.Lib.InsertionMap
import Lumi.Lib.JsValue

/-!
# Sagas

`executeSaga` runs the steps of a saga one after the other until one fails, and then compensates
those that were completed, the last one first.  Which steps were completed, and what they returned,
is remembered by the names of the steps.

A step works on the world, which holds the context of the saga and whatever else the step reads and
writes; what other tasks do while a step is awaited is part of what the step does to the world.  The
durations are left out.
-/

namespace Lumi.Substrate

open Js List

variable {ω ρ ε : Type*}

structure BroccoliSagaStep (ω ρ ε : Type*) where
  stepName : Text
  execute : ω → Except ε ρ × ω
  compensate : ω → Option ρ → Except ε Unit × ω

inductive BroccoliSagaState
  | pending
  | running
  | completed
  | compensating
  | compensated
  | failed
  deriving DecidableEq

structure BroccoliSagaExecutionResult (ε : Type*) where
  sagaId : Text
  state : BroccoliSagaState
  completedSteps : List Text
  compensatedSteps : List Text
  error : Option ε

/-- What `executeSaga` carries along; `executed` and `compensations` tell which functions were
called, in order, with what they returned and with what they received. -/
structure SagaRun (ω ρ ε : Type*) where
  world : ω
  sagaState : BroccoliSagaState
  completedSteps : List Text
  stepResults : InsertionMap Text ρ
  failureError : Option ε
  compensatedSteps : List Text
  executed : List (BroccoliSagaStep ω ρ ε × ρ)
  compensations : List (BroccoliSagaStep ω ρ ε × Option ρ)

namespace SagaRun

def init (world : ω) : SagaRun ω ρ ε := ⟨world, .running, [], .empty, none, [], [], []⟩

/-- The forward execution phase. -/
def executeSteps (run : SagaRun ω ρ ε) : List (BroccoliSagaStep ω ρ ε) → SagaRun ω ρ ε
  | [] => run
  | step :: rest =>
    match step.execute run.world with
    | (.ok result, world) =>
      executeSteps
        { run with
          world
          completedSteps := run.completedSteps ++ [step.stepName]
          stepResults := run.stepResults.set step.stepName result
          executed := run.executed ++ [(step, result)] }
        rest
    | (.error err, world) =>
      { run with world, failureError := some err, sagaState := .compensating }

def stepsToCompensate (run : SagaRun ω ρ ε) (steps : List (BroccoliSagaStep ω ρ ε)) :
    List (BroccoliSagaStep ω ρ ε) :=
  (steps.filter fun s => s.stepName ∈ run.completedSteps).reverse

/-- One turn of the compensation phase; a step that throws here is passed over. -/
def compensateStep (run : SagaRun ω ρ ε) (step : BroccoliSagaStep ω ρ ε) : SagaRun ω ρ ε :=
  let previousResult := run.stepResults.get? step.stepName
  let compensations := run.compensations ++ [(step, previousResult)]
  match step.compensate run.world previousResult with
  | (.ok _, world) =>
    { run with
      world
      compensations
      compensatedSteps := run.compensatedSteps ++ [step.stepName] }
  | (.error _, world) => { run with world, compensations }

/-- The steps of a saga, run and, where one has failed, compensated. -/
def ofSteps (world : ω) (steps : List (BroccoliSagaStep ω ρ ε)) : SagaRun ω ρ ε :=
  let run := (init world).executeSteps steps
  if run.sagaState = .running then { run with sagaState := .completed }
  else
    { (run.stepsToCompensate steps).foldl compensateStep run with sagaState := .compensated }

def result (sagaId : Text) (run : SagaRun ω ρ ε) : BroccoliSagaExecutionResult ε :=
  { sagaId
    state := run.sagaState
    completedSteps := run.completedSteps
    compensatedSteps := run.compensatedSteps
    error := run.failureError }

end SagaRun

/-- `BroccoliSagaOrchestrator`: the results by the ids of the sagas. -/
abbrev SagaHistory (ε : Type*) := InsertionMap Text (BroccoliSagaExecutionResult ε)

/-- `executeSaga`: the result, the history and what was called. -/
def SagaHistory.executeSaga (history : SagaHistory ε) (sagaId : Text) (world : ω)
    (steps : List (BroccoliSagaStep ω ρ ε)) :
    BroccoliSagaExecutionResult ε × SagaHistory ε × SagaRun ω ρ ε :=
  let run := SagaRun.ofSteps world steps
  (run.result sagaId, history.set sagaId (run.result sagaId), run)

/-! ## The forward phase -/

namespace SagaRun

variable {world : ω} {steps : List (BroccoliSagaStep ω ρ ε)}

/-- What the names of the completed steps say about those that were executed. -/
structure Recorded (run : SagaRun ω ρ ε) : Prop where
  completed : run.completedSteps = run.executed.map fun e => e.1.stepName
  results : run.stepResults = .ofList (run.executed.map fun e => (e.1.stepName, e.2))

theorem recorded_init : (init world : SagaRun ω ρ ε).Recorded := ⟨rfl, rfl⟩

theorem Recorded.executeSteps {run : SagaRun ω ρ ε} (h : run.Recorded)
    (steps : List (BroccoliSagaStep ω ρ ε)) : (run.executeSteps steps).Recorded := by
  induction steps generalizing run with
  | nil => exact h
  | cons step rest ih =>
    unfold SagaRun.executeSteps
    split
    · refine ih ⟨?_, ?_⟩
      · rw [h.completed, map_append]
        rfl
      · rw [h.results, map_append, InsertionMap.ofList, InsertionMap.ofList,
          foldl_append]
        rfl
    · exact ⟨h.completed, h.results⟩

section

variable (run : SagaRun ω ρ ε)

/-- The steps that were executed are the first ones, and in this phase nothing is compensated. -/
theorem executeSteps_split (steps : List (BroccoliSagaStep ω ρ ε)) :
    ∃ done later, steps = done ++ later ∧
      (run.executeSteps steps).executed.map Prod.fst = run.executed.map Prod.fst ++ done ∧
      (run.executeSteps steps).compensations = run.compensations := by
  induction steps generalizing run with
  | nil => exact ⟨[], [], rfl, (append_nil _).symm, rfl⟩
  | cons step rest ih =>
    unfold executeSteps
    split
    · next result world heq =>
      obtain ⟨done, later, rfl, hdone, hcompensations⟩ := ih
        { run with
          world
          completedSteps := run.completedSteps ++ [step.stepName]
          stepResults := run.stepResults.set step.stepName result
          executed := run.executed ++ [(step, result)] }
      refine ⟨step :: done, later, rfl, ?_, hcompensations⟩
      rw [hdone, map_append, append_assoc]
      rfl
    · exact ⟨[], step :: rest, rfl, (append_nil _).symm, rfl⟩

/-! ## The compensation phase -/

theorem compensateStep_calls (step : BroccoliSagaStep ω ρ ε) :
    (run.compensateStep step).compensations =
        run.compensations ++ [(step, run.stepResults.get? step.stepName)] ∧
      (run.compensateStep step).stepResults = run.stepResults ∧
      (run.compensateStep step).executed = run.executed := by
  unfold compensateStep
  dsimp only
  split
  · exact ⟨rfl, rfl, rfl⟩
  · exact ⟨rfl, rfl, rfl⟩

/-- Each of the steps is compensated once, in order, with the result kept under its name. -/
theorem foldl_compensateStep_calls (steps : List (BroccoliSagaStep ω ρ ε)) :
    (steps.foldl compensateStep run).compensations =
        run.compensations ++ steps.map (fun s => (s, run.stepResults.get? s.stepName)) ∧
      (steps.foldl compensateStep run).executed = run.executed := by
  induction steps generalizing run with
  | nil => exact ⟨(append_nil _).symm, rfl⟩
  | cons step rest ih =>
    obtain ⟨hcalls, hresults, hexecuted⟩ := run.compensateStep_calls step
    obtain ⟨hcalls', hexecuted'⟩ := ih (run.compensateStep step)
    refine ⟨?_, hexecuted'.trans hexecuted⟩
    rw [foldl_cons, hcalls', hcalls, hresults, append_assoc]
    rfl

/-! ## What is compensated -/

/-- The steps that were executed are compensated, each once and with its own result, the last one
first. -/
def CompensatesExactly : Prop :=
  run.compensations = (run.executed.map fun e => (e.1, some e.2)).reverse

end

/-- The names tell the steps apart as far as it matters: those that were executed under one name
returned the same, and no other step of the saga has the name of one of them. -/
structure NamesSuffice (run : SagaRun ω ρ ε) (steps : List (BroccoliSagaStep ω ρ ε)) : Prop where
  results : run.executed.Pairwise fun e later => e.1.stepName = later.1.stepName → e.2 = later.2
  names : ∀ step ∈ steps.drop run.executed.length, ∀ e ∈ run.executed, step.stepName ≠ e.1.stepName

theorem compensations_ofSteps (world : ω) (steps : List (BroccoliSagaStep ω ρ ε))
    (h : (ofSteps world steps).sagaState = .compensated) :
    (ofSteps world steps).executed = ((init world).executeSteps steps).executed ∧
      (ofSteps world steps).compensations =
        (((init world).executeSteps steps).stepsToCompensate steps).map fun s =>
          (s, ((init world).executeSteps steps).stepResults.get? s.stepName) := by
  obtain ⟨done, later, -, -, hnone⟩ := executeSteps_split (init world) steps
  unfold ofSteps at h ⊢
  dsimp only at h ⊢
  split_ifs at h ⊢
  obtain ⟨hcalls, hexecuted⟩ := foldl_compensateStep_calls ((init world).executeSteps steps)
    (((init world).executeSteps steps).stepsToCompensate steps)
  rw [hnone] at hcalls
  exact ⟨hexecuted, hcalls⟩

theorem compensatesExactly_iff (world : ω) (steps : List (BroccoliSagaStep ω ρ ε))
    (h : (ofSteps world steps).sagaState = .compensated) :
    (ofSteps world steps).CompensatesExactly ↔ (ofSteps world steps).NamesSuffice steps := by
  obtain ⟨hexecuted, hcalls⟩ := compensations_ofSteps world steps h
  obtain ⟨hcompleted, hresults⟩ :=
    (recorded_init : (init world : SagaRun ω ρ ε).Recorded).executeSteps steps
  obtain ⟨done, later, hsteps, hdone, -⟩ := executeSteps_split (init world) steps
  set run := (init world).executeSteps steps with hrun
  have hdone' : run.executed.map Prod.fst = done := hdone
  have hlater : steps.drop run.executed.length = later := by
    rw [hsteps, ← hdone', ← length_map (f := Prod.fst), drop_left]
  -- the steps that were executed are compensated in any case
  have hfilter : steps.filter (fun s => s.stepName ∈ run.completedSteps) =
      run.executed.map Prod.fst ++ later.filter fun s => s.stepName ∈ run.completedSteps := by
    rw [hsteps, filter_append, ← hdone', filter_eq_self.mpr]
    intro s hs
    obtain ⟨e, he, rfl⟩ := mem_map.mp hs
    rw [decide_eq_true_eq, hcompleted]
    exact mem_map_of_mem he
  have hexact : (ofSteps world steps).CompensatesExactly ↔
      later.filter (fun s => s.stepName ∈ run.completedSteps) = [] ∧
        ∀ e ∈ run.executed, run.stepResults.get? e.1.stepName = some e.2 := by
    rw [CompensatesExactly, hcalls, hexecuted, stepsToCompensate, map_reverse,
      reverse_inj, hfilter, map_append, map_map]
    constructor
    · intro heq
      have hlength := congrArg List.length heq
      simp only [length_append, length_map] at hlength
      have hnil : later.filter (fun s => s.stepName ∈ run.completedSteps) = [] :=
        eq_nil_of_length_eq_zero (by omega)
      rw [hnil, map_nil, append_nil] at heq
      refine ⟨hnil, fun e he => ?_⟩
      exact (Prod.mk.inj (map_inj_left.mp heq e he)).2
    · rintro ⟨hnil, hown⟩
      rw [hnil, map_nil, append_nil]
      exact map_inj_left.mpr fun e he => congrArg (Prod.mk e.1) (hown e he)
  have hnames : later.filter (fun s => s.stepName ∈ run.completedSteps) = [] ↔
      ∀ step ∈ later, ∀ e ∈ run.executed, step.stepName ≠ e.1.stepName := by
    rw [filter_eq_nil_iff, hcompleted]
    simp only [mem_map, decide_eq_true_eq, not_exists, not_and]
    exact forall₂_congr fun step _ => forall₂_congr fun e _ => not_congr eq_comm
  have hpairs : (∀ e ∈ run.executed, run.stepResults.get? e.1.stepName = some e.2) ↔
      run.executed.Pairwise fun e later => e.1.stepName = later.1.stepName → e.2 = later.2 := by
    rw [← pairwise_map (f := fun e : BroccoliSagaStep ω ρ ε × ρ => (e.1.stepName, e.2))
      (R := fun e later => e.1 = later.1 → e.2 = later.2), ← InsertionMap.get?_ofList_self_iff,
      ← hresults, forall_mem_map]
  rw [hexact, hnames, hpairs]
  constructor
  · rintro ⟨hother, hsame⟩
    exact ⟨by rw [hexecuted]; exact hsame, by rw [hexecuted, hlater]; exact hother⟩
  · rintro ⟨hsame, hother⟩
    rw [hexecuted] at hsame hother
    rw [hlater] at hother
    exact ⟨hother, hsame⟩

end SagaRun

/-- **Compensation is exact** if and only if the names of the steps suffice. -/
theorem compensation_exact_iff (history : SagaHistory ε) (sagaId : Text) (world : ω)
    (steps : List (BroccoliSagaStep ω ρ ε))
    (h : (history.executeSaga sagaId world steps).1.state = .compensated) :
    (history.executeSaga sagaId world steps).2.2.CompensatesExactly ↔
      (history.executeSaga sagaId world steps).2.2.NamesSuffice steps :=
  SagaRun.compensatesExactly_iff world steps h

/-- A step that returns the number, or fails without one. -/
def sampleStep (stepName : String) (result : Option ℕ) : BroccoliSagaStep Unit ℕ Unit :=
  ⟨text stepName, fun world => (result.elim (.error ()) .ok, world), fun world _ => (.ok (), world)⟩

/-- The steps are run as a saga of a new orchestrator. -/
def sampleSaga (steps : List (BroccoliSagaStep Unit ℕ Unit)) :
    BroccoliSagaExecutionResult Unit × SagaHistory Unit × SagaRun Unit ℕ Unit :=
  SagaHistory.executeSaga .empty (text "s") () steps

def namedSteps : List (BroccoliSagaStep Unit ℕ Unit) :=
  [sampleStep "reserve" (some 1), sampleStep "charge" (some 2), sampleStep "ship" none]

def namesakes : List (BroccoliSagaStep Unit ℕ Unit) :=
  [sampleStep "reserve" (some 1), sampleStep "reserve" (some 2), sampleStep "ship" none]

/-- Two steps with names of their own, and a third one that fails. -/
theorem compensation_of_named_steps : (sampleSaga namedSteps).2.2.CompensatesExactly :=
  (compensation_exact_iff .empty (text "s") () namedSteps rfl).mpr
    ⟨by decide +kernel, by decide +kernel⟩

/-- Two steps with one name: both are compensated with what the second one returned. -/
theorem compensation_of_namesakes : (sampleSaga namesakes).1.state = .compensated ∧
    ¬ (sampleSaga namesakes).2.2.CompensatesExactly := by
  refine ⟨rfl, fun h => ?_⟩
  have hresults := congrArg (List.map Prod.snd) h
  exact absurd hresults (by decide +kernel)

end Lumi.Substrate
