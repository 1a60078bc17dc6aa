import Mathlib.Data.List.Basic
import Mathlib.Algebra.Order.Group.Nat

/-!
# Runs of a deterministic transition system

A system is a step function `σ → ι → σ`; a run is the list of inputs it is fed.
An interleaving of several clients is a run whose inputs carry the client.

Two predicates speak about whole runs.  `Guarded guard s inputs` says that each
input meets `guard` in the state in which it is consumed, and `Always P s inputs`
that `P` holds in every state the run passes through, the first one included.
The rules below derive the second from the first: one step lemma, one induction.
-/

namespace Run

variable {σ ι : Type*} (step : σ → ι → σ)

/-- The state after a run. -/
def run (s : σ) (inputs : List ι) : σ := inputs.foldl step s

/-- Every input of the run meets `guard` in the state in which it is consumed. -/
def Guarded (guard : σ → ι → Prop) : σ → List ι → Prop
  | _, [] => True
  | s, i :: rest => guard s i ∧ Guarded guard (step s i) rest

/-- `P` holds in every state of the run, from the first to the last. -/
def Always (P : σ → Prop) : σ → List ι → Prop
  | s, [] => P s
  | s, i :: rest => P s ∧ Always P (step s i) rest

variable {step} {guard : σ → ι → Prop} {P Q : σ → Prop} {s : σ}

instance Guarded.decidable [∀ s i, Decidable (guard s i)] :
    (s : σ) → (inputs : List ι) → Decidable (Guarded step guard s inputs)
  | _, [] => isTrue trivial
  | s, i :: rest =>
    have := Guarded.decidable (step s i) rest
    inferInstanceAs (Decidable (guard s i ∧ _))

@[simp] theorem run_nil (s : σ) : run step s [] = s := rfl

@[simp] theorem run_cons (s : σ) (i : ι) (rest : List ι) :
    run step s (i :: rest) = run step (step s i) rest := rfl

theorem run_append (s : σ) (first second : List ι) :
    run step s (first ++ second) = run step (run step s first) second :=
  List.foldl_append

theorem guarded_append {first second : List ι} :
    Guarded step guard s (first ++ second) ↔
      Guarded step guard s first ∧ Guarded step guard (run step s first) second := by
  induction first generalizing s with
  | nil => simp [Guarded]
  | cons i rest ih => simp [Guarded, ih, and_assoc]

/-- What every step preserves, every run preserves. -/
theorem run_invariant (hstep : ∀ s i, P s → P (step s i)) (hP : P s) (inputs : List ι) :
    P (run step s inputs) := by
  induction inputs generalizing s with
  | nil => exact hP
  | cons i rest ih => exact ih (hstep s i hP)

variable {inputs : List ι}

/-- **Run lemma.**  What every guarded step preserves, every guarded run preserves. -/
theorem run_preserves (hstep : ∀ s i, P s → guard s i → P (step s i)) (hP : P s)
    (hguard : Guarded step guard s inputs) : P (run step s inputs) := by
  induction inputs generalizing s with
  | nil => exact hP
  | cons i rest ih => exact ih (hstep s i hP hguard.1) hguard.2

theorem guarded_of_forall_mem (h : ∀ i ∈ inputs, ∀ s, guard s i) : Guarded step guard s inputs := by
  induction inputs generalizing s with
  | nil => trivial
  | cons i rest ih =>
    exact ⟨h i List.mem_cons_self s, ih fun j hj => h j (List.mem_cons_of_mem _ hj)⟩

/-- What an input establishes for itself and every input keeps, a run establishes for
each of its inputs. -/
theorem run_establishes (step : σ → ι → σ) (Q : σ → ι → Prop) (hself : ∀ s i, Q (step s i) i)
    (hkeep : ∀ s i j, Q s j → Q (step s i) j) (s : σ) {j : ι} (hj : j ∈ inputs) :
    Q (run step s inputs) j := by
  induction inputs generalizing s with
  | nil => exact absurd hj List.not_mem_nil
  | cons i rest ih =>
    rcases List.mem_cons.mp hj with rfl | hj
    · exact run_invariant (fun s i h => hkeep s i j h) (hself s j) rest
    · exact ih (step s i) hj

theorem always_iff_forall_split :
    Always step P s inputs ↔
      ∀ first second, inputs = first ++ second → P (run step s first) := by
  induction inputs generalizing s with
  | nil =>
    constructor
    · intro h first second heq
      obtain ⟨rfl, rfl⟩ := List.append_eq_nil_iff.mp heq.symm
      exact h
    · exact fun h => h [] [] rfl
  | cons i rest ih =>
    constructor
    · rintro ⟨hs, hrest⟩ first second heq
      cases first with
      | nil => exact hs
      | cons j first =>
        obtain ⟨rfl, rfl⟩ := List.cons_eq_cons.mp heq
        exact ih.mp hrest first second rfl
    · intro h
      refine ⟨h [] (i :: rest) rfl, ih.mpr fun first second heq => ?_⟩
      exact h (i :: first) second (by rw [heq, List.cons_append])

theorem Always.mono (h : ∀ s, P s → Q s) (hP : Always step P s inputs) : Always step Q s inputs :=
  always_iff_forall_split.mpr fun first second heq =>
    h _ (always_iff_forall_split.mp hP first second heq)

/-- The states of a run all satisfy an invariant of the steps. -/
theorem always_of_invariant (hstep : ∀ s i, P s → P (step s i)) (hP : P s) (inputs : List ι) :
    Always step P s inputs :=
  always_iff_forall_split.mpr fun first _ _ => run_invariant hstep hP first

/-- The states of a guarded run all satisfy an invariant of the guarded steps. -/
theorem always_of_guarded (hstep : ∀ s i, P s → guard s i → P (step s i)) (hP : P s)
    (hguard : Guarded step guard s inputs) : Always step P s inputs := by
  induction inputs generalizing s with
  | nil => exact hP
  | cons i rest ih => exact ⟨hP, ih (hstep s i hP hguard.1) hguard.2⟩

/-- Where the guard is exactly what one step needs, it is exactly what a run needs. -/
theorem always_iff_guarded (hstep : ∀ s i, P s → (P (step s i) ↔ guard s i)) (hP : P s) :
    Always step P s inputs ↔ Guarded step guard s inputs := by
  induction inputs generalizing s with
  | nil => exact ⟨fun _ => trivial, fun _ => hP⟩
  | cons i rest ih =>
    constructor
    · rintro ⟨-, hrest⟩
      have hnext : P (step s i) := by
        cases rest with
        | nil => exact hrest
        | cons j rest => exact hrest.1
      exact ⟨(hstep s i hP).mp hnext, (ih hnext).mp hrest⟩
    · rintro ⟨hg, hrest⟩
      have hnext := (hstep s i hP).mpr hg
      exact ⟨hP, (ih hnext).mpr hrest⟩

section

variable {assumed : σ → ι → Prop} {Inv : σ → Prop}

/-- What a run of inputs that may be assumed shows in its states is exactly the guard, if
the guarded steps keep an invariant that implies it and a step off the guard breaks it. -/
theorem always_iff_guarded_of_invariant (hsafe : ∀ s, Inv s → P s)
    (hkeep : ∀ s i, Inv s → assumed s i → guard s i → Inv (step s i))
    (hbreak : ∀ s i, Inv s → assumed s i → ¬ guard s i → ¬ P (step s i)) {inputs : List ι}
    (hInv : Inv s) (hassumed : Guarded step assumed s inputs) :
    Always step P s inputs ↔ Guarded step guard s inputs := by
  induction inputs generalizing s with
  | nil => exact ⟨fun _ => trivial, fun _ => hsafe s hInv⟩
  | cons i rest ih =>
    constructor
    · rintro ⟨-, hrest⟩
      have hnext : P (step s i) := (always_iff_forall_split.mp hrest) [] rest rfl
      have hguard : guard s i := by
        by_contra hno
        exact hbreak s i hInv hassumed.1 hno hnext
      exact ⟨hguard, (ih (hkeep s i hInv hassumed.1 hguard) hassumed.2).mp hrest⟩
    · rintro ⟨hguard, hrest⟩
      exact ⟨hsafe s hInv, (ih (hkeep s i hInv hassumed.1 hguard) hassumed.2).mpr hrest⟩

/-- The same for a property of the single steps: on the states of the invariant it is the
guard. -/
theorem guarded_iff_of_assumed {ok : σ → ι → Prop}
    (hiff : ∀ s i, Inv s → assumed s i → (ok s i ↔ guard s i))
    (hkeep : ∀ s i, Inv s → assumed s i → guard s i → Inv (step s i)) {inputs : List ι}
    (hInv : Inv s) (hassumed : Guarded step assumed s inputs) :
    Guarded step ok s inputs ↔ Guarded step guard s inputs := by
  induction inputs generalizing s with
  | nil => exact Iff.rfl
  | cons i rest ih =>
    obtain ⟨hfirst, hlater⟩ := hassumed
    constructor
    · rintro ⟨hok, hrest⟩
      have hguard := (hiff s i hInv hfirst).mp hok
      exact ⟨hguard, (ih (hkeep s i hInv hfirst hguard) hlater).mp hrest⟩
    · rintro ⟨hguard, hrest⟩
      exact ⟨(hiff s i hInv hfirst).mpr hguard,
        (ih (hkeep s i hInv hfirst hguard) hlater).mpr hrest⟩

theorem guarded_iff_of_invariant {ok : σ → ι → Prop} (hiff : ∀ s i, Inv s → (ok s i ↔ guard s i))
    (hkeep : ∀ s i, Inv s → guard s i → Inv (step s i)) {inputs : List ι} (hInv : Inv s) :
    Guarded step ok s inputs ↔ Guarded step guard s inputs :=
  guarded_iff_of_assumed (fun s i h _ => hiff s i h) (fun s i h _ => hkeep s i h) hInv
    (guarded_of_forall_mem fun _ _ _ => trivial : Guarded step (fun _ _ => True) s inputs)

end

end Run
