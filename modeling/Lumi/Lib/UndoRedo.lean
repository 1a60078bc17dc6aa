import Mathlib.Data.List.Basic
import Mathlib.Logic.Function.Iterate

/-!
# Taking steps back

Logs of what takes each step back, and stacks with which a step that was taken back can be taken
again.
-/

namespace UndoLog

/-! ## Undo logs

A log keeps, for each change, what takes it back; taking back a log takes back its entries from
the last to the first.  Part of a log can be taken back before the rest, and the rest later, if
each entry of the part commutes with the entries of the rest that came after it.
-/

variable {σ τ : Type*} (revert : τ → σ → σ)

/-- Takes back a log, the last entry first. -/
def undo (log : List τ) (s : σ) : σ := log.foldr revert s

/-- It does not matter which of the two entries is taken back first. -/
def Commute (first second : τ) : Prop :=
  ∀ s, revert first (revert second s) = revert second (revert first s)

variable {revert}

@[simp] theorem undo_nil (s : σ) : undo revert [] s = s := rfl

@[simp] theorem undo_cons (entry : τ) (log : List τ) (s : σ) :
    undo revert (entry :: log) s = revert entry (undo revert log s) := rfl

theorem undo_append (first second : List τ) (s : σ) :
    undo revert (first ++ second) s = undo revert first (undo revert second s) :=
  List.foldr_append

/-- A change that its own entry takes back does not show in the log. -/
theorem undo_concat {entry : τ} (log : List τ) {s s' : σ} (h : revert entry s' = s) :
    undo revert (log ++ [entry]) s' = undo revert log s := by
  rw [undo_append, undo_cons, undo_nil, h]

theorem undo_commute {entry : τ} {log : List τ} (h : ∀ later ∈ log, Commute revert entry later)
    (s : σ) : undo revert log (revert entry s) = revert entry (undo revert log s) := by
  induction log with
  | nil => rfl
  | cons later log ih =>
    rw [undo_cons, undo_cons, ih fun e he => h e (List.mem_cons_of_mem _ he)]
    exact (h later List.mem_cons_self _).symm

/-- **Thinning a log.**  The entries that go are taken back first, the others later. -/
theorem undo_thin {goes : τ → Bool} {log : List τ}
    (h : log.Pairwise fun earlier later =>
      goes earlier = true → goes later = false → Commute revert earlier later) (s : σ) :
    undo revert (log.filter (!goes ·)) (undo revert (log.filter goes) s) = undo revert log s := by
  induction log with
  | nil => rfl
  | cons entry log ih =>
    obtain ⟨hentry, hlog⟩ := List.pairwise_cons.mp h
    cases hgoes : goes entry with
    | false => simp [hgoes, ih hlog]
    | true =>
      -- the entry goes before the later ones that stay
      have hcommute : ∀ later ∈ log.filter (!goes ·), Commute revert entry later := by
        intro later hlater
        obtain ⟨hmem, hstays⟩ := List.mem_filter.mp hlater
        exact hentry later hmem hgoes (by simpa using hstays)
      calc undo revert ((entry :: log).filter (!goes ·))
            (undo revert ((entry :: log).filter goes) s)
          = undo revert (log.filter (!goes ·))
              (revert entry (undo revert (log.filter goes) s)) := by simp [hgoes]
        _ = revert entry (undo revert (log.filter (!goes ·))
              (undo revert (log.filter goes) s)) := undo_commute hcommute _
        _ = undo revert (entry :: log) s := by rw [ih hlog, undo_cons]

end UndoLog

namespace UndoRedo

/-! ## Undo and redo

Two stacks of the steps that were taken and of those that were taken back.  Taking back the steps
that lead from one state to another leads back, and taking them again leads there again.
-/

variable {σ τ : Type*}

/-- A state, with its steps that can be taken back and taken again, the last one first. -/
structure Stacks (σ τ : Type*) where
  state : σ
  undoStack : List τ
  redoStack : List τ

variable (revert apply : τ → σ → σ)

def undo (s : Stacks σ τ) : Stacks σ τ :=
  match s.undoStack with
  | [] => s
  | entry :: rest => ⟨revert entry s.state, rest, entry :: s.redoStack⟩

def redo (s : Stacks σ τ) : Stacks σ τ :=
  match s.redoStack with
  | [] => s
  | entry :: rest => ⟨apply entry s.state, entry :: s.undoStack, rest⟩

/-- The entries, the last one first, each lead from a state to the next one and back. -/
def Leads : List τ → σ → σ → Prop
  | [], s, s' => s = s'
  | entry :: rest, s, s' =>
    ∃ previous, Leads rest s previous ∧ revert entry s' = previous ∧ apply entry previous = s'

variable {revert apply} {entries : List τ} {s s' : σ}

theorem undo_iterate (h : Leads revert apply entries s s') (rest redoStack : List τ) :
    (undo revert)^[entries.length] ⟨s', entries ++ rest, redoStack⟩ =
      ⟨s, rest, entries.reverse ++ redoStack⟩ := by
  induction entries generalizing s' redoStack with
  | nil =>
    obtain rfl : s = s' := h
    rfl
  | cons entry entries ih =>
    obtain ⟨previous, hprevious, rfl, -⟩ := h
    rw [List.length_cons, Function.iterate_succ_apply]
    show (undo revert)^[entries.length] ⟨revert entry s', entries ++ rest, entry :: redoStack⟩ = _
    rw [ih hprevious, List.reverse_cons, List.append_assoc]
    rfl

theorem redo_iterate (h : Leads revert apply entries s s') (rest redoStack : List τ) :
    (redo apply)^[entries.length] ⟨s, rest, entries.reverse ++ redoStack⟩ =
      ⟨s', entries ++ rest, redoStack⟩ := by
  induction entries generalizing s' redoStack with
  | nil =>
    obtain rfl : s = s' := h
    rfl
  | cons entry entries ih =>
    obtain ⟨previous, hprevious, -, happly⟩ := h
    rw [List.length_cons, Function.iterate_succ_apply', List.reverse_cons, List.append_assoc,
      ih hprevious]
    show (⟨apply entry previous, entry :: (entries ++ rest), redoStack⟩ : Stacks σ τ) = _
    rw [happly]
    rfl

/-- A refinement of the stacks is undone and redone as they are. -/
theorem iterate_refines {α : Type*} {abstract : α → Stacks σ τ} {step : α → α}
    {step' : Stacks σ τ → Stacks σ τ} (h : ∀ a, abstract (step a) = step' (abstract a)) (n : ℕ)
    (a : α) : abstract (step^[n] a) = step'^[n] (abstract a) :=
  Function.Semiconj.iterate_right (f := abstract) h n a

end UndoRedo
