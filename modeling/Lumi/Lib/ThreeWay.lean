import Mathlib.Tactic.SplitIfs

/-!
# Three-way merges

The state of one thing on two sides that have moved on from a common base: what both
agree on, or what the side has that alone differs from the base; else there is a conflict.

`mergeBy` compares the states by a `view` of them, and takes the other side's state only
if there is one.  Against the rule it `Refuses` a deletion on one side, it `Overlooks` a
conflict with a change that the view does not show, and where theirs alone has made such
a change it keeps our state (`Loses`).
-/

namespace ThreeWay

variable {σ τ : Type*} [DecidableEq σ] [DecidableEq τ]

/-- The merged state; `none` is a conflict. -/
def merge (base ours theirs : σ) : Option σ :=
  if ours = theirs then some ours
  else if ours = base then some theirs
  else if theirs = base then some ours
  else none

/-- The same by a view of the states, where a side is taken for the other only if present. -/
def mergeBy (view : σ → τ) (present : σ → Bool) (base ours theirs : σ) : Option σ :=
  if view ours = view theirs then some ours
  else if view ours = view base ∧ present theirs then some theirs
  else if view theirs = view base ∧ present ours then some ours
  else none

variable (view : σ → τ) (present : σ → Bool) (base ours theirs : σ)

/-- One side has nothing any more, and the other is as it was. -/
def Refuses : Prop :=
  view ours ≠ view theirs ∧
    ((ours = base ∧ present theirs = false) ∨ (theirs = base ∧ present ours = false))

/-- Both sides have changed, one of them or both in a way that the view does not show. -/
def Overlooks : Prop :=
  ours ≠ theirs ∧ ours ≠ base ∧ theirs ≠ base ∧
    (view ours = view theirs ∨ (view ours = view base ∧ present theirs = true) ∨
      (view theirs = view base ∧ present ours = true))

/-- Only theirs has changed, in a way that the view does not show. -/
def Loses : Prop := ours = base ∧ theirs ≠ base ∧ view ours = view theirs

instance : Decidable (Refuses view present base ours theirs) :=
  inferInstanceAs (Decidable (_ ∧ _))

instance : Decidable (Overlooks view present base ours theirs) :=
  inferInstanceAs (Decidable (_ ∧ _))

instance : Decidable (Loses view base ours theirs) := inferInstanceAs (Decidable (_ ∧ _))

variable {view present base ours theirs}

omit [DecidableEq τ] in
theorem merge_eq_none_iff :
    merge base ours theirs = none ↔ ours ≠ theirs ∧ ours ≠ base ∧ theirs ≠ base := by
  unfold merge
  split_ifs <;> simp_all

theorem refuses_iff :
    Refuses view present base ours theirs ↔
      mergeBy view present base ours theirs = none ∧ merge base ours theirs ≠ none := by
  rw [ne_eq, merge_eq_none_iff]
  unfold Refuses mergeBy
  constructor
  · rintro ⟨hview, ⟨rfl, habsent⟩ | ⟨rfl, habsent⟩⟩
    · simp [hview, Ne.symm hview, habsent]
    · simp [hview, habsent]
  · rintro ⟨hby, hrule⟩
    split_ifs at hby with h₁ h₂ h₃
    refine ⟨h₁, ?_⟩
    by_cases hours : ours = base
    · subst hours
      exact .inl ⟨rfl, by simpa using h₂⟩
    · by_cases htheirs : theirs = base
      · subst htheirs
        exact .inr ⟨rfl, by simpa using h₃⟩
      · exact absurd ⟨fun h => h₁ (congrArg view h), hours, htheirs⟩ hrule

theorem overlooks_iff :
    Overlooks view present base ours theirs ↔
      mergeBy view present base ours theirs ≠ none ∧ merge base ours theirs = none := by
  rw [merge_eq_none_iff]
  unfold Overlooks mergeBy
  split_ifs with h₁ h₂ h₃ <;> simp_all

theorem loses_iff :
    Loses view base ours theirs ↔
      ∃ state, mergeBy view present base ours theirs = some state ∧
        ∃ chosen, merge base ours theirs = some chosen ∧ state ≠ chosen := by
  unfold Loses mergeBy merge
  constructor
  · rintro ⟨rfl, hne, hview⟩
    refine ⟨ours, if_pos hview, theirs, ?_, Ne.symm hne⟩
    rw [if_neg (Ne.symm hne), if_pos rfl]
  · rintro ⟨state, hby, chosen, hrule, hne⟩
    by_cases hview : view ours = view theirs
    · rw [if_pos hview] at hby
      obtain rfl := Option.some.inj hby
      split_ifs at hrule with hagree hours htheirs
      · exact absurd (Option.some.inj hrule) hne
      · obtain rfl := Option.some.inj hrule
        exact ⟨hours, fun h => hagree (hours.trans h.symm), hview⟩
      · exact absurd (Option.some.inj hrule) hne
    · -- a side is taken that differs from the base, so the other one does not
      exfalso
      rw [if_neg hview] at hby
      split_ifs at hby hrule <;> simp_all

/-- Whatever is taken, the view shows what the rule chooses. -/
theorem view_eq {state chosen : σ} (hby : mergeBy view present base ours theirs = some state)
    (hrule : merge base ours theirs = some chosen) : view state = view chosen := by
  by_cases heq : state = chosen
  · rw [heq]
  · obtain ⟨hours, htheirs, hview⟩ :=
      (@loses_iff _ _ _ _ _ present _ _ _).mpr ⟨state, hby, chosen, hrule, heq⟩
    rw [mergeBy, if_pos hview] at hby
    rw [merge, if_neg fun h => htheirs (h.symm.trans hours), if_pos hours] at hrule
    rw [← Option.some.inj hby, ← Option.some.inj hrule, hview]

omit [DecidableEq σ] in
/-- The view does not show which side is which. -/
theorem mergeBy_swap : (mergeBy view present base theirs ours).map view
    = (mergeBy view present base ours theirs).map view := by
  unfold mergeBy
  split_ifs <;> simp_all

end ThreeWay
