import Mathlib.Data.List.Induction

/-!
# Who holds what, by a history

The entries of a history take and free what their keys name.  A coarser key, which may give two
different things one name, tells the same story as long as no entry ever meets something else
that is held under its name.
-/

namespace Holding

inductive Kind
  | takes
  | frees
  | neither
  deriving DecidableEq

variable {ε κ κ' : Type*} [DecidableEq κ] (kind : ε → Kind) (key : ε → κ)

/-- What is held under each key, after one more entry. -/
def hold (held : κ → Option ε) (entry : ε) : κ → Option ε :=
  match kind entry with
  | .takes => Function.update held (key entry) (some entry)
  | .frees => Function.update held (key entry) none
  | .neither => held

/-- What is held under each key after a history: the entry that took it last. -/
def held (history : List ε) : κ → Option ε := history.foldl (hold kind key) fun _ => none

/-- The entry took what it names, and it is still held. -/
def Holds (history : List ε) (entry : ε) : Prop := held kind key history (key entry) = some entry

variable {kind key}

theorem held_concat (history : List ε) (entry : ε) :
    held kind key (history ++ [entry]) = hold kind key (held kind key history) entry :=
  List.foldl_append

variable {history : List ε}

/-- What an entry leaves held: itself if it takes, and what others named differently. -/
theorem holds_concat_iff {last entry : ε} :
    Holds kind key (history ++ [last]) entry ↔
      (kind last = .takes ∧ entry = last) ∨
      (Holds kind key history entry ∧ (kind last = .neither ∨ key entry ≠ key last)) := by
  unfold Holds
  rw [held_concat, hold]
  cases hkind : kind last with
  | takes =>
    by_cases hkey : key entry = key last
    · simp [hkey, eq_comm]
    · have hne : entry ≠ last := fun heq => hkey (congrArg key heq)
      simp [hkey, hne]
  | frees =>
    by_cases hkey : key entry = key last
    · simp [hkey]
    · simp [hkey]
  | neither => simp

/-- The entry took what it names, and nothing has freed that since. -/
def Unfreed (kind : ε → Kind) (key : ε → κ) (history : List ε) (entry : ε) : Prop :=
  ∃ front rest, history = front ++ entry :: rest ∧ kind entry = .takes ∧
    ∀ later ∈ rest, kind later = .frees → key later ≠ key entry

omit [DecidableEq κ] in
theorem Unfreed.of_concat {last entry : ε} (h : Unfreed kind key (history ++ [last]) entry) :
    (kind last = .takes ∧ entry = last) ∨
    (Unfreed kind key history entry ∧ (kind last = .frees → key last ≠ key entry)) := by
  obtain ⟨front, rest, heq, hkind, hrest⟩ := h
  rcases List.eq_nil_or_concat rest with rfl | ⟨rest, final, rfl⟩
  · obtain ⟨-, hlast⟩ := List.append_inj' heq rfl
    obtain rfl : last = entry := by simpa using hlast
    exact .inl ⟨hkind, rfl⟩
  · rw [List.concat_eq_append, ← List.cons_append, ← List.append_assoc] at heq
    obtain ⟨hhistory, hlast⟩ := List.append_inj' heq rfl
    obtain rfl : last = final := by simpa using hlast
    refine .inr ⟨⟨front, rest, hhistory, hkind, fun later hlater => ?_⟩, ?_⟩
    · exact hrest later (by simp [hlater])
    · exact hrest last (by simp)

variable {entry : ε}

/-- What was taken and not freed is held by whoever took it last. -/
theorem Unfreed.exists_holds (h : Unfreed kind key history entry) :
    ∃ holder, Holds kind key history holder ∧ key holder = key entry := by
  induction history using List.reverseRecOn with
  | nil =>
    obtain ⟨front, rest, heq, -⟩ := h
    exact absurd heq (by simp)
  | append_singleton history last ih =>
    rcases h.of_concat with ⟨hkind, rfl⟩ | ⟨hunfreed, hlast⟩
    · exact ⟨entry, holds_concat_iff.mpr (.inl ⟨hkind, rfl⟩), rfl⟩
    · obtain ⟨holder, hholds, hkey⟩ := ih hunfreed
      cases hkind : kind last with
      | neither => exact ⟨holder, holds_concat_iff.mpr (.inr ⟨hholds, .inl hkind⟩), hkey⟩
      | frees =>
        have hne : key holder ≠ key last := by
          rw [hkey]
          exact (hlast hkind).symm
        exact ⟨holder, holds_concat_iff.mpr (.inr ⟨hholds, .inr hne⟩), hkey⟩
      | takes =>
        by_cases hsame : key last = key entry
        · exact ⟨last, holds_concat_iff.mpr (.inl ⟨hkind, rfl⟩), hsame⟩
        · have hne : key holder ≠ key last := by
            rw [hkey]
            exact Ne.symm hsame
          exact ⟨holder, holds_concat_iff.mpr (.inr ⟨hholds, .inr hne⟩), hkey⟩

theorem key_of_held {k : κ} (h : held kind key history k = some entry) : key entry = k := by
  induction history using List.reverseRecOn with
  | nil => cases h
  | append_singleton history last ih =>
    rw [held_concat, hold] at h
    cases hkind : kind last with
    | takes =>
      rw [hkind] at h
      dsimp only at h
      rw [Function.update_apply] at h
      split at h
      next heq => rw [← Option.some.inj h, heq]
      next => exact ih h
    | frees =>
      rw [hkind] at h
      dsimp only at h
      rw [Function.update_apply] at h
      split at h
      · cases h
      · exact ih h
    | neither =>
      rw [hkind] at h
      exact ih h

omit [DecidableEq κ] in
theorem Unfreed.mem (h : Unfreed kind key history entry) : entry ∈ history := by
  obtain ⟨front, rest, rfl, -⟩ := h
  exact List.mem_append_right _ List.mem_cons_self

omit [DecidableEq κ] in
theorem Unfreed.takes (h : Unfreed kind key history entry) : kind entry = .takes := by
  obtain ⟨front, rest, -, htakes, -⟩ := h
  exact htakes

/-- What is held has been taken, and not freed since. -/
theorem Holds.unfreed (h : Holds kind key history entry) : Unfreed kind key history entry := by
  induction history using List.reverseRecOn with
  | nil => cases h
  | append_singleton history last ih =>
    obtain ⟨htakes, rfl⟩ | ⟨hholds, hlast⟩ := holds_concat_iff.mp h
    · exact ⟨history, [], rfl, htakes, fun later hlater => absurd hlater List.not_mem_nil⟩
    · obtain ⟨front, rest, rfl, htakes, hrest⟩ := ih hholds
      refine ⟨front, rest ++ [last], by simp, htakes, fun later hlater hfrees => ?_⟩
      obtain hlater | hlater := List.mem_append.mp hlater
      · exact hrest later hlater hfrees
      · rw [List.mem_singleton.mp hlater] at hfrees ⊢
        obtain hneither | hne := hlast
        · rw [hneither] at hfrees
          cases hfrees
        · exact Ne.symm hne

/-- No entry of the history meets something else that is held under its coarser name. -/
def Apart (kind : ε → Kind) (key : ε → κ) (coarse : ε → κ') (history : List ε) : Prop :=
  ∀ front entry rest, history = front ++ entry :: rest → kind entry ≠ .neither →
    ∀ other, Holds kind key front other → key other ≠ key entry → coarse other ≠ coarse entry

variable {coarse : ε → κ'}

theorem Apart.front {front rest : List ε} (h : Apart kind key coarse (front ++ rest)) :
    Apart kind key coarse front := by
  rintro before entry after rfl hkind other hholds hkey
  exact h before entry (after ++ rest) (by simp) hkind other hholds hkey

theorem mem_of_holds (h : Holds kind key history entry) : entry ∈ history := by
  induction history using List.reverseRecOn with
  | nil => cases h
  | append_singleton history last ih =>
    rcases holds_concat_iff.mp h with ⟨-, rfl⟩ | ⟨hholds, -⟩
    · simp
    · exact List.mem_append_left _ (ih hholds)

/-- Coarser names that are good enough for the entries of the history. -/
theorem Apart.of_separated (h : ∀ a ∈ history, ∀ b ∈ history, coarse a = coarse b → key a = key b) :
    Apart kind key coarse history := by
  rintro front entry rest rfl - other hholds hkey hcoarse
  have hother : other ∈ front ++ entry :: rest := List.mem_append_left _ (mem_of_holds hholds)
  exact hkey (h other hother entry (by simp) hcoarse)

/-- **The coarser names tell the same story.** -/
theorem holds_coarse_iff [DecidableEq κ'] (hcoarse : ∀ a b, key a = key b → coarse a = coarse b)
    (happart : Apart kind key coarse history) :
    Holds kind coarse history entry ↔ Holds kind key history entry := by
  induction history using List.reverseRecOn generalizing entry with
  | nil => exact Iff.rfl
  | append_singleton history last ih =>
    have ih : ∀ entry, Holds kind coarse history entry ↔ Holds kind key history entry :=
      fun _ => ih happart.front
    rw [holds_concat_iff, holds_concat_iff, ih entry]
    refine or_congr Iff.rfl (and_congr_right fun hholds => ?_)
    by_cases hkind : kind last = .neither
    · simp [hkind]
    · simp only [hkind, false_or]
      constructor
      · exact fun hne hkey => hne (hcoarse _ _ hkey)
      · exact happart history last [] rfl hkind entry hholds

end Holding
