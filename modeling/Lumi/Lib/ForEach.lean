import Mathlib.Data.List.Basic

/-!
# Loops that stop at the first error

A body is run for the items of a list, one after the other, on a state that it may have changed by
the time it throws.  A body without an answer leaves the loop without one.
-/

namespace ForEach

open List

variable {ι σ ε : Type*}

/-- `for (const x of xs) body(x)`. -/
def forEach (body : ι → σ → Option (Except ε Unit × σ)) : List ι → σ → Option (Except ε Unit × σ)
  | [], s => some (.ok (), s)
  | x :: rest, s =>
    match body x s with
    | some (.ok _, s) => forEach body rest s
    | stopped => stopped

variable {body body' : ι → σ → Option (Except ε Unit × σ)} {xs : List ι} {s s' : σ}
  {out : Except ε Unit × σ}

theorem forEach_cons_ok {x : ι} (h : body x s = some (.ok (), s')) (rest : List ι) :
    forEach body (x :: rest) s = forEach body rest s' := by
  rw [forEach, h]

theorem forEach_cons_error {x : ι} {e : ε} (h : body x s = some (.error e, s')) (rest : List ι) :
    forEach body (x :: rest) s = some (.error e, s') := by
  rw [forEach, h]

/-- The first round has an answer, and is the last one or is followed by the others. -/
theorem forEach_cons_cases {x : ι} {rest : List ι} (h : forEach body (x :: rest) s = some out) :
    (∃ s', body x s = some (.ok (), s') ∧ forEach body rest s' = some out) ∨
      ∃ e s', body x s = some (.error e, s') ∧ out = (.error e, s') := by
  rw [forEach] at h
  split at h
  · next s' hbody => exact .inl ⟨s', hbody, h⟩
  · next hnotOk =>
    obtain ⟨r, s'⟩ := out
    cases r with
    | ok _ => exact absurd h (hnotOk () s')
    | error e => exact .inr ⟨e, s', h, rfl⟩

/-- Answers that a body keeps, the loop keeps. -/
theorem forEach_mono (hbody : ∀ x s out, body x s = some out → body' x s = some out)
    (h : forEach body xs s = some out) : forEach body' xs s = some out := by
  induction xs generalizing s with
  | nil => exact h
  | cons x rest ih =>
    rcases forEach_cons_cases h with ⟨s', hx, hrest⟩ | ⟨e, s', hx, rfl⟩
    · rw [forEach_cons_ok (hbody _ _ _ hx)]
      exact ih hrest
    · exact forEach_cons_error (hbody _ _ _ hx) rest

/-- Rounds that do nothing can be left out. -/
theorem forEach_append_of_idle {before rest : List ι}
    (hidle : ∀ x ∈ before, ∀ out, body x s = some out → out = (.ok (), s))
    (h : forEach body (before ++ rest) s = some out) : forEach body rest s = some out := by
  induction before with
  | nil => exact h
  | cons x before ih =>
    rw [cons_append] at h
    rcases forEach_cons_cases h with ⟨s', hx, hrest⟩ | ⟨e, s', hx, -⟩
    · obtain ⟨-, rfl⟩ := Prod.mk.inj (hidle x mem_cons_self _ hx)
      exact ih (fun y hy => hidle y (mem_cons_of_mem x hy)) hrest
    · cases (Prod.mk.inj (hidle x mem_cons_self _ hx)).1

theorem forEach_of_idle (hidle : ∀ x ∈ xs, ∀ out, body x s = some out → out = (.ok (), s))
    (h : forEach body xs s = some out) : out = (.ok (), s) := by
  rw [← append_nil xs] at h
  exact (Option.some.inj (forEach_append_of_idle hidle h)).symm

/-- A round that throws and changes nothing, after rounds that do nothing, is the whole loop. -/
theorem forEach_of_refused {before after : List ι} {x : ι}
    (hidle : ∀ y ∈ before, ∀ out, body y s = some out → out = (.ok (), s))
    (hrefused : ∀ out, body x s = some out → ∃ e, out = (.error e, s))
    (h : forEach body (before ++ x :: after) s = some out) : ∃ e, out = (.error e, s) := by
  rcases forEach_cons_cases (forEach_append_of_idle hidle h) with ⟨s', hx, -⟩ | ⟨e, s', hx, rfl⟩
  · obtain ⟨e, heq⟩ := hrefused _ hx
    cases (Prod.mk.inj heq).1
  · exact hrefused _ hx

variable {I : σ → Prop}

/-- Where a body has an answer in some number of rounds, and keeps its answers in more, a loop over
it has one. -/
theorem forEach_terminates {body : ℕ → ι → σ → Option (Except ε Unit × σ)}
    (hbody : ∀ x ∈ xs, ∀ s, I s → ∃ n s', body n x s = some (.ok (), s') ∧ I s') (hs : I s)
    (hmono : ∀ {m n : ℕ}, m ≤ n → ∀ x s out, body m x s = some out → body n x s = some out) :
    ∃ n s', forEach (body n) xs s = some (.ok (), s') := by
  induction xs generalizing s with
  | nil => exact ⟨0, s, rfl⟩
  | cons x rest ih =>
    obtain ⟨m, s₁, hx, hs₁⟩ := hbody x mem_cons_self s hs
    obtain ⟨n, s', hrest⟩ := ih (fun y hy => hbody y (mem_cons_of_mem x hy)) hs₁
    refine ⟨max m n, s', ?_⟩
    rw [forEach_cons_ok (hmono (Nat.le_max_left m n) _ _ _ hx)]
    exact forEach_mono (hmono (Nat.le_max_right m n)) hrest

/-! ## Invariants -/

/-- What every round keeps, the loop keeps. -/
theorem forEach_invariant (hbody : ∀ x ∈ xs, ∀ s out, I s → body x s = some out → I out.2)
    (hs : I s) (h : forEach body xs s = some out) : I out.2 := by
  induction xs generalizing s with
  | nil =>
    obtain rfl := Option.some.inj h
    exact hs
  | cons x rest ih =>
    rcases forEach_cons_cases h with ⟨s', hx, hrest⟩ | ⟨e, s', hx, rfl⟩
    · exact ih (fun y hy => hbody y (mem_cons_of_mem x hy))
        (hbody x mem_cons_self s _ hs hx) hrest
    · exact hbody x mem_cons_self s _ hs hx

/-- What the round of an item establishes and the other rounds keep holds of every item after a
loop that comes to its end. -/
theorem forEach_establishes {Q : ι → σ → Prop}
    (hbody : ∀ x ∈ xs, ∀ s s', I s → body x s = some (.ok (), s') → I s' ∧ Q x s' ∧
      ∀ y, Q y s → Q y s') (hs : I s) (h : forEach body xs s = some (.ok (), s')) :
    I s' ∧ (∀ x ∈ xs, Q x s') ∧ ∀ y, Q y s → Q y s' := by
  induction xs generalizing s with
  | nil =>
    obtain ⟨-, rfl⟩ := Prod.mk.inj (Option.some.inj h)
    exact ⟨hs, fun x hx => absurd hx not_mem_nil, fun y hy => hy⟩
  | cons x rest ih =>
    rcases forEach_cons_cases h with ⟨s₁, hx, hrest⟩ | ⟨e, s₁, -, hout⟩
    · obtain ⟨hs₁, hQ, hkeep⟩ := hbody x mem_cons_self s s₁ hs hx
      obtain ⟨hs', hall, hkeep'⟩ :=
        ih (fun y hy => hbody y (mem_cons_of_mem x hy)) hs₁ hrest
      exact ⟨hs', forall_mem_cons.mpr ⟨hkeep' x hQ, hall⟩,
        fun y hy => hkeep' y (hkeep y hy)⟩
    · cases (Prod.mk.inj hout).1

/-- The rounds of a loop that left the state alone, by its result: all of them came to their end, or
the first ones did, up to one that threw. -/
def Rounds (R : ι → Except ε Unit → Prop) (xs : List ι) : Except ε Unit → Prop
  | .ok _ => ∀ x ∈ xs, R x (.ok ())
  | .error e => ∃ before x after, xs = before ++ x :: after ∧ (∀ y ∈ before, R y (.ok ())) ∧
      R x (.error e)

/-- If every round leaves a mark or leaves the state alone, so does the loop. -/
theorem forEach_marked_or_untouched {I M : σ → Prop} {R : ι → Except ε Unit → σ → Prop}
    (hbody : ∀ x ∈ xs, ∀ s r s', I s → body x s = some (r, s') → I s' ∧ (M s' ∨ s' = s ∧ R x r s))
    (hs : I s) {r : Except ε Unit} (h : forEach body xs s = some (r, s')) :
    I s' ∧ (M s' ∨ s' = s ∧ Rounds (fun x r => R x r s) xs r) := by
  induction xs generalizing s with
  | nil =>
    obtain ⟨rfl, rfl⟩ := Prod.mk.inj (Option.some.inj h)
    exact ⟨hs, .inr ⟨rfl, fun x hx => absurd hx not_mem_nil⟩⟩
  | cons x rest ih =>
    have hrests := fun y hy => hbody y (mem_cons_of_mem x hy)
    rcases forEach_cons_cases h with ⟨s₁, hx, hrest⟩ | ⟨e, s₁, hx, hout⟩
    · obtain ⟨hs₁, hmark⟩ := hbody x mem_cons_self s _ s₁ hs hx
      obtain ⟨hs', hmark'⟩ := ih hrests hs₁ hrest
      refine ⟨hs', ?_⟩
      rcases hmark' with hmarked | ⟨rfl, hrounds⟩
      · exact .inl hmarked
      · rcases hmark with hmarked | ⟨rfl, hfirst⟩
        · exact .inl hmarked
        · refine .inr ⟨rfl, ?_⟩
          cases r with
          | ok _ => exact forall_mem_cons.mpr ⟨hfirst, hrounds⟩
          | error e =>
            obtain ⟨before, y, after, rfl, hbefore, hy⟩ := hrounds
            exact ⟨x :: before, y, after, rfl, forall_mem_cons.mpr ⟨hfirst, hbefore⟩, hy⟩
    · obtain ⟨rfl, rfl⟩ := Prod.mk.inj hout
      obtain ⟨hs', hmark⟩ := hbody x mem_cons_self s _ s' hs hx
      refine ⟨hs', hmark.imp_right fun ⟨hsame, hfirst⟩ => ⟨hsame, ?_⟩⟩
      exact ⟨[], x, rest, rfl, fun y hy => absurd hy not_mem_nil, hfirst⟩

end ForEach
