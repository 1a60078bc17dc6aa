import Lumi.Cas.Calls
import Lumi.Cas.Merge

/-!
# The search for the first bad commit

A bisect session has a good commit and a bad one that descends from it.  Its candidates are the
commits from the bad one back to the good one, without the oldest of those that come after the good
one; the one in the middle is tested, and takes the place of the good or the bad commit.  The session
is resolved when at most one candidate is left.

The oldest commit is never a candidate, so the interval ends with one commit, and no culprit, or with
two, of which the newer is called the culprit.  The first bad commit is found if and only if the
interval ends with two commits of which it is the newer (`bisect_finds_iff`).
-/

namespace Lumi.Cas

open Js List

inductive Verdict
  | good
  | bad
  deriving DecidableEq

structure CheckpointBisectState where
  goodCommitId : Text
  badCommitId : Text
  currentCandidateId : Option Text
  remainingCandidates : List Text
  isResolved : Bool
  culpritCommitId : Option Text
  stepCount : ℕ
  deriving DecidableEq

structure CheckpointBisectResult where
  state : CheckpointBisectState
  recommendation : Text
  deriving DecidableEq

namespace CasStore

/-- What `startBisect` makes of the candidates. -/
def bisectResult (s : CasStore) (goodCommitId badCommitId : Text) (candidates : List Text) :
    CheckpointBisectResult :=
  let currentCandidateId := candidates[candidates.length / 2]?
  let frameIndex := ((currentCandidateId.bind s.getCommit).map CheckpointNode.frameIndex).getD 0
  { state :=
      { goodCommitId
        badCommitId
        currentCandidateId
        remainingCandidates := candidates
        isResolved := decide (candidates.length ≤ 1)
        culpritCommitId := if candidates.length = 1 then candidates[0]? else none
        stepCount := 1 }
    recommendation := text "Bisect testing candidate commit #" ++ text (toString frameIndex) ++
      text ": " ++ currentCandidateId.getD (text "undefined") }

/-- `startBisect`, where it returns. -/
def startBisect (s : CasStore) (goodCommitId badCommitId : Text) : Option CheckpointBisectResult :=
  (s.walk (fun id => decide (id = goodCommitId ∨ id = text "root")) badCommitId).map fun r =>
    s.bisectResult goodCommitId badCommitId r.1.dropLast

/-- `stepBisect` of the session that is active, if there is one; it throws if there is none. -/
def stepBisect (s : CasStore) (activeBisectState : Option CheckpointBisectState)
    (verdict : Verdict) : Except Text (Option CheckpointBisectResult) :=
  match activeBisectState with
  | none => .error (text "No active bisect session")
  | some state =>
    match verdict, truthy state.currentCandidateId with
    | .good, some candidate => .ok (s.startBisect candidate state.badCommitId)
    | .bad, some candidate => .ok (s.startBisect state.goodCommitId candidate)
    | _, none => .ok (s.startBisect state.goodCommitId state.badCommitId)

/-! ## Sessions -/

/-- The session finds the culprit: it is resolved and says so, or a commit is recommended and the
session that goes on with the verdict on it finds the culprit. -/
inductive Finds (s : CasStore) (verdict : Text → Verdict) (culprit : Text) :
    CheckpointBisectState → Prop
  | resolved {state : CheckpointBisectState} (hresolved : state.isResolved = true)
      (hculprit : state.culpritCommitId = some culprit) : Finds s verdict culprit state
  | step {state : CheckpointBisectState} {candidate : Text} {result : CheckpointBisectResult}
      (hopen : state.isResolved = false) (hcandidate : state.currentCandidateId = some candidate)
      (hstep : s.stepBisect (some state) (verdict candidate) = .ok (some result))
      (hfinds : Finds s verdict culprit result.state) : Finds s verdict culprit state

/-- From the good and the bad commit on the session finds the culprit. -/
def BisectFinds (s : CasStore) (verdict : Text → Verdict) (goodCommitId badCommitId culprit : Text) :
    Prop :=
  ∃ result, s.startBisect goodCommitId badCommitId = some result ∧
    Finds s verdict culprit result.state

/-- Commits in a row, each the parent of the next one. -/
structure LinearHistory (s : CasStore) (commit : ℕ → Text) (n : ℕ) : Prop where
  parentOf : ∀ i < n, s.parentOf (commit (i + 1)) = some (commit i)
  distinct : ∀ i ≤ n, ∀ j ≤ n, commit i = commit j → i = j
  truthy : ∀ i ≤ n, truthy (some (commit i)) = some (commit i)
  notRoot : ∀ i ≤ n, commit i ≠ text "root"

/-- The verdicts are true of a history with the given first bad commit. -/
def Truthful (verdict : Text → Verdict) (commit : ℕ → Text) (n first : ℕ) : Prop :=
  ∀ i ≤ n, verdict (commit i) = if first ≤ i then .bad else .good

/-- Of so many commits, counted from the oldest, the one that is halved down to as the newer of two:
while there are more than two, they are cut after one more than a half. -/
inductive NewerOfTwo : ℕ → ℕ → Prop
  | two : NewerOfTwo 2 2
  | older {m k : ℕ} (hm : 3 ≤ m) (hk : k ≤ m / 2 + 1) (h : NewerOfTwo (m / 2 + 1) k) :
      NewerOfTwo m k
  | newer {m k : ℕ} (hm : 3 ≤ m) (hk : m / 2 + 1 < k)
      (h : NewerOfTwo ((m - 1) / 2) (k - (m / 2 + 1))) : NewerOfTwo m k

variable {s : CasStore} {verdict : Text → Verdict} {commit : ℕ → Text} {n first : ℕ}

/-! ## The candidates -/

variable {i m : ℕ}

/-- The way back from one commit of the history to another. -/
theorem LinearHistory.walk (h : s.LinearHistory commit n) (hle : i + m ≤ n) :
    s.walk (fun id => decide (id = commit i ∨ id = text "root")) (commit (i + m))
      = some ((List.range m).map fun t => commit (i + m - t), some (commit i)) := by
  have hwalk : ParentChain.walk s.parentOf (fun id => decide (id = commit i ∨ id = text "root"))
      (m + 1) (some (commit (i + m)))
        = some ((List.range m).map fun t => commit (i + m - t), some (commit i)) := by
    induction m with
    | zero =>
      rw [ParentChain.walk, if_pos (decide_eq_true (.inl rfl))]
      rfl
    | succ m ih =>
      have hne : ¬ (commit (i + (m + 1)) = commit i ∨ commit (i + (m + 1)) = text "root") := by
        rintro (heq | heq)
        · have := h.distinct (i + (m + 1)) hle i (by omega) heq
          omega
        · exact h.notRoot (i + (m + 1)) hle heq
      rw [ParentChain.walk, if_neg (fun hstop => hne (of_decide_eq_true hstop)), ← Nat.add_assoc,
        h.parentOf (i + m) (by omega), ih (by omega), range_succ_eq_map, map_cons,
        map_map]
      refine congrArg some (Prod.ext (congrArg (List.cons _) ?_) rfl)
      refine map_congr_left fun t _ => ?_
      have hindex : i + m - t = i + (m + 1) - (t + 1) := by omega
      exact congrArg commit hindex
  rw [← h.truthy (i + m) hle] at hwalk
  exact walk_of_exists hwalk

/-- The candidates of a session on so many commits of the history. -/
theorem LinearHistory.startBisect (h : s.LinearHistory commit n) (hle : i + m ≤ n) :
    s.startBisect (commit i) (commit (i + m)) = some (s.bisectResult (commit i) (commit (i + m))
      ((List.range (m - 1)).map fun t => commit (i + m - t))) := by
  have hcandidates : ((List.range m).map fun t => commit (i + m - t)).dropLast
      = (List.range (m - 1)).map fun t => commit (i + m - t) := by
    cases m with
    | zero => rfl
    | succ m => rw [range_succ, map_append, map_singleton, dropLast_concat,
        Nat.add_sub_cancel]
  rw [CasStore.startBisect, h.walk hle, Option.map_some, hcandidates]

/-- The session is resolved when two commits are left, or one. -/
theorem finds_iff_of_le_two {culprit : Text} (hm : m ≤ 2) :
    s.Finds verdict culprit (s.bisectResult (commit i) (commit (i + m))
      ((List.range (m - 1)).map fun t => commit (i + m - t))).state ↔
      m = 2 ∧ commit (i + m) = culprit := by
  constructor
  · intro hfinds
    cases hfinds with
    | resolved _ hculprit =>
      obtain rfl | hlt : m = 2 ∨ m - 1 = 0 := by omega
      · exact ⟨rfl, Option.some.inj hculprit⟩
      · rw [hlt] at hculprit
        cases hculprit
    | step hopen =>
      have hlength : ¬ ((List.range (m - 1)).map fun t => commit (i + m - t)).length ≤ 1 :=
        of_decide_eq_false hopen
      rw [length_map, length_range] at hlength
      omega
  · rintro ⟨rfl, rfl⟩
    exact .resolved rfl rfl

/-- Where there are more, it goes on with one part of them. -/
theorem finds_iff_of_three_le (h : s.LinearHistory commit n)
    (htrue : Truthful verdict commit n first) (hle : i + m ≤ n) (hm : 3 ≤ m) {culprit : Text} :
    s.Finds verdict culprit (s.bisectResult (commit i) (commit (i + m))
      ((List.range (m - 1)).map fun t => commit (i + m - t))).state ↔
      ∃ result, (if first ≤ i + (m / 2 + 1)
        then s.startBisect (commit i) (commit (i + (m / 2 + 1)))
        else s.startBisect (commit (i + (m / 2 + 1))) (commit (i + m))) = some result ∧
        s.Finds verdict culprit result.state := by
  obtain ⟨state, hstate⟩ : ∃ state, state = (s.bisectResult (commit i) (commit (i + m))
    ((List.range (m - 1)).map fun t => commit (i + m - t))).state := ⟨_, rfl⟩
  have hopen : state.isResolved = false := by
    rw [hstate]
    refine decide_eq_false ?_
    rw [length_map, length_range]
    omega
  have hcandidate : state.currentCandidateId = some (commit (i + (m / 2 + 1))) := by
    have hmid : (m - 1) / 2 < m - 1 := by omega
    have hindex : i + m - (m - 1) / 2 = i + (m / 2 + 1) := by omega
    rw [hstate]
    show ((List.range (m - 1)).map fun t => commit (i + m - t))[_]? = _
    rw [length_map, length_range, getElem?_map, getElem?_range hmid,
      Option.map_some, hindex]
  have hstep : s.stepBisect (some state) (verdict (commit (i + (m / 2 + 1)))) =
      .ok (if first ≤ i + (m / 2 + 1) then s.startBisect (commit i) (commit (i + (m / 2 + 1)))
        else s.startBisect (commit (i + (m / 2 + 1))) (commit (i + m))) := by
    have htruthy : truthy state.currentCandidateId = some (commit (i + (m / 2 + 1))) := by
      rw [hcandidate, h.truthy _ (by omega)]
    have hgood : state.goodCommitId = commit i := by rw [hstate]; rfl
    have hbad : state.badCommitId = commit (i + m) := by rw [hstate]; rfl
    rw [htrue _ (by omega)]
    by_cases hfirst : first ≤ i + (m / 2 + 1)
    · simp only [stepBisect, if_pos hfirst, htruthy, hgood]
    · simp only [stepBisect, if_neg hfirst, htruthy, hbad]
  rw [← hstate]
  constructor
  · intro hfinds
    cases hfinds with
    | resolved hresolved =>
      rw [hopen] at hresolved
      cases hresolved
    | @step _ candidate result _ hcandidate' hstep' hfinds =>
      obtain rfl := Option.some.inj (hcandidate.symm.trans hcandidate')
      rw [hstep] at hstep'
      exact ⟨result, Except.ok.inj hstep', hfinds⟩
  · rintro ⟨result, hresult, hfinds⟩
    exact .step hopen hcandidate (hstep.trans (congrArg Except.ok hresult)) hfinds

/-- A session on part of the history. -/
theorem LinearHistory.finds_iff (h : s.LinearHistory commit n)
    (htrue : Truthful verdict commit n first) {i m k : ℕ} (hle : i + m ≤ n) (hpos : 1 ≤ k)
    (hk : k ≤ m) (hfirst : first = i + k) :
    s.Finds verdict (commit first) (s.bisectResult (commit i) (commit (i + m))
      ((List.range (m - 1)).map fun t => commit (i + m - t))).state ↔ NewerOfTwo m k := by
  -- the induction is on the number of commits that are left
  induction m using Nat.strong_induction_on generalizing i k with
  | _ m ih =>
    by_cases hm : m ≤ 2
    · rw [finds_iff_of_le_two hm]
      constructor
      · rintro ⟨rfl, heq⟩
        have hlast := h.distinct (i + 2) hle first (by omega) heq
        obtain rfl : k = 2 := by omega
        exact .two
      · intro hnewer
        cases hnewer with
        | two => exact ⟨rfl, by rw [hfirst]⟩
        | older hm' => omega
        | newer hm' => omega
    · have hm : 3 ≤ m := by omega
      rw [finds_iff_of_three_le h htrue hle hm]
      by_cases hbad : first ≤ i + (m / 2 + 1)
      · have hpart := ih (m / 2 + 1) (by omega) (by omega) hpos (by omega) hfirst
        rw [if_pos hbad, h.startBisect (by omega)]
        constructor
        · rintro ⟨result, hresult, hfinds⟩
          obtain rfl := Option.some.inj hresult
          exact .older hm (by omega) (hpart.mp hfinds)
        · intro hnewer
          cases hnewer with
          | two => omega
          | older _ _ hnewer => exact ⟨_, rfl, hpart.mpr hnewer⟩
          | newer _ hk' => omega
      · have hsum : i + (m / 2 + 1) + (m - 1) / 2 = i + m := by omega
        have hpart := ih ((m - 1) / 2) (by omega) (i := i + (m / 2 + 1)) (by omega)
          (k := k - (m / 2 + 1)) (by omega) (by omega) (by omega)
        have hstart := h.startBisect (i := i + (m / 2 + 1)) (m := (m - 1) / 2) (by omega)
        rw [hsum] at hpart hstart
        rw [if_neg hbad, hstart]
        constructor
        · rintro ⟨result, hresult, hfinds⟩
          obtain rfl := Option.some.inj hresult
          exact .newer hm (by omega) (hpart.mp hfinds)
        · intro hnewer
          cases hnewer with
          | two => omega
          | older _ hk' => omega
          | newer _ _ hnewer => exact ⟨_, rfl, hpart.mpr hnewer⟩

/-- **When a bisect finds the culprit.**  If and only if the history is halved down to two commits of
which the first bad one is the newer. -/
theorem bisect_finds_iff (h : s.LinearHistory commit n) (htrue : Truthful verdict commit n first)
    (hpos : 1 ≤ first) (hle : first ≤ n) :
    s.BisectFinds verdict (commit 0) (commit n) (commit first) ↔ NewerOfTwo n first := by
  have hstart := h.startBisect (i := 0) (m := n) (by omega)
  have hfinds := h.finds_iff htrue (i := 0) (m := n) (k := first) (by omega) hpos hle (by omega)
  rw [Nat.zero_add] at hstart hfinds
  rw [← hfinds, BisectFinds, hstart]
  constructor
  · rintro ⟨result, hresult, hfound⟩
    obtain rfl := Option.some.inj hresult
    exact hfound
  · exact fun hfound => ⟨_, rfl, hfound⟩

end CasStore

section

open Plain

namespace CasStore

/-- The store after three commits in a row. -/
def threeInARow : CasStore :=
  Run.run CasStore.step CasStore.new
    ([1, 2, 3].map fun now => .createCommit ⟨now, []⟩ [] [] now none none none)

def commitInARow (i : ℕ) : Text := threeInARow.commits.keys.getD i []

/-- The last of the three commits is the first bad one. -/
theorem bisect_finds_last :
    threeInARow.BisectFinds (fun id => if id = commitInARow 2 then .bad else .good)
      (commitInARow 0) (commitInARow 2) (commitInARow 2) := by
  have hhistory : threeInARow.LinearHistory commitInARow 2 :=
    ⟨by decide +kernel, by decide +kernel, by decide +kernel, by decide +kernel⟩
  have htrue : Truthful (fun id => if id = commitInARow 2 then .bad else .good)
      commitInARow 2 2 := by
    unfold Truthful
    decide +kernel
  exact (bisect_finds_iff hhistory htrue (by omega) (by omega)).mpr .two

/-- Where the second of three commits is the first bad one, the third is called the culprit. -/
theorem bisect_misses_second :
    threeInARow.LinearHistory commitInARow 2 ∧
      ¬ threeInARow.BisectFinds (fun id => if id = commitInARow 0 then .good else .bad)
          (commitInARow 0) (commitInARow 2) (commitInARow 1) := by
  refine ⟨⟨by decide +kernel, by decide +kernel, by decide +kernel, by decide +kernel⟩, ?_⟩
  rintro ⟨result, hresult, hfinds⟩
  have hculprit : (threeInARow.startBisect (commitInARow 0) (commitInARow 2)).all fun result =>
      result.state.isResolved && result.state.culpritCommitId ≠ some (commitInARow 1) := by
    decide +kernel
  rw [hresult, Option.all_some, Bool.and_eq_true, decide_eq_true_iff] at hculprit
  cases hfinds with
  | resolved _ hfound => exact hculprit.2 hfound
  | step hopen =>
    rw [hculprit.1] at hopen
    cases hopen

end CasStore

end

end Lumi.Cas
