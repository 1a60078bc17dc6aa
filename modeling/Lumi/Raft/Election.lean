import Lumi.Raft.Node

/-!
# A node votes once a term

A node gives a vote in two ways: it grants a vote request, or it stands for
election itself.  The votes given are not part of the node's state, so the run
is observed: next to the node stands the list of the votes given so far, each
with the term it was given in.

What ties the list to the node is `Backed`: no vote is of a later term than the
node's own, and a vote of the node's own term is the one `votedFor` remembers.
A call may raise the term, and then it may forget the vote; while the term stays,
the vote stays (`apply_keeps`).  That `appendEntries` raises the term and keeps
`votedFor` does no harm to safety: it only makes the node refuse votes it could
still give.
-/

namespace Lumi.Raft

open Run

variable {π : Type*}

/-- A call on a node. -/
inductive NodeCall (π : Type*)
  | requestVote (request : VoteRequest)
  | appendEntries (request : AppendEntriesRequest π)
  | proposeCommand (command : String) (payload : Option π) (now : ℕ)
  | startElection

namespace NodeCall

/-- The node after a call; a call that throws leaves it as it is. -/
def apply (n : RaftNode π) : NodeCall π → RaftNode π
  | requestVote request => (n.requestVote request).2
  | appendEntries request => (n.appendEntries request).2
  | proposeCommand command payload now =>
    match n.proposeCommand command payload now with
    | .ok (_, n) => n
    | .error _ => n
  | startElection => n.startElection.2

/-- The vote a call makes the node give, with its term: a granted request names the
candidate and carries the term, an election names the node and moves to the term. -/
def vote? (n : RaftNode π) : NodeCall π → Option (ℕ × String)
  | requestVote request =>
    if (n.requestVote request).1.voteGranted then
      some ((n.requestVote request).1.term, request.candidateId)
    else none
  | startElection => some (n.startElection.2.currentTerm, n.nodeId)
  | appendEntries _ | proposeCommand _ _ _ => none

end NodeCall

/-- A node and the votes it gave so far. -/
structure Observed (π : Type*) where
  node : RaftNode π
  votes : List (ℕ × String)

namespace Observed

def step (s : Observed π) (call : NodeCall π) : Observed π :=
  ⟨call.apply s.node, (call.vote? s.node).toList ++ s.votes⟩

theorem mem_step_votes {s : Observed π} {call : NodeCall π} {vote : ℕ × String} :
    vote ∈ (s.step call).votes ↔ call.vote? s.node = some vote ∨ vote ∈ s.votes := by
  simp [step]

end Observed

/-! ## What one call does to the term and the vote -/

/-- From `n` to `n'` the term does not fall, and a vote is kept while the term stays. -/
structure Keeps (n n' : RaftNode π) : Prop where
  term_le : n.currentTerm ≤ n'.currentTerm
  votedFor : n'.currentTerm = n.currentTerm → ∀ c, n.votedFor = some c → n'.votedFor = some c

theorem keeps_of_eq {n n' : RaftNode π} (hterm : n'.currentTerm = n.currentTerm)
    (hvoted : n'.votedFor = n.votedFor) : Keeps n n' :=
  ⟨hterm.ge, fun _ _ hc => hvoted.trans hc⟩

theorem keeps_of_lt {n n' : RaftNode π} (hlt : n.currentTerm < n'.currentTerm) : Keeps n n' :=
  ⟨hlt.le, fun heq => absurd heq hlt.ne'⟩

section

variable (n : RaftNode π)
include n

theorem requestVote_keeps (request : VoteRequest) : Keeps n (n.requestVote request).2 := by
  unfold RaftNode.requestVote
  by_cases hold : request.term < n.currentTerm
  · rw [if_pos hold]
    exact keeps_of_eq rfl rfl
  · rw [if_neg hold]
    by_cases hnew : request.term > n.currentTerm
    · -- the vote is forgotten, but so is the term
      apply keeps_of_lt
      simp only [if_pos hnew]
      split_ifs <;> exact hnew
    · simp only [if_neg hnew]
      split_ifs with hvote
      · refine ⟨le_rfl, fun _ c hc => ?_⟩
        -- a second vote goes to the candidate of the first
        rcases hvote.1 with hnone | hsame
        · rw [hc] at hnone
          cases hnone
        · exact hsame.symm.trans hc
      · exact keeps_of_eq rfl rfl

section

variable (request : AppendEntriesRequest π)

theorem appendEntries_currentTerm : n.currentTerm ≤ (n.appendEntries request).2.currentTerm := by
  unfold RaftNode.appendEntries
  by_cases hold : request.term < n.currentTerm
  · rw [if_pos hold]
  · rw [if_neg hold]
    dsimp only
    split_ifs <;> exact not_lt.mp hold

theorem appendEntries_votedFor : (n.appendEntries request).2.votedFor = n.votedFor := by
  unfold RaftNode.appendEntries
  dsimp only
  split_ifs <;> rfl

theorem appendEntries_keeps : Keeps n (n.appendEntries request).2 :=
  ⟨appendEntries_currentTerm n request, fun _ _ hc => (appendEntries_votedFor n request).trans hc⟩

end

theorem proposeCommand_keeps (command : String) (payload : Option π) (now : ℕ) :
    Keeps n ((NodeCall.proposeCommand command payload now).apply n) := by
  by_cases hleads : n.role = .leader
  · apply keeps_of_eq <;> simp [NodeCall.apply, RaftNode.proposeCommand, hleads]
  · apply keeps_of_eq <;> simp [NodeCall.apply, RaftNode.proposeCommand, hleads]

theorem startElection_currentTerm : n.startElection.2.currentTerm = n.currentTerm + 1 := by
  unfold RaftNode.startElection
  dsimp only
  split_ifs <;> rfl

theorem startElection_votedFor : n.startElection.2.votedFor = some n.nodeId := by
  unfold RaftNode.startElection
  dsimp only
  split_ifs <;> rfl

theorem apply_keeps (call : NodeCall π) : Keeps n (call.apply n) := by
  cases call with
  | requestVote request => exact requestVote_keeps n request
  | appendEntries request => exact appendEntries_keeps n request
  | proposeCommand command payload now => exact proposeCommand_keeps n command payload now
  | startElection =>
    apply keeps_of_lt
    show n.currentTerm < n.startElection.2.currentTerm
    rw [startElection_currentTerm]
    exact Nat.lt_succ_self _

end

/-- A granted vote is remembered, together with its term. -/
theorem requestVote_granted {n : RaftNode π} {request : VoteRequest}
    (hgranted : (n.requestVote request).1.voteGranted = true) :
    (n.requestVote request).2.currentTerm = (n.requestVote request).1.term ∧
      (n.requestVote request).2.votedFor = some request.candidateId := by
  unfold RaftNode.requestVote at hgranted ⊢
  by_cases hold : request.term < n.currentTerm
  · rw [if_pos hold] at hgranted
    cases hgranted
  · rw [if_neg hold] at hgranted ⊢
    dsimp only at hgranted ⊢
    split_ifs at hgranted ⊢ <;> exact ⟨rfl, rfl⟩

theorem vote?_remembered {n : RaftNode π} {call : NodeCall π} {term : ℕ} {c : String}
    (hvote : call.vote? n = some (term, c)) :
    (call.apply n).currentTerm = term ∧ (call.apply n).votedFor = some c := by
  cases call with
  | requestVote request =>
    rw [NodeCall.vote?] at hvote
    split_ifs at hvote with hgranted
    obtain ⟨rfl, rfl⟩ := Prod.mk.inj (Option.some.inj hvote)
    exact requestVote_granted hgranted
  | startElection =>
    obtain ⟨rfl, rfl⟩ := Prod.mk.inj (Option.some.inj hvote)
    exact ⟨rfl, startElection_votedFor n⟩
  | appendEntries request => cases hvote
  | proposeCommand command payload now => cases hvote

/-! ## The votes of a run -/

/-- The votes given are backed by the node: none is of a later term, and one of the
node's term is the one it remembers. -/
structure Backed (s : Observed π) : Prop where
  term_le : ∀ term c, (term, c) ∈ s.votes → term ≤ s.node.currentTerm
  votedFor : ∀ c, (s.node.currentTerm, c) ∈ s.votes → s.node.votedFor = some c
  unique : ∀ term c c', (term, c) ∈ s.votes → (term, c') ∈ s.votes → c = c'

theorem backed_nil (n : RaftNode π) : Backed (⟨n, []⟩ : Observed π) := by
  constructor <;> simp

variable {s : Observed π}

/-- An older vote of the term a call ends in is still remembered after the call. -/
theorem Backed.votedFor_apply (h : Backed s) (call : NodeCall π) {c : String}
    (hvote : ((call.apply s.node).currentTerm, c) ∈ s.votes) :
    (call.apply s.node).votedFor = some c := by
  have hkeeps := apply_keeps s.node call
  have hterm : (call.apply s.node).currentTerm = s.node.currentTerm :=
    le_antisymm (h.term_le _ _ hvote) hkeeps.term_le
  rw [hterm] at hvote
  exact hkeeps.votedFor hterm c (h.votedFor c hvote)

/-- The vote a call gives does not contradict an older one of its term. -/
theorem Backed.vote?_eq (h : Backed s) {call : NodeCall π} {term : ℕ} {c c' : String}
    (hnew : call.vote? s.node = some (term, c)) (hold : (term, c') ∈ s.votes) : c = c' := by
  obtain ⟨rfl, hvoted⟩ := vote?_remembered hnew
  have hkept := h.votedFor_apply call hold
  exact Option.some.inj (hvoted.symm.trans hkept)

theorem backed_step (h : Backed s) (call : NodeCall π) :
    Backed (s.step call) where
  term_le term c hvote := by
    rcases Observed.mem_step_votes.mp hvote with hnew | hold
    · exact (vote?_remembered hnew).1.ge
    · exact (h.term_le term c hold).trans (apply_keeps s.node call).term_le
  votedFor c hvote := by
    rcases Observed.mem_step_votes.mp hvote with hnew | hold
    · exact (vote?_remembered hnew).2
    · exact h.votedFor_apply call hold
  unique term c c' hc hc' := by
    rcases Observed.mem_step_votes.mp hc with hnew | hold
    · rcases Observed.mem_step_votes.mp hc' with hnew' | hold'
      · rw [hnew] at hnew'
        exact congrArg Prod.snd (Option.some.inj hnew')
      · exact h.vote?_eq hnew hold'
    · rcases Observed.mem_step_votes.mp hc' with hnew' | hold'
      · exact (h.vote?_eq hnew' hold).symm
      · exact h.unique term c c' hold hold'

theorem backed_run (n : RaftNode π) (calls : List (NodeCall π)) :
    Backed (run Observed.step ⟨n, []⟩ calls) := by
  apply run_invariant (P := Backed)
  · intro s call h
    exact backed_step h call
  · exact backed_nil n

theorem currentTerm_le_run (s : Observed π) (calls : List (NodeCall π)) :
    s.node.currentTerm ≤ (run Observed.step s calls).node.currentTerm := by
  induction calls generalizing s with
  | nil => exact le_rfl
  | cons call rest ih =>
    calc s.node.currentTerm
        ≤ (s.step call).node.currentTerm := (apply_keeps s.node call).term_le
      _ ≤ (run Observed.step s (call :: rest)).node.currentTerm := ih (s.step call)

/-- **Election safety at a node.**  Over every sequence of calls the term never falls, and
in no term does the node vote for two candidates. -/
theorem votes_at_most_once_per_term (n : RaftNode π) (calls : List (NodeCall π)) :
    (∀ first second, calls = first ++ second →
      (run Observed.step ⟨n, []⟩ first).node.currentTerm
        ≤ (run Observed.step ⟨n, []⟩ calls).node.currentTerm) ∧
    ∀ term c c', (term, c) ∈ (run Observed.step ⟨n, []⟩ calls).votes →
      (term, c') ∈ (run Observed.step ⟨n, []⟩ calls).votes → c = c' := by
  refine ⟨fun first second hcalls => ?_, (backed_run n calls).unique⟩
  rw [hcalls, run_append]
  exact currentTerm_le_run _ second

end Lumi.Raft
