import Lumi.Lib.InsertionMap
import Lumi.Lib.Run

/-!
# The two-phase commit coordinator

`BroccoliTwoPhaseCommitCoordinator` asks every participant of a session to
prepare, and if all of them vote `true` it asks every one to commit.  A commit
that throws turns the decision round: every participant is told to roll back,
also those whose commit went through.  An id of the session that is not registered
when the session is executed is left out of both phases without a trace.

What an execution does is its trace: the calls in the order in which they are
issued, each with its outcome, and the states the session enters.  The outcomes
are those of the participants and stand for what their promises do.

The decision is stable exactly if the outcomes leave no room for either
(`OutcomesAgree`): some participant does not vote for the commit, or all that are
named are registered and commit, or some commit throws and none succeeds.
-/

namespace Lumi.TwoPhase

open Run

/-- How the promise of a call settles. -/
inductive Outcome
  | resolved (value : Bool)
  | rejected
  deriving DecidableEq, Repr

/-- `IBroccoli2pcParticipant`; the outcomes are those of its promises. -/
structure Participant where
  participantId : String
  prepare : String → Outcome
  commit : String → Outcome

inductive TxState
  | preparing
  | prepared
  | committing
  | committed
  | aborting
  | aborted
  deriving DecidableEq, Repr

structure Session where
  txId : String
  createdAt : ℕ
  state : TxState
  participants : List String
  deriving DecidableEq, Repr

/-- What an execution does, in order. -/
inductive Event
  | prepare (participantId : String) (outcome : Outcome)
  | commit (participantId : String) (outcome : Outcome)
  | rollback (participantId : String)
  | enters (state : TxState)
  deriving DecidableEq, Repr

/-- What `execute2pc` resolves to and what it did before. -/
structure Execution where
  decision : Bool
  trace : List Event
  deriving DecidableEq, Repr

/-- The coordinator; a participant is registered under its own id. -/
structure Coordinator where
  participants : InsertionMap String Participant
  sessions : InsertionMap String Session
  keyed : ∀ id p, participants.get? id = some p → p.participantId = id

namespace Coordinator

def empty : Coordinator :=
  ⟨.empty, .empty, fun _ _ h => by simp at h⟩

section

variable (c : Coordinator)

def registerParticipant (participant : Participant) : Coordinator :=
  { c with
    participants := c.participants.set participant.participantId participant
    keyed := by
      intro id p h
      rw [InsertionMap.get?_set] at h
      split_ifs at h with hid
      · rw [← Option.some.inj h, hid]
      · exact c.keyed id p h }

def unregisterParticipant (participantId : String) : Coordinator :=
  { c with
    participants := c.participants.delete participantId
    keyed := by
      intro id p h
      rw [InsertionMap.get?_delete] at h
      split_ifs at h
      exact c.keyed id p h }

def begin2pcTransaction (txId : String) (participantIds : Option (List String))
    (now : ℕ) : Session × Coordinator :=
  let pIds := participantIds.getD c.participants.keys
  let session : Session := ⟨txId, now, .preparing, pIds⟩
  (session, { c with sessions := c.sessions.set txId session })

/-- The registered ones among the participants of a session. -/
def participantsToRun (ids : List String) : List Participant :=
  ids.filterMap c.participants.get?

/-- The phases over the participants to run, and the state the session ends in. -/
def runPhases (txId : String) (participantsToRun : List Participant) : Execution × TxState :=
  if participantsToRun.length = 0 then (⟨true, [.enters .committed]⟩, .committed)
  else
    let prepares := participantsToRun.map fun p => .prepare p.participantId (p.prepare txId)
    let rollbacks := participantsToRun.map fun p => .rollback p.participantId
    let allPrepared := participantsToRun.all fun p => p.prepare txId = .resolved true
    if allPrepared then
      let commits := participantsToRun.map fun p => .commit p.participantId (p.commit txId)
      -- `Promise.all` rejects as soon as one commit does; what the others resolve to is not read
      if participantsToRun.any fun p => p.commit txId = .rejected then
        (⟨false, prepares ++ [.enters .committing] ++ commits ++ [.enters .aborting] ++ rollbacks
          ++ [.enters .aborted]⟩, .aborted)
      else
        (⟨true, prepares ++ [.enters .committing] ++ commits ++ [.enters .committed]⟩, .committed)
    else
      (⟨false, prepares ++ [.enters .aborting] ++ rollbacks ++ [.enters .aborted]⟩, .aborted)

def execute2pc (txId : String) : Except String (Execution × Coordinator) :=
  let invalid := s!"Invalid 2PC transaction state for txId: {txId}"
  match c.sessions.get? txId with
  | none => .error invalid
  | some session =>
    if session.state ≠ .preparing then .error invalid
    else
      let (execution, state) := runPhases txId (c.participantsToRun session.participants)
      .ok (execution, { c with sessions := c.sessions.set txId { session with state } })

def getActiveTransactions : List Session :=
  c.sessions.values.filter fun s => s.state ≠ .committed && s.state ≠ .aborted

end

variable {c : Coordinator}

variable {txId : String}

theorem execute2pc_of_preparing {session : Session} (hsession : c.sessions.get? txId = some session)
    (hstate : session.state = .preparing) :
    c.execute2pc txId = .ok ((runPhases txId (c.participantsToRun session.participants)).1,
      { c with
        sessions := c.sessions.set txId
          { session with
            state := (runPhases txId (c.participantsToRun session.participants)).2 } }) := by
  simp [execute2pc, hsession, hstate]

variable {ids : List String}

theorem mem_participantsToRun {p : Participant} :
    p ∈ c.participantsToRun ids ↔
      p.participantId ∈ ids ∧ c.participants.get? p.participantId = some p := by
  unfold participantsToRun
  rw [List.mem_filterMap]
  constructor
  · rintro ⟨id, hid, hp⟩
    rw [c.keyed id p hp]
    exact ⟨hid, hp⟩
  · rintro ⟨hid, hp⟩
    exact ⟨p.participantId, hid, hp⟩

/-! ## The trace of the phases -/

section

variable {txId : String} {ps : List Participant}

/-- Every participant votes for the commit. -/
def AllVote (txId : String) (ps : List Participant) : Prop :=
  ∀ p ∈ ps, p.prepare txId = .resolved true

/-- Some commit throws. -/
def CommitThrows (txId : String) (ps : List Participant) : Prop :=
  ∃ p ∈ ps, p.commit txId = .rejected

theorem runPhases_of_not_allVote (h : ¬ AllVote txId ps) :
    runPhases txId ps = (⟨false, ps.map (fun p => .prepare p.participantId (p.prepare txId))
      ++ [.enters .aborting] ++ ps.map (fun p => .rollback p.participantId)
      ++ [.enters .aborted]⟩, .aborted) := by
  have hne : ¬ ps.length = 0 := by
    intro hnil
    rw [List.length_eq_zero_iff] at hnil
    exact h (by simp [AllVote, hnil])
  have hall : ¬ (ps.all fun p => p.prepare txId = .resolved true) = true := by
    simpa [AllVote] using h
  simp only [runPhases, if_neg hne, if_neg hall]

theorem runPhases_of_commitThrows (hvote : AllVote txId ps) (hthrow : CommitThrows txId ps) :
    runPhases txId ps = (⟨false, ps.map (fun p => .prepare p.participantId (p.prepare txId))
      ++ [.enters .committing] ++ ps.map (fun p => .commit p.participantId (p.commit txId))
      ++ [.enters .aborting] ++ ps.map (fun p => .rollback p.participantId)
      ++ [.enters .aborted]⟩, .aborted) := by
  have hne : ¬ ps.length = 0 := by
    obtain ⟨p, hp, -⟩ := hthrow
    exact (List.length_pos_of_mem hp).ne'
  have hall : (ps.all fun p => p.prepare txId = .resolved true) = true := by
    simpa [AllVote] using hvote
  have hany : (ps.any fun p => p.commit txId = .rejected) = true := by
    simpa [CommitThrows] using hthrow
  simp only [runPhases, if_neg hne, if_pos hall, if_pos hany]

/-- Where the decision is to commit, nobody is told to roll back. -/
theorem runPhases_of_commits (hvote : AllVote txId ps) (hthrow : ¬ CommitThrows txId ps) :
    (runPhases txId ps).1.decision = true ∧
      (∀ id, Event.rollback id ∉ (runPhases txId ps).1.trace) ∧
      (∀ id o, Event.prepare id o ∈ (runPhases txId ps).1.trace ↔
        ∃ p ∈ ps, p.participantId = id ∧ p.prepare txId = o) ∧
      ∀ id o, Event.commit id o ∈ (runPhases txId ps).1.trace ↔
        ∃ p ∈ ps, p.participantId = id ∧ p.commit txId = o := by
  have hall : (ps.all fun p => p.prepare txId = .resolved true) = true := by
    simpa [AllVote] using hvote
  have hany : ¬ (ps.any fun p => p.commit txId = .rejected) = true := by
    simpa [CommitThrows] using hthrow
  by_cases hnil : ps.length = 0
  · simp only [runPhases, if_pos hnil]
    rw [List.length_eq_zero_iff] at hnil
    simp [hnil]
  · simp only [runPhases, if_neg hnil, if_pos hall, if_neg hany]
    simp

end

/-! ## When the decision is stable -/

/-- A `true` means that every participant named voted and committed, and nobody whose
commit succeeded is told to roll back. -/
structure DecisionStable (ids : List String) (e : Execution) : Prop where
  committed : e.decision = true → ∀ id ∈ ids,
    Event.prepare id (.resolved true) ∈ e.trace ∧ Event.commit id (.resolved true) ∈ e.trace
  no_rollback : ∀ id, Event.commit id (.resolved true) ∈ e.trace → Event.rollback id ∉ e.trace

/-- Someone votes against the commit, or everyone named is registered and commits, or a
commit throws and none succeeds. -/
def OutcomesAgree (c : Coordinator) (txId : String) (ids : List String) : Prop :=
  ¬ AllVote txId (c.participantsToRun ids) ∨
  ((∀ id ∈ ids, id ∈ c.participants.keys) ∧
    ∀ p ∈ c.participantsToRun ids, p.commit txId = .resolved true) ∨
  (CommitThrows txId (c.participantsToRun ids) ∧
    ∀ p ∈ c.participantsToRun ids, p.commit txId ≠ .resolved true)

theorem stable_of_not_allVote (hvote : ¬ AllVote txId (c.participantsToRun ids)) :
    DecisionStable ids (runPhases txId (c.participantsToRun ids)).1 ∧ OutcomesAgree c txId ids := by
  refine ⟨?_, .inl hvote⟩
  rw [runPhases_of_not_allVote hvote]
  constructor
  · intro hdecision
    cases hdecision
  · intro id hcommit
    simp at hcommit

theorem stable_iff_of_commitThrows (hvote : AllVote txId (c.participantsToRun ids))
    (hthrow : CommitThrows txId (c.participantsToRun ids)) :
    DecisionStable ids (runPhases txId (c.participantsToRun ids)).1 ↔ OutcomesAgree c txId ids := by
  rw [runPhases_of_commitThrows hvote hthrow]
  constructor
  · intro h
    refine .inr (.inr ⟨hthrow, fun p hp hcommit => ?_⟩)
    -- this commit succeeded, and the round of rollbacks reaches everyone
    apply h.no_rollback p.participantId
    · simp only [List.mem_append, List.mem_map]
      exact .inl (.inl (.inl (.inr ⟨p, hp, by rw [hcommit]⟩)))
    · simp only [List.mem_append, List.mem_map]
      exact .inl (.inr ⟨p, hp, rfl⟩)
  · intro h
    constructor
    · intro hdecision
      cases hdecision
    · intro id hcommit
      obtain ⟨p, hp, -, hok⟩ : ∃ p ∈ c.participantsToRun ids,
          p.participantId = id ∧ p.commit txId = .resolved true := by
        simpa using hcommit
      rcases h with hno | ⟨-, hall⟩ | ⟨-, hnone⟩
      · exact absurd hvote hno
      · obtain ⟨q, hq, hrejected⟩ := hthrow
        rw [hall q hq] at hrejected
        cases hrejected
      · exact absurd hok (hnone p hp)

theorem stable_iff_of_commits (hvote : AllVote txId (c.participantsToRun ids))
    (hthrow : ¬ CommitThrows txId (c.participantsToRun ids)) :
    DecisionStable ids (runPhases txId (c.participantsToRun ids)).1 ↔ OutcomesAgree c txId ids := by
  obtain ⟨hdecision, hrollback, hprepare, hcommit⟩ := runPhases_of_commits hvote hthrow
  constructor
  · intro h
    refine .inr (.inl ⟨fun id hid => ?_, fun p hp => ?_⟩)
    · obtain ⟨p, hp, hpid, -⟩ := (hprepare id _).mp (h.committed hdecision id hid).1
      rw [← hpid, InsertionMap.mem_keys_iff]
      exact ⟨p, (mem_participantsToRun.mp hp).2⟩
    · obtain ⟨hmem, hget⟩ := mem_participantsToRun.mp hp
      obtain ⟨q, hq, hqid, hok⟩ := (hcommit _ _).mp (h.committed hdecision _ hmem).2
      have hgetq := (mem_participantsToRun.mp hq).2
      rw [hqid, hget] at hgetq
      rwa [Option.some.inj hgetq]
  · intro h
    refine ⟨fun _ id hid => ?_, fun id _ => hrollback id⟩
    rcases h with hno | ⟨hregistered, hall⟩ | ⟨hthrows, -⟩
    · exact absurd hvote hno
    · obtain ⟨p, hp⟩ := InsertionMap.mem_keys_iff.mp (hregistered id hid)
      have hpid := c.keyed id p hp
      have hrun : p ∈ c.participantsToRun ids :=
        mem_participantsToRun.mpr ⟨by rwa [hpid], by rwa [hpid]⟩
      exact ⟨(hprepare id _).mpr ⟨p, hrun, hpid, hvote p hrun⟩,
        (hcommit id _).mpr ⟨p, hrun, hpid, hall p hrun⟩⟩
    · exact absurd hthrows hthrow

end Coordinator

/-! ## One commit of two fails -/

section

/-- Votes for the commit and carries it out. -/
def ledger : Participant := ⟨"ledger", fun _ => .resolved true, fun _ => .resolved true⟩

/-- Votes for the commit and then throws. -/
def archive : Participant := ⟨"archive", fun _ => .resolved true, fun _ => .rejected⟩

def ledgerAndArchive : Coordinator :=
  ((Coordinator.empty.registerParticipant ledger).registerParticipant archive).begin2pcTransaction
    "tx" none 0 |>.2

end

end Lumi.TwoPhase
