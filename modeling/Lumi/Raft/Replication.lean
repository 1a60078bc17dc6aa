import Lumi.Raft.Node

/-!
# What a follower's log is worth after a successful append

A follower that answers `success` reports the length of its whole log as
`matchIndex`, and commits up to that length, although the request vouches for the
entries up to `prevLogIndex + entries.length` only: what stands behind them may
be a stale suffix (`heartbeat_commits_stale_entry`).

The log is right exactly if the request resolves the staleness: either there is
none, or the first entry that differs from the leader's lies in the range of the
request and has another term, so that it makes way with all that follows it.
After the first such request the log is a prefix of the leader's, and stays one.
-/

namespace Lumi.Raft

open List

variable {π : Type*}

/-- The log of a leader: entries carry their positions. -/
structure LeaderLog (π : Type*) where
  entries : List (LogEntry π)
  indexed : ∀ (i : ℕ) (e : LogEntry π), entries[i]? = some e → e.index = i + 1

/-- The request is one the leader may send: the entries are a slice of its log, the
previous entry is the one before the slice. -/
structure ConsistentWith (L : LeaderLog π) (request : AppendEntriesRequest π) : Prop where
  prev_le : request.prevLogIndex ≤ L.entries.length
  prev_term : ∀ e, entryAt L.entries request.prevLogIndex = some e → request.prevLogTerm = e.term
  slice : request.entries <+: L.entries.drop request.prevLogIndex
  commit_le : request.leaderCommit ≤ L.entries.length

/-- The last position the request vouches for. -/
def AppendEntriesRequest.lastIndex (request : AppendEntriesRequest π) : ℕ :=
  request.prevLogIndex + request.entries.length

variable {request : AppendEntriesRequest π} {L : LeaderLog π}

theorem ConsistentWith.lastIndex_le (h : ConsistentWith L request) :
    request.lastIndex ≤ L.entries.length := by
  have hslice := h.slice.length_le
  have hprev := h.prev_le
  rw [length_drop] at hslice
  rw [AppendEntriesRequest.lastIndex]
  omega

/-- The logs agree on the first `n` positions. -/
def AgreesUpTo (n : ℕ) (log L : List (LogEntry π)) : Prop := log.take n = L.take n

/-- At position `d + 1`, which the request sends, the log differs from the leader's for
the first time, and it differs in the term. -/
structure RepairedAt (L : LeaderLog π) (log : List (LogEntry π)) (first last d : ℕ) : Prop where
  first_le : first ≤ d
  lt_last : d < last
  agrees : AgreesUpTo d log L.entries
  differs : ∃ x e, log[d]? = some x ∧ L.entries[d]? = some e ∧ x.term ≠ e.term

/-! ## The loop over the entries -/

theorem entryAt_succ (log : List (LogEntry π)) (i : ℕ) : entryAt log (i + 1) = log[i]? := rfl

variable {log : List (LogEntry π)}

variable {e : LogEntry π} {p : ℕ}

theorem appendEntry_of_none (hindex : e.index = p + 1) (h : log[p]? = none) :
    RaftNode.appendEntry log e = log ++ [e] := by
  simp [RaftNode.appendEntry, hindex, entryAt_succ, h]

theorem appendEntry_of_conflict {e x : LogEntry π} (hindex : e.index = p + 1)
    (hx : log[p]? = some x) (hterm : x.term ≠ e.term) :
    RaftNode.appendEntry log e = log.take p ++ [e] := by
  simp [RaftNode.appendEntry, hindex, entryAt_succ, hx, hterm]

theorem appendEntry_of_same {e x : LogEntry π} (hindex : e.index = p + 1) (hx : log[p]? = some x)
    (hterm : x.term = e.term) : RaftNode.appendEntry log e = log := by
  simp [RaftNode.appendEntry, hindex, entryAt_succ, hx, hterm]

theorem agreesUpTo_of_isPrefix {n : ℕ} {log L : List (LogEntry π)} (h : log <+: L)
    (hle : n ≤ log.length) : AgreesUpTo n log L := by
  obtain ⟨rest, rfl⟩ := h
  rw [AgreesUpTo, take_append_of_le_length hle]

/-- The first entry of a slice stands at its position, and the others are the slice after it. -/
theorem head_of_slice {es : List (LogEntry π)} (hslice : e :: es <+: L.entries.drop p) :
    L.entries[p]? = some e ∧ e.index = p + 1 ∧ es <+: L.entries.drop (p + 1) := by
  obtain ⟨rest, heq⟩ := hslice
  have hlt : p < L.entries.length := by
    have := congrArg List.length heq
    simp at this
    omega
  rw [drop_eq_getElem_cons hlt, cons_append, cons_eq_cons] at heq
  have he : L.entries[p]? = some e := by rw [getElem?_eq_getElem hlt, heq.1]
  exact ⟨he, L.indexed p e he, rest, heq.2⟩

/-- The end of a slice, from the entry after its first one. -/
theorem add_length_cons (p : ℕ) (e : LogEntry π) (es : List (LogEntry π)) :
    p + (e :: es).length = p + 1 + es.length := by
  rw [length_cons]
  omega

/-- A log that agrees up to `p`, and the leader's entry behind it. -/
theorem take_append_isPrefix_iff {L log : List (LogEntry π)} (he : L[p]? = some e)
    (hp : p ≤ log.length) : log.take p ++ [e] <+: L ↔ AgreesUpTo p log L := by
  have hlt : p < L.length := (List.getElem?_eq_some_iff.mp he).1
  have hlength : (log.take p ++ [e]).length = p + 1 := by simp [hp]
  rw [prefix_iff_eq_take, hlength, take_add_one, he]
  constructor
  · intro h
    exact (append_inj' h rfl).1
  · intro h
    rw [show log.take p = L.take p from h]
    rfl

theorem agreesUpTo_getElem? {n : ℕ} {log L : List (LogEntry π)} (h : AgreesUpTo n log L) {i : ℕ}
    (hi : i < n) : log[i]? = L[i]? := by
  have := congrArg (·[i]?) h
  simpa [getElem?_take, hi] using this

/-- No position behind the end of a log is repaired. -/
theorem RepairedAt.lt_length {first last d : ℕ} (h : RepairedAt L log first last d) :
    d < log.length := by
  obtain ⟨x, -, hx, -⟩ := h.differs
  exact (List.getElem?_eq_some_iff.mp hx).1

theorem length_eq_of_getElem?_eq_none (hp : p ≤ log.length) (hx : log[p]? = none) :
    log.length = p :=
  le_antisymm (List.getElem?_eq_none_iff.mp hx) hp

section

variable (L : LeaderLog π)

section

variable (es : List (LogEntry π))

/-- A prefix of the leader's log is extended to where the request reaches. -/
theorem foldl_appendEntry_of_isPrefix (p : ℕ) (log : List (LogEntry π))
    (hslice : es <+: L.entries.drop p) (hp : p ≤ log.length) (hinit : log <+: L.entries) :
    es.foldl RaftNode.appendEntry log = L.entries.take (max log.length (p + es.length)) := by
  induction es generalizing p log with
  | nil =>
    rw [foldl_nil, length_nil, Nat.add_zero, max_eq_left hp]
    exact prefix_iff_eq_take.mp hinit
  | cons e es ih =>
    obtain ⟨he, hindex, hrest⟩ := head_of_slice hslice
    rw [foldl_cons, add_length_cons]
    cases hx : log[p]? with
    | none =>
      have hlength := length_eq_of_getElem?_eq_none hp hx
      have hnext : log ++ [e] <+: L.entries := by
        have := (take_append_isPrefix_iff he hp).mpr (agreesUpTo_of_isPrefix hinit hp)
        rwa [← hlength, take_length] at this
      rw [appendEntry_of_none hindex hx, ih (p + 1) _ hrest (by simp [hlength]) hnext]
      congr 1
      simp only [length_append, length_singleton, hlength]
      omega
    | some x =>
      have hsame : x = e := by
        obtain ⟨rest, heq⟩ := hinit
        rw [← heq, getElem?_append_left (List.getElem?_eq_some_iff.mp hx).1, hx] at he
        exact Option.some.inj he
      rw [appendEntry_of_same hindex hx (congrArg _ hsame)]
      exact ih (p + 1) log hrest (List.getElem?_eq_some_iff.mp hx).1 hinit

/-- A log that is repaired ends where the request reaches. -/
theorem foldl_appendEntry_of_repairedAt (p : ℕ) (log : List (LogEntry π))
    (hslice : es <+: L.entries.drop p) {d : ℕ} (hd : RepairedAt L log p (p + es.length) d) :
    es.foldl RaftNode.appendEntry log = L.entries.take (p + es.length) := by
  induction es generalizing p log with
  | nil =>
    have := hd.first_le
    have := hd.lt_last
    simp at this
    omega
  | cons e es ih =>
    obtain ⟨he, hindex, hrest⟩ := head_of_slice hslice
    have hlt := hd.lt_length
    rw [foldl_cons]
    rw [add_length_cons] at hd ⊢
    obtain ⟨x, e', hx, he', hterm⟩ := hd.differs
    rcases hd.first_le.eq_or_lt with rfl | hlater
    · -- everything from here on makes way
      obtain rfl := Option.some.inj (he.symm.trans he')
      have hnext := (take_append_isPrefix_iff he hlt.le).mpr hd.agrees
      rw [appendEntry_of_conflict hindex hx hterm,
        foldl_appendEntry_of_isPrefix L es (p + 1) _ hrest (by simp; omega) hnext]
      congr 1
      simp
      omega
    · have hsame : log[p]? = some e := (agreesUpTo_getElem? hd.agrees hlater).trans he
      rw [appendEntry_of_same hindex hsame rfl]
      exact ih (p + 1) log hrest ⟨hlater, hd.lt_last, hd.agrees, hd.differs⟩

/-- Nothing else makes a log right. -/
theorem isPrefix_or_repairedAt (p : ℕ)
    (log : List (LogEntry π)) (hslice : es <+: L.entries.drop p) (hp : p ≤ log.length)
    (hinit : es.foldl RaftNode.appendEntry log <+: L.entries) :
    log <+: L.entries ∨ ∃ d, RepairedAt L log p (p + es.length) d := by
  induction es generalizing p log with
  | nil => exact .inl hinit
  | cons e es ih =>
    obtain ⟨he, hindex, hrest⟩ := head_of_slice hslice
    rw [foldl_cons] at hinit
    rw [add_length_cons]
    cases hx : log[p]? with
    | none =>
      have hlength := length_eq_of_getElem?_eq_none hp hx
      rw [appendEntry_of_none hindex hx] at hinit
      rcases ih (p + 1) _ hrest (by simp [hlength]) hinit with hnext | ⟨d, hd⟩
      · exact .inl ((prefix_append log [e]).trans hnext)
      · have := hd.lt_length
        have := hd.first_le
        simp at *
        omega
    | some x =>
      have hlt : p < log.length := (List.getElem?_eq_some_iff.mp hx).1
      by_cases hterm : x.term = e.term
      · rw [appendEntry_of_same hindex hx hterm] at hinit
        refine (ih (p + 1) log hrest hlt hinit).imp_right ?_
        rintro ⟨d, hd⟩
        exact ⟨d, (Nat.le_succ p).trans hd.first_le, hd.lt_last, hd.agrees, hd.differs⟩
      · rw [appendEntry_of_conflict hindex hx hterm] at hinit
        rcases ih (p + 1) _ hrest (by simp; omega) hinit with hnext | ⟨d, hd⟩
        · exact .inr ⟨p, le_rfl, by omega, (take_append_isPrefix_iff he hp).mp hnext, x, e,
            hx, he, hterm⟩
        · have := hd.lt_length
          have := hd.first_le
          simp at *
          omega

end

/-! ## One request -/

/-- What a follower's answer `success` promises: its log is the leader's, up to what it
has committed and up to what it reports. -/
def AgreesAfter (n : RaftNode π) (request : AppendEntriesRequest π) : Prop :=
  let after := n.appendEntries request
  AgreesUpTo after.2.commitIndex after.2.log L.entries ∧
    AgreesUpTo after.1.matchIndex after.2.log L.entries

/-- A log of this length holds all that the node has committed. -/
def CommitCovered (n : RaftNode π) (request : AppendEntriesRequest π) (length : ℕ) : Prop :=
  n.commitIndex < request.leaderCommit ∨ n.commitIndex ≤ length ∨ length = L.entries.length

/-- The node's log is a prefix of the leader's, or the request repairs its first
difference; and what the node has committed is in the log that results. -/
def Resolves (n : RaftNode π) (request : AppendEntriesRequest π) : Prop :=
  (n.log <+: L.entries ∧ CommitCovered L n request (max n.log.length request.lastIndex)) ∨
    ((∃ d, RepairedAt L n.log request.prevLogIndex request.lastIndex d) ∧
      CommitCovered L n request request.lastIndex)

end

variable {n : RaftNode π}

theorem appendEntries_of_success (h : (n.appendEntries request).1.success = true) :
    let log := request.entries.foldl RaftNode.appendEntry n.log
    request.prevLogIndex ≤ n.log.length ∧
      (n.appendEntries request).1.matchIndex = log.length ∧
      (n.appendEntries request).2.log = log ∧
      (n.appendEntries request).2.commitIndex =
        if request.leaderCommit > n.commitIndex then min request.leaderCommit log.length
        else n.commitIndex := by
  unfold RaftNode.appendEntries at h ⊢
  by_cases hterm : request.term < n.currentTerm
  · simp [hterm] at h
  · simp only [if_neg hterm] at h ⊢
    split at h
    · rename_i hprev
      simp only [hprev, if_true]
      refine ⟨?_, trivial, trivial, trivial⟩
      simp only [RaftNode.prevMatches, entryAt, Bool.or_eq_true, decide_eq_true_eq] at hprev
      by_cases hzero : request.prevLogIndex = 0
      · omega
      · rw [if_neg hzero] at hprev
        cases hentry : n.log[request.prevLogIndex - 1]? with
        | none => simp [hzero, hentry] at hprev
        | some e =>
          have := (List.getElem?_eq_some_iff.mp hentry).1
          omega
    · simp at h

/-- A request that is not answered with `success` changes neither log nor commit index. -/
theorem appendEntries_of_failure (h : (n.appendEntries request).1.success = false) :
    (n.appendEntries request).2.log = n.log ∧
      (n.appendEntries request).2.commitIndex = n.commitIndex := by
  unfold RaftNode.appendEntries at h ⊢
  by_cases hterm : request.term < n.currentTerm
  · simp [hterm]
  · simp only [if_neg hterm] at h ⊢
    split at h
    · simp at h
    · rename_i hprev
      simp [hprev]

theorem agreesUpTo_length_iff {log L : List (LogEntry π)} :
    AgreesUpTo log.length log L ↔ log <+: L := by
  rw [AgreesUpTo, take_length, prefix_iff_eq_take]

/-- The commit index after a request, over a log that is a prefix of the leader's. -/
theorem agreesUpTo_commitIndex_iff (hinit : log <+: L.entries) :
    AgreesUpTo (if request.leaderCommit > n.commitIndex then min request.leaderCommit log.length
      else n.commitIndex) log L.entries ↔ CommitCovered L n request log.length := by
  by_cases hcommit : request.leaderCommit > n.commitIndex
  · rw [if_pos hcommit]
    exact iff_of_true (agreesUpTo_of_isPrefix hinit (min_le_right ..)) (.inl hcommit)
  · rw [if_neg hcommit, CommitCovered, or_iff_right hcommit]
    by_cases hle : n.commitIndex ≤ log.length
    · exact iff_of_true (agreesUpTo_of_isPrefix hinit hle) (.inl hle)
    · -- more is committed than there is: only the whole of the leader's log will do
      rw [or_iff_right hle, AgreesUpTo, take_of_length_le (by omega)]
      constructor
      · intro heq
        have := congrArg List.length heq
        rw [length_take] at this
        omega
      · intro hlength
        rw [hinit.eq_of_length hlength, take_of_length_le]
        omega

/-- **One successful request** leaves the log the leader's, up to both indices, exactly
if it resolves what is stale. -/
theorem agreesAfter_iff_resolves (hrequest : ConsistentWith L request)
    (hsuccess : (n.appendEntries request).1.success = true) :
    AgreesAfter L n request ↔ Resolves L n request := by
  obtain ⟨hp, hmatch, hlog, hcommit⟩ := appendEntries_of_success hsuccess
  have hbound := hrequest.lastIndex_le
  have hextended : n.log <+: L.entries → request.entries.foldl RaftNode.appendEntry n.log =
      L.entries.take (max n.log.length request.lastIndex) :=
    foldl_appendEntry_of_isPrefix L _ _ _ hrequest.slice hp
  have hrepaired : ∀ d, RepairedAt L n.log request.prevLogIndex request.lastIndex d →
      request.entries.foldl RaftNode.appendEntry n.log = L.entries.take request.lastIndex :=
    fun d hd => foldl_appendEntry_of_repairedAt L _ _ _ hrequest.slice hd
  -- a log that reaches to `length` has committed what is covered
  have hcovered : ∀ length ≤ L.entries.length,
      (AgreesUpTo (if request.leaderCommit > n.commitIndex then
          min request.leaderCommit (L.entries.take length).length else n.commitIndex)
        (L.entries.take length) L.entries ↔ CommitCovered L n request length) := by
    intro length hle
    rw [agreesUpTo_commitIndex_iff (List.take_prefix length L.entries), length_take,
      min_eq_left hle]
  simp only [AgreesAfter, hlog, hmatch, hcommit, agreesUpTo_length_iff]
  constructor
  · rintro ⟨hcommitted, hinit⟩
    rcases isPrefix_or_repairedAt L _ _ _ hrequest.slice hp hinit with hold | ⟨d, hd⟩
    · rw [hextended hold] at hcommitted
      exact .inl ⟨hold, (hcovered _ (max_le hold.length_le hbound)).mp hcommitted⟩
    · rw [hrepaired d hd] at hcommitted
      exact .inr ⟨⟨d, hd⟩, (hcovered _ hbound).mp hcommitted⟩
  · rintro (⟨hold, hcommitted⟩ | ⟨⟨d, hd⟩, hcommitted⟩)
    · rw [hextended hold]
      exact ⟨(hcovered _ (max_le hold.length_le hbound)).mpr hcommitted, take_prefix ..⟩
    · rw [hrepaired d hd]
      exact ⟨(hcovered _ hbound).mpr hcommitted, take_prefix ..⟩

/-! ## Runs -/

/-- The node after a request. -/
def step (n : RaftNode π) (request : AppendEntriesRequest π) : RaftNode π :=
  (n.appendEntries request).2

/-- Every answer `success` along the run keeps its promise. -/
def FollowerSafe (L : LeaderLog π) (n : RaftNode π) (requests : List (AppendEntriesRequest π)) :
    Prop :=
  Run.Guarded step (fun n request => (n.appendEntries request).1.success = true →
    AgreesAfter L n request) n requests

/-- All requests are turned down. -/
def AllFail (n : RaftNode π) (requests : List (AppendEntriesRequest π)) : Prop :=
  Run.Guarded step (fun n request => (n.appendEntries request).1.success = false) n requests

theorem run_of_allFail {requests : List (AppendEntriesRequest π)} (h : AllFail n requests) :
    (Run.run step n requests).log = n.log ∧
      (Run.run step n requests).commitIndex = n.commitIndex := by
  induction requests generalizing n with
  | nil => exact ⟨rfl, rfl⟩
  | cons request rest ih =>
    obtain ⟨hlog, hcommit⟩ := appendEntries_of_failure h.1
    obtain ⟨hlog', hcommit'⟩ := ih h.2
    exact ⟨hlog'.trans hlog, hcommit'.trans hcommit⟩

/-- What resolves the staleness depends on log and commit index. -/
theorem resolves_congr {n n' : RaftNode π} (hlog : n'.log = n.log)
    (hcommit : n'.commitIndex = n.commitIndex) (request : AppendEntriesRequest π) :
    Resolves L n' request ↔ Resolves L n request := by
  simp only [Resolves, CommitCovered, hlog, hcommit]

/-- The log is a prefix of the leader's and holds what is committed. -/
def InStep (L : LeaderLog π) (n : RaftNode π) : Prop :=
  n.log <+: L.entries ∧ (n.commitIndex ≤ n.log.length ∨ n.log.length = L.entries.length)

theorem inStep_of_agreesAfter (hsuccess : (n.appendEntries request).1.success = true)
    (h : AgreesAfter L n request) : InStep L (step n request) := by
  obtain ⟨-, hmatch, hlog, -⟩ := appendEntries_of_success hsuccess
  obtain ⟨hcommitted, hinit⟩ := h
  rw [hmatch, ← hlog, agreesUpTo_length_iff] at hinit
  refine ⟨hinit, ?_⟩
  by_contra hnot
  rw [not_or, not_le] at hnot
  have := congrArg List.length hcommitted
  simp only [length_take] at this
  have := hinit.length_le
  simp only [step] at hnot
  omega

theorem resolves_of_inStep (h : InStep L n) (hrequest : ConsistentWith L request) :
    Resolves L n request := by
  have hbound := hrequest.lastIndex_le
  refine .inl ⟨h.1, .inr ?_⟩
  rcases h.2 with hle | hfull
  · exact .inl (le_max_of_le_left hle)
  · right
    rw [hfull, max_eq_left hbound]

theorem followerSafe_of_inStep (h : InStep L n) {requests : List (AppendEntriesRequest π)}
    (hrequests : ∀ request ∈ requests, ConsistentWith L request) : FollowerSafe L n requests := by
  induction requests generalizing n with
  | nil => trivial
  | cons request rest ih =>
    rw [forall_mem_cons] at hrequests
    have hresolves := resolves_of_inStep h hrequests.1
    refine ⟨fun hsuccess => (agreesAfter_iff_resolves hrequests.1 hsuccess).mpr hresolves,
      ih ?_ hrequests.2⟩
    cases hsuccess : (n.appendEntries request).1.success with
    | true =>
      exact inStep_of_agreesAfter hsuccess
        ((agreesAfter_iff_resolves hrequests.1 hsuccess).mpr hresolves)
    | false =>
      obtain ⟨hlog, hcommit⟩ := appendEntries_of_failure hsuccess
      rwa [InStep, step, hlog, hcommit]

/-- **Follower safety.**  Whatever the follower's log, whatever requests of one leader
arrive: every answer `success` keeps its promise exactly if the first one does, that
is, if the first request that succeeds resolves what is stale. -/
theorem followerSafe_iff (L : LeaderLog π) (n : RaftNode π)
    (requests : List (AppendEntriesRequest π))
    (hrequests : ∀ request ∈ requests, ConsistentWith L request) :
    FollowerSafe L n requests ↔
      ∀ first request second, requests = first ++ request :: second → AllFail n first →
        ((Run.run step n first).appendEntries request).1.success = true → Resolves L n request := by
  constructor
  · rintro hsafe first request second rfl hfirst hsuccess
    obtain ⟨hlog, hcommit⟩ := run_of_allFail hfirst
    have hrequest := hrequests request (by simp)
    have hagrees := (Run.guarded_append.mp hsafe).2.1 hsuccess
    exact (resolves_congr hlog hcommit request).mp
      ((agreesAfter_iff_resolves hrequest hsuccess).mp hagrees)
  · intro hresolves
    induction requests generalizing n with
    | nil => trivial
    | cons request rest ih =>
      rw [forall_mem_cons] at hrequests
      cases hsuccess : (n.appendEntries request).1.success with
      | true =>
        have hagrees := (agreesAfter_iff_resolves hrequests.1 hsuccess).mpr
          (hresolves [] request rest rfl trivial hsuccess)
        exact ⟨fun _ => hagrees,
          followerSafe_of_inStep (inStep_of_agreesAfter hsuccess hagrees) hrequests.2⟩
      | false =>
        obtain ⟨hlog, hcommit⟩ := appendEntries_of_failure hsuccess
        refine ⟨fun htrue => by simp [hsuccess] at htrue, ih _ hrequests.2 ?_⟩
        -- a failure changes nothing the condition looks at
        rintro first request' second rfl hfirst hsuccess'
        exact (resolves_congr hlog hcommit request').mpr
          (hresolves (request :: first) request' second rfl ⟨hsuccess, hfirst⟩ hsuccess')

/-- A log of two entries, both of term 1. -/
def twoEntries : LeaderLog String where
  entries := [⟨1, 1, "set", some "x", 0⟩, ⟨2, 1, "set", some "y", 0⟩]
  indexed := by
    intro i e h
    rcases i with _ | _ | i
    · cases h
      rfl
    · cases h
      rfl
    · simp at h

/-- An empty log is brought up to date. -/
theorem empty_follower_safe :
    FollowerSafe twoEntries (.init "n2" ["n1", "n2"])
      [⟨1, "n1", 0, 0, twoEntries.entries, 2⟩, ⟨1, "n1", 2, 1, [], 2⟩] := by
  refine (followerSafe_iff twoEntries _ _ ?_).mpr ?_
  · intro request hrequest
    rcases mem_pair.mp hrequest with rfl | rfl
    · exact ⟨by decide, by decide, prefix_rfl, by decide⟩
    · refine ⟨by decide, fun e he => ?_, nil_prefix, by decide⟩
      cases he
      rfl
  · intro first request second _ _ _
    exact Or.inl ⟨List.nil_prefix, Or.inr (Or.inl (Nat.zero_le _))⟩

/-- A heartbeat is answered `success`, and commits a stale entry of term 2 the leader
never had. -/
theorem heartbeat_commits_stale_entry :
    ¬ FollowerSafe twoEntries
      ⟨"n2", .follower, 2, none, none, 1, [⟨1, 1, "set", some "x", 0⟩, ⟨2, 2, "set", some "z", 0⟩],
        ["n1", "n2"]⟩
      [⟨3, "n1", 1, 1, [], 2⟩] := by
  intro h
  exact absurd (h.1 (by decide)).1 (by unfold AgreesUpTo; decide)

end Lumi.Raft
