import Lumi.Lib.InsertionMap
import Lumi.Lib.JsValue
import Lumi.Lib.Run

/-!
# The write coalescer

Writes of one file are merged while they are pending, and those that were enqueued run one after
the other.  A write with a payload is skipped if the hash of its payload is the one recorded last
for the file: when it is called, if nothing is pending, and when its turn has come.  The recorded
hash is that of the last completed write with a payload, so the shortcut is wrong if another write
is under way, or if the file was last written by `coalesceWrite`.  Runs in which it is never wrong
end with the payload of the last call in every file (`last_write_wins`).

Timers fire, writes land and complete in any order of the files, and the clock reads anything.
No write fails.
-/

namespace Lumi.Storage

open Js List InsertionMap Function

/-- The hash, which `toString(16)` writes out. -/
def calculateFastHash (content : Text) : UInt32 :=
  content.foldl (fun hash c => (hash ^^^ c.toUInt32) * 0x01000193) 0x811c9dc5

/-- A write of `coalesceWriteWithPayload`, or of `coalesceWrite`, which records no hash. -/
structure WriteOp where
  payload : Text
  hashed : Bool
  deriving DecidableEq

structure PendingWrite where
  op : WriteOp
  lastEnqueued : ℤ
  deriving DecidableEq

/-- How far the first write of a chain is. -/
inductive Stage
  | queued
  | writing
  | landed
  deriving DecidableEq

/-- The writes of a file that were enqueued and have not completed. -/
structure Chain where
  ops : List WriteOp
  stage : Stage

/-- The maps of the coalescer, and what the files hold. -/
structure WriteCoalescer where
  pendingWrites : InsertionMap Text PendingWrite
  inFlightWrites : Text → Chain
  lastWrittenHashes : InsertionMap Text UInt32
  disk : Text → Option Text

inductive Event
  | coalesceWriteWithPayload (filePath payload : Text) (now maxDelayMs : ℤ)
  | coalesceWrite (filePath payload : Text) (now maxDelayMs : ℤ)
  /-- the timer of a pending write fires -/
  | timer (filePath : Text)
  | flush (filePath : Text)
  /-- one pass of `flushAll` -/
  | drainPass
  /-- the first write of the chain gets its turn -/
  | start (filePath : Text)
  /-- it is on disk -/
  | land (filePath : Text)
  /-- its promise is resolved -/
  | complete (filePath : Text)
  deriving DecidableEq

def MAX_HASH_CACHE_SIZE : ℕ := 500

namespace WriteCoalescer

def new (disk : Text → Option Text) : WriteCoalescer :=
  ⟨.empty, fun _ => ⟨[], .queued⟩, .empty, disk⟩

variable (s : WriteCoalescer)

def enqueueWrite (filePath : Text) (op : WriteOp) : WriteCoalescer :=
  let chain := s.inFlightWrites filePath
  { s with inFlightWrites :=
      Function.update s.inFlightWrites filePath { chain with ops := chain.ops ++ [op] } }

/-- The pending write is enqueued, by its timer or by a flush. -/
def flush (filePath : Text) : WriteCoalescer :=
  match s.pendingWrites.get? filePath with
  | some pending =>
    { s with pendingWrites := s.pendingWrites.delete filePath }.enqueueWrite filePath pending.op
  | none => s

/-- A pending write is replaced, or the new one is enqueued, if the delay of the old one is over. -/
def schedule (filePath : Text) (op : WriteOp) (now maxDelayMs : ℤ) : WriteCoalescer :=
  match s.pendingWrites.get? filePath with
  | some existing =>
    if now - existing.lastEnqueued ≥ maxDelayMs then
      { s with pendingWrites := s.pendingWrites.delete filePath }.enqueueWrite filePath op
    else { s with
      pendingWrites := s.pendingWrites.set filePath ⟨op, existing.lastEnqueued⟩ }
  | none => { s with pendingWrites := s.pendingWrites.set filePath ⟨op, now⟩ }

/-- Is the hash of the payload the one recorded for the file? -/
def unchanged (filePath payload : Text) : Prop :=
  s.lastWrittenHashes.get? filePath = some (calculateFastHash payload)

instance (filePath payload : Text) : Decidable (s.unchanged filePath payload) :=
  inferInstanceAs (Decidable (_ = _))

def coalesceWriteWithPayload (filePath payload : Text) (now maxDelayMs : ℤ) : WriteCoalescer :=
  if s.pendingWrites.get? filePath = none ∧ s.unchanged filePath payload then s
  else s.schedule filePath ⟨payload, true⟩ now maxDelayMs

def coalesceWrite (filePath payload : Text) (now maxDelayMs : ℤ) : WriteCoalescer :=
  s.schedule filePath ⟨payload, false⟩ now maxDelayMs

/-- A full cache forgets its oldest entry. -/
def recordWrittenHash (hashes : InsertionMap Text UInt32) (filePath : Text) (hash : UInt32) :
    InsertionMap Text UInt32 :=
  let others := hashes.delete filePath
  let kept := if others.size ≥ MAX_HASH_CACHE_SIZE then
    match others.keys with
    | oldestKey :: _ => others.delete oldestKey
    | [] => others
  else others
  kept.set filePath hash

/-- Every path with a pending write; those that are only in flight are waited for. -/
def drainPass : WriteCoalescer := s.pendingWrites.keys.foldl flush s

def step (s : WriteCoalescer) : Event → WriteCoalescer
  | .coalesceWriteWithPayload filePath payload now maxDelayMs =>
    s.coalesceWriteWithPayload filePath payload now maxDelayMs
  | .coalesceWrite filePath payload now maxDelayMs =>
    s.coalesceWrite filePath payload now maxDelayMs
  | .timer filePath | .flush filePath => s.flush filePath
  | .drainPass => s.drainPass
  | .start filePath =>
    match s.inFlightWrites filePath with
    | ⟨op :: rest, .queued⟩ =>
      let chain : Chain :=
        if op.hashed ∧ s.unchanged filePath op.payload then ⟨rest, .queued⟩
        else ⟨op :: rest, .writing⟩
      { s with inFlightWrites := Function.update s.inFlightWrites filePath chain }
    | _ => s
  | .land filePath =>
    match s.inFlightWrites filePath with
    | ⟨op :: rest, .writing⟩ => { s with
        inFlightWrites := Function.update s.inFlightWrites filePath ⟨op :: rest, .landed⟩
        disk := Function.update s.disk filePath (some op.payload) }
    | _ => s
  | .complete filePath =>
    match s.inFlightWrites filePath with
    | ⟨op :: rest, .landed⟩ => { s with
        inFlightWrites := Function.update s.inFlightWrites filePath ⟨rest, .queued⟩
        lastWrittenHashes :=
          if op.hashed then
            recordWrittenHash s.lastWrittenHashes filePath (calculateFastHash op.payload)
          else s.lastWrittenHashes }
    | _ => s

/-- The payloads of the last calls. -/
def noteCall (calls : Text → Option Text) : Event → Text → Option Text
  | .coalesceWriteWithPayload filePath payload _ _ | .coalesceWrite filePath payload _ _ =>
    Function.update calls filePath (some payload)
  | _ => calls

def lastCalls (events : List Event) : Text → Option Text := events.foldl noteCall fun _ => none

/-- What the file holds once the writes in flight have landed. -/
def heldAfter (filePath : Text) : Option Text :=
  match (s.inFlightWrites filePath).ops.getLast? with
  | some op => some op.payload
  | none => s.disk filePath

/-- Where a write is skipped, the file holds its payload, or will when the writes before it have
landed.  A write that is skipped when its turn has come matters only as the last one. -/
def ShortcutSound (s : WriteCoalescer) : Event → Prop
  | .coalesceWriteWithPayload filePath payload _ _ =>
    s.pendingWrites.get? filePath = none → s.unchanged filePath payload →
      s.heldAfter filePath = some payload
  | .start filePath => ∀ op, s.inFlightWrites filePath = ⟨[op], .queued⟩ → op.hashed = true →
      s.pendingWrites.get? filePath = none → s.unchanged filePath op.payload →
        s.disk filePath = some op.payload
  | _ => True

/-! ## What the files are going to hold -/

/-- What the file holds once the pending write has landed, too. -/
def outcome (filePath : Text) : Option Text :=
  match s.pendingWrites.get? filePath with
  | some pending => some pending.op.payload
  | none => s.heldAfter filePath

variable {s} {filePath file : Text} {op : WriteOp}

section

variable (s : WriteCoalescer)

theorem heldAfter_enqueueWrite (filePath : Text) (op : WriteOp) :
    (s.enqueueWrite filePath op).heldAfter
      = Function.update s.heldAfter filePath (some op.payload) := by
  funext file
  rw [heldAfter, enqueueWrite]
  by_cases hfile : file = filePath
  · subst hfile
    simp
  · simp [hfile, heldAfter]

theorem outcome_set (filePath : Text) (pending : PendingWrite) :
    { s with pendingWrites := s.pendingWrites.set filePath pending }.outcome
      = Function.update s.outcome filePath (some pending.op.payload) := by
  funext file
  rw [outcome]
  by_cases hfile : file = filePath
  · subst hfile
    simp
  · rw [update_of_ne hfile]
    dsimp only
    rw [get?_set_of_ne s.pendingWrites pending hfile]
    rfl

theorem outcome_enqueue (filePath : Text) (op : WriteOp) :
    ({ s with pendingWrites := s.pendingWrites.delete filePath }.enqueueWrite filePath op).outcome
      = Function.update s.outcome filePath (some op.payload) := by
  funext file
  rw [outcome, heldAfter_enqueueWrite]
  show (match (s.pendingWrites.delete filePath).get? file with | some p => _ | none => _) = _
  by_cases hfile : file = filePath
  · subst hfile
    rw [get?_delete_self]
    dsimp only
    rw [update_self, update_self]
  · rw [get?_delete_of_ne _ hfile, update_of_ne hfile,
      update_of_ne hfile]
    rfl

theorem outcome_flush (filePath : Text) :
    (s.flush filePath).outcome = s.outcome := by
  rw [flush]
  cases hpending : s.pendingWrites.get? filePath with
  | none => rfl
  | some pending =>
    have hheld : s.outcome filePath = some pending.op.payload := by rw [outcome, hpending]
    exact (outcome_enqueue s filePath pending.op).trans (hheld ▸ update_eq_self ..)

theorem outcome_schedule (filePath : Text) (op : WriteOp)
    (now maxDelayMs : ℤ) : (s.schedule filePath op now maxDelayMs).outcome
      = Function.update s.outcome filePath (some op.payload) := by
  rw [schedule]
  cases s.pendingWrites.get? filePath with
  | none => exact outcome_set s filePath _
  | some existing =>
    dsimp only
    split
    · exact outcome_enqueue s filePath op
    · exact outcome_set s filePath _

theorem outcome_drainPass : s.drainPass.outcome = s.outcome := by
  have hfold : ∀ paths : List Text, ∀ s : WriteCoalescer,
      (paths.foldl flush s).outcome = s.outcome := by
    intro paths
    induction paths with
    | nil => exact fun _ => rfl
    | cons path rest ih => exact fun s => (ih (s.flush path)).trans (outcome_flush s path)
  exact hfold _ s

end

/-- What is held after a chain does not depend on its first write, if there are others or it is on
disk. -/
theorem heldAfter_tail {rest : List WriteOp} {stage stage' : Stage}
    (hchain : s.inFlightWrites filePath = ⟨op :: rest, stage⟩)
    (hdisk : rest = [] → s.disk filePath = some op.payload) (hashes : InsertionMap Text UInt32) :
    ({ s with
        inFlightWrites := Function.update s.inFlightWrites filePath ⟨rest, stage'⟩
        lastWrittenHashes := hashes } : WriteCoalescer).heldAfter filePath
      = s.heldAfter filePath := by
  rw [heldAfter, heldAfter, hchain]
  show (match (Function.update s.inFlightWrites filePath ⟨rest, stage'⟩ filePath).ops.getLast? with
    | some op => _ | none => _) = _
  rw [update_self]
  cases rest with
  | nil => exact hdisk rfl
  | cons next rest => rw [getLast?_cons_cons]

/-- An event of one chain keeps the outcome, if what is held after that chain stays the same where
nothing is pending. -/
theorem outcome_of_heldAfter {s' : WriteCoalescer} (hpending : s'.pendingWrites = s.pendingWrites)
    (hheld : s.pendingWrites.get? filePath = none →
      s'.heldAfter filePath = s.heldAfter filePath)
    (hothers : ∀ file, file ≠ filePath → s'.heldAfter file = s.heldAfter file) :
    s'.outcome = s.outcome := by
  funext file
  rw [outcome, outcome, hpending]
  cases hfile : s.pendingWrites.get? file with
  | some pending => rfl
  | none =>
    by_cases heq : file = filePath
    · subst heq
      exact hheld hfile
    · exact hothers file heq

/-- A write that has landed is on disk until it completes. -/
def Landed (s : WriteCoalescer) : Prop :=
  ∀ file, (s.inFlightWrites file).stage = .landed →
    ∃ op rest, (s.inFlightWrites file).ops = op :: rest ∧ s.disk file = some op.payload

theorem Landed.enqueueWrite (h : s.Landed) (filePath : Text) (op : WriteOp) :
    (s.enqueueWrite filePath op).Landed := by
  intro file hstage
  rw [WriteCoalescer.enqueueWrite] at hstage ⊢
  dsimp only at hstage ⊢
  by_cases hfile : file = filePath
  · subst hfile
    rw [update_self] at hstage ⊢
    obtain ⟨first, rest, hops, hdisk⟩ := h file hstage
    exact ⟨first, rest ++ [op], by rw [hops, cons_append], hdisk⟩
  · rw [update_of_ne hfile] at hstage ⊢
    exact h file hstage

theorem Landed.flush (h : s.Landed) (filePath : Text) : (s.flush filePath).Landed := by
  rw [WriteCoalescer.flush]
  split
  · exact Landed.enqueueWrite (s := { s with pendingWrites := _ }) h filePath _
  · exact h

theorem Landed.schedule (h : s.Landed) (filePath : Text) (op : WriteOp) (now maxDelayMs : ℤ) :
    (s.schedule filePath op now maxDelayMs).Landed := by
  rw [WriteCoalescer.schedule]
  split
  · split
    · exact Landed.enqueueWrite (s := { s with pendingWrites := _ }) h filePath op
    · exact h
  · exact h

theorem Landed.drainPass (h : s.Landed) : s.drainPass.Landed := by
  have hfold : ∀ paths : List Text, ∀ s : WriteCoalescer, s.Landed →
      (paths.foldl WriteCoalescer.flush s).Landed := by
    intro paths
    induction paths with
    | nil => exact fun _ h => h
    | cons path rest ih => exact fun _ h => ih _ (h.flush path)
  exact hfold _ s h

/-- A chain whose first write is not on disk may be changed at will. -/
theorem Landed.update (h : s.Landed) (filePath : Text) {chain : Chain}
    (hstage : chain.stage ≠ .landed) (hashes : InsertionMap Text UInt32) :
    ({ s with
        inFlightWrites := Function.update s.inFlightWrites filePath chain
        lastWrittenHashes := hashes } : WriteCoalescer).Landed := by
  intro file hlanded
  dsimp only at hlanded ⊢
  by_cases hfile : file = filePath
  · subst hfile
    rw [update_self] at hlanded
    exact absurd hlanded hstage
  · rw [update_of_ne hfile] at hlanded ⊢
    exact h file hlanded

theorem Landed.step (h : s.Landed) (event : Event) : (s.step event).Landed := by
  cases event with
  | coalesceWriteWithPayload filePath payload now maxDelayMs =>
    rw [WriteCoalescer.step, WriteCoalescer.coalesceWriteWithPayload]
    split
    · exact h
    · exact h.schedule filePath _ now maxDelayMs
  | coalesceWrite filePath payload now maxDelayMs =>
    exact h.schedule filePath _ now maxDelayMs
  | timer filePath => exact h.flush filePath
  | flush filePath => exact h.flush filePath
  | drainPass => exact h.drainPass
  | start filePath =>
    rw [WriteCoalescer.step]
    split
    · refine h.update filePath ?_ s.lastWrittenHashes
      split <;> simp
    · exact h
  | land filePath =>
    rw [WriteCoalescer.step]
    split
    · next op rest hchain =>
      intro file hlanded
      dsimp only at hlanded ⊢
      by_cases hfile : file = filePath
      · subst hfile
        rw [update_self, update_self]
        exact ⟨op, rest, rfl, rfl⟩
      · rw [update_of_ne hfile] at hlanded ⊢
        rw [update_of_ne hfile]
        exact h file hlanded
    · exact h
  | complete filePath =>
    rw [WriteCoalescer.step]
    split
    · exact h.update filePath (by simp) _
    · exact h

theorem heldAfter_congr {s' : WriteCoalescer}
    (hchain : s'.inFlightWrites file = s.inFlightWrites file) (hdisk : s'.disk file = s.disk file) :
    s'.heldAfter file = s.heldAfter file := by
  rw [heldAfter, heldAfter, hchain, hdisk]

/-- **Step lemma.**  A call is what its file is going to hold, and other events change nothing. -/
theorem outcome_step (hlanded : s.Landed) {event : Event} (hsound : s.ShortcutSound event) :
    (s.step event).outcome = noteCall s.outcome event := by
  cases event with
  | coalesceWriteWithPayload filePath payload now maxDelayMs =>
    rw [step, coalesceWriteWithPayload, noteCall]
    split
    · next hskip =>
      have hheld : s.outcome filePath = some payload := by
        rw [outcome, hskip.1]
        exact hsound hskip.1 hskip.2
      rw [← hheld, update_eq_self]
    · exact outcome_schedule s filePath _ now maxDelayMs
  | coalesceWrite filePath payload now maxDelayMs =>
    exact outcome_schedule s filePath _ now maxDelayMs
  | timer filePath => exact outcome_flush s filePath
  | flush filePath => exact outcome_flush s filePath
  | drainPass => exact outcome_drainPass s
  | start filePath =>
    show _ = s.outcome
    rw [step]
    split
    · next op rest hchain =>
      refine outcome_of_heldAfter rfl (fun hpending => ?_) fun file hfile =>
        heldAfter_congr (update_of_ne hfile ..) rfl
      split
      · next hskip =>
        refine heldAfter_tail hchain (fun hrest => ?_) s.lastWrittenHashes
        exact hsound op (hrest ▸ hchain) hskip.1 hpending hskip.2
      · rw [heldAfter, heldAfter, hchain]
        dsimp only
        rw [update_self]
    · rfl
  | land filePath =>
    show _ = s.outcome
    rw [step]
    split
    · next op rest hchain =>
      refine outcome_of_heldAfter rfl (fun _ => ?_) fun file hfile =>
        heldAfter_congr (update_of_ne hfile ..) (update_of_ne hfile ..)
      rw [heldAfter, heldAfter, hchain]
      dsimp only
      rw [update_self, getLast?_cons]
    · rfl
  | complete filePath =>
    show _ = s.outcome
    rw [step]
    split
    · next op rest hchain =>
      refine outcome_of_heldAfter rfl (fun _ => ?_) fun file hfile =>
        heldAfter_congr (update_of_ne hfile ..) rfl
      obtain ⟨first, rest', hops, hdisk⟩ := hlanded filePath (by rw [hchain])
      rw [hchain] at hops
      obtain ⟨rfl, rfl⟩ := cons_eq_cons.mp hops
      exact heldAfter_tail hchain (fun _ => hdisk) _
    · rfl

/-- **Run lemma.** -/
theorem outcome_run {events : List Event} : ∀ {s : WriteCoalescer}, s.Landed →
    Run.Guarded step ShortcutSound s events →
      (Run.run step s events).outcome = events.foldl noteCall s.outcome := by
  induction events with
  | nil => exact fun _ _ => rfl
  | cons event rest ih =>
    intro s hlanded hsound
    rw [Run.run_cons, ih (hlanded.step event) hsound.2, outcome_step hlanded hsound.1,
      foldl_cons]

theorem landed_new (disk : Text → Option Text) : (new disk).Landed := fun _ h => by
  cases h

theorem noteCall_eq (calls : Text → Option Text) (event : Event) (file : Text) :
    noteCall calls event file = (noteCall (fun _ => none) event file).or (calls file) := by
  cases event with
  | coalesceWriteWithPayload filePath payload now maxDelayMs
  | coalesceWrite filePath payload now maxDelayMs =>
    rw [noteCall, noteCall]
    by_cases hfile : file = filePath
    · subst hfile
      rw [update_self, update_self, Option.some_or]
    · rw [update_of_ne hfile, update_of_ne hfile, Option.none_or]
  | _ => rfl

/-- What was noted before counts only where no call was made. -/
theorem foldl_noteCall {events : List Event} : ∀ {calls : Text → Option Text},
    events.foldl noteCall calls file = (lastCalls events file).or (calls file) := by
  induction events with
  | nil => exact fun {_} => rfl
  | cons event rest ih =>
    intro calls
    rw [lastCalls, foldl_cons, foldl_cons, ih, ih, noteCall_eq, Option.or_assoc]

/-- In every run whose shortcuts are all sound, each file for which no write is pending or in
flight holds the payload of the last call made for it. -/
theorem last_write_wins (disk : Text → Option Text) (events : List Event)
    (hsound : Run.Guarded step ShortcutSound (new disk) events) (filePath payload : Text)
    (hcall : lastCalls events filePath = some payload) :
    let s := Run.run step (new disk) events
    s.pendingWrites.get? filePath = none → (s.inFlightWrites filePath).ops = [] →
      s.disk filePath = some payload := by
  intro s hpending hops
  have houtcome : s.outcome filePath = some payload := by
    rw [outcome_run (landed_new disk) hsound, foldl_noteCall, hcall, Option.some_or]
  rwa [outcome, hpending, heldAfter, hops] at houtcome

/-- A file is written, and written again while the first payload is pending. -/
theorem two_writes_win :
    let file := text "a.json"
    let events : List Event := [.coalesceWriteWithPayload file (text "A") 0 3000,
      .coalesceWriteWithPayload file (text "B") 100 3000, .timer file, .start file, .land file,
      .complete file]
    (Run.run step (new fun _ => none) events).disk file = some (text "B") := by
  intro file events
  have hsound : Run.Guarded step ShortcutSound (new fun _ => none) events := by
    refine ⟨fun _ h => absurd h (by decide), fun h => absurd h (by decide), trivial, ?_, trivial,
      trivial, trivial⟩
    intro op _ _ _ h
    have hnone : (Run.run step (new fun _ => none) (events.take 3)).lastWrittenHashes.get? file
        = none := by decide
    exact absurd (hnone.symm.trans h) (by simp)
  exact last_write_wins (fun _ => none) events hsound file (text "B") (by decide) (by decide)
    (by decide)

/-- A payload comes back while another one is being written; and a file is written by both kinds
of calls. -/
theorem returning_payload_lost :
    let file := text "a.json"
    let write (payload : String) : List Event :=
      [.coalesceWriteWithPayload file (text payload) 0 3000, .timer file, .start file]
    let done : List Event := [.land file, .complete file]
    let interleaved := write "A" ++ done ++ write "B"
      ++ [.coalesceWriteWithPayload file (text "A") 0 3000] ++ done
    let mixed := write "A" ++ done ++ [.coalesceWrite file (text "B") 0 3000, .timer file,
      .start file] ++ done ++ [.coalesceWriteWithPayload file (text "A") 0 3000]
    ∀ events ∈ [interleaved, mixed],
      let s := Run.run step (new fun _ => none) events
      lastCalls events file = some (text "A") ∧ s.pendingWrites.get? file = none
        ∧ (s.inFlightWrites file).ops = [] ∧ s.disk file = some (text "B") := by
  decide

end WriteCoalescer

end Lumi.Storage
