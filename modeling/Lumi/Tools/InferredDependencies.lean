import Lumi.Db.Record
import Lumi.Lib.Decimal
import Lumi.Lib.PosixPath
import Lumi.Tools.ToolDependencyGraphPlanner

/-!
# Inferred dependencies

`inferDependenciesFromBatch` lets a call wait for the calls its arguments refer to, and for the last
call before it that writes the file it names.  So a call comes after every earlier writer of the
file; what it does not look at is whether an earlier call reads the file that a call writes, or
names the file by another path.

Calls are taken by their place in the batch.
-/

namespace Lumi.Tools

open Js Db List

structure ToolCall (ρ : Type*) where
  id : Option Text
  name : Text
  args : ρ

namespace ToolDependencyGraphPlanner

variable {ρ : Type*} [Record ρ]

/-- `[a-zA-Z0-9_-]`. -/
def isReferenceUnit (c : UInt16) : Bool :=
  (0x61 ≤ c && c ≤ 0x7A) || (0x41 ≤ c && c ≤ 0x5A) || (0x30 ≤ c && c ≤ 0x39) || c = 0x5F || c = 0x2D

/-- The id between `$` and `.` at the beginning of a text. -/
def reference? : Text → Option Text
  | [] => none
  | c :: rest =>
    let id := rest.takeWhile isReferenceUnit
    if c = 0x24 ∧ id ≠ [] ∧ (rest.drop id.length).head? = some 0x2E then some id else none

/-- The ids that `/\\$([a-zA-Z0-9_-]+)\\./g` finds: no match begins inside of another one. -/
def references (serialized : Text) : List Text := serialized.tails.filterMap reference?

/-- `dependencies` with one more id, if it is not there. -/
def addDependency (dependencies : List Text) (depId : Text) : List Text :=
  if dependencies.contains depId then dependencies else dependencies ++ [depId]

def callId (call : ToolCall ρ) (i : ℕ) : Text :=
  match call.id with
  | some (c :: rest) => c :: rest
  | _ => text "node_" ++ decimal (i + 1)

/-- The path a call names, if it is not empty. -/
def targetPath (args : ρ) : Option Text :=
  let path := match fieldOf args (text "path") with
    | .string path => some path
    | _ =>
      match fieldOf args (text "filePath") with
      | .string path => some path
      | _ => none
  path.filter (· ≠ [])

def fullPath (cwd path : Text) : Text :=
  if startsWith path (text "/") then path else cwd ++ text "/" ++ path

def isWriter (name : Text) : Bool :=
  includes name (text "write") || includes name (text "replace") || includes name (text "append")
    || includes name (text "patch")

/-- The nodes so far, and `resourceWriters` from a path to the id of the node that wrote it last. -/
structure Inference (ρ : Type*) where
  nodes : List (DAGToolNode ρ)
  resourceWriters : InsertionMap Text Text

section

variable (cwd : Text)

/-- The path of a call as the writers are recorded under. -/
def resource (call : ToolCall ρ) : Option Text :=
  (targetPath call.args).map (fullPath cwd)

def inferNode (s : Inference ρ) (call : ToolCall ρ) : DAGToolNode ρ :=
  let id := callId call s.nodes.length
  let piped := (references (Record.stringify call.args)).foldl addDependency []
  { id
    toolName := call.name
    args := call.args
    dependencies :=
      match (resource cwd call).bind s.resourceWriters.get? with
      | some prevWriterId =>
        if prevWriterId ≠ [] ∧ prevWriterId ≠ id then addDependency piped prevWriterId else piped
      | none => piped }

/-- One turn of the loop. -/
def inferNext (s : Inference ρ) (call : ToolCall ρ) : Inference ρ where
  nodes := s.nodes ++ [inferNode cwd s call]
  resourceWriters :=
    match resource cwd call with
    | some fullPath =>
      if isWriter call.name then s.resourceWriters.set fullPath (inferNode cwd s call).id
      else s.resourceWriters
    | none => s.resourceWriters

def infer (calls : List (ToolCall ρ)) : Inference ρ :=
  calls.foldl (inferNext cwd) ⟨[], .empty⟩

def inferDependenciesFromBatch (calls : List (ToolCall ρ)) : List (DAGToolNode ρ) :=
  (infer cwd calls).nodes

end

/-! ## What a call waits for -/

variable (cwd : Text) (calls : List (ToolCall ρ))

/-- The call at that place writes the file recorded under the path. -/
def Writes (path : Text) (i : ℕ) : Prop :=
  ∃ call ∈ calls[i]?, isWriter call.name = true ∧ resource cwd call = some path

/-- The last call before place `i` that writes the path. -/
def LastWriter (path : Text) (i k : ℕ) : Prop :=
  k < i ∧ Writes cwd calls path k ∧ ∀ k', k < k' → k' < i → ¬ Writes cwd calls path k'

/-- The call at place `i` waits for the call at place `k`: its arguments refer to it, or it was the
last before it to write the path. -/
def WaitsFor (i k : ℕ) : Prop :=
  ∃ call ∈ calls[i]?, ∃ other ∈ calls[k]?,
    callId other k ∈ references (Record.stringify call.args)
      ∨ ∃ path ∈ resource cwd call, LastWriter cwd calls path i k

/-- The ids of the calls, given or made up. -/
def ids : List Text := calls.zipIdx.map fun entry => callId entry.1 entry.2

variable {cwd calls}

theorem mem_foldl_addDependency (found dependencies : List Text) (depId : Text) :
    depId ∈ found.foldl addDependency dependencies ↔ depId ∈ dependencies ∨ depId ∈ found := by
  induction found generalizing dependencies with
  | nil => simp
  | cons first rest ih =>
    rw [foldl_cons, ih, addDependency, mem_cons]
    split
    · next hin =>
      have hmem := contains_iff_mem.mp hin
      constructor
      · rintro (h | h)
        · exact .inl h
        · exact .inr (.inr h)
      · rintro (h | rfl | h)
        · exact .inl h
        · exact .inl hmem
        · exact .inr h
    · rw [mem_append, mem_singleton, or_assoc]

omit [Record ρ] in
theorem callId_ne_nil (call : ToolCall ρ) (i : ℕ) : callId call i ≠ [] := by
  unfold callId
  split
  · exact cons_ne_nil _ _
  · exact append_ne_nil_of_left_ne_nil (by decide) _

variable {path : Text}

variable {call : ToolCall ρ}

theorem writes_append {k : ℕ} (hk : k < calls.length) :
    Writes cwd (calls ++ [call]) path k ↔ Writes cwd calls path k := by
  unfold Writes
  rw [getElem?_append_left hk]

theorem lastWriter_append {i k : ℕ} (hi : i ≤ calls.length) :
    LastWriter cwd (calls ++ [call]) path i k ↔ LastWriter cwd calls path i k := by
  unfold LastWriter
  refine and_congr_right fun hlt => ?_
  rw [writes_append (by omega)]
  refine and_congr_right fun _ => forall_congr' fun k' => forall_congr' fun _ =>
    forall_congr' fun hlt' => not_congr ?_
  exact writes_append (by omega)

/-- The writers after one more call: the call itself, or those before. -/
theorem lastWriter_succ {k : ℕ} : LastWriter cwd calls path (k + 1) k
    ↔ Writes cwd calls path k := by
  constructor
  · exact fun h => h.2.1
  · exact fun h => ⟨by omega, h, fun k' hlt hlt' => by omega⟩

theorem lastWriter_skip {i k : ℕ} (hnot : ¬ Writes cwd calls path i) :
    LastWriter cwd calls path (i + 1) k ↔ LastWriter cwd calls path i k := by
  constructor
  · rintro ⟨hlt, hwrites, hlast⟩
    have hne : k ≠ i := fun heq => hnot (heq ▸ hwrites)
    exact ⟨by omega, hwrites, fun k' hlt' hi => hlast k' hlt' (by omega)⟩
  · rintro ⟨hlt, hwrites, hlast⟩
    refine ⟨by omega, hwrites, fun k' hlt' hi => ?_⟩
    rcases Nat.lt_succ_iff_lt_or_eq.mp hi with hi | rfl
    · exact hlast k' hlt' hi
    · exact hnot

theorem LastWriter.unique {i k k' : ℕ} (h : LastWriter cwd calls path i k)
    (h' : LastWriter cwd calls path i k') : k = k' := by
  rcases Nat.lt_trichotomy k k' with hlt | heq | hlt
  · exact absurd h'.2.1 (h.2.2 k' hlt h'.1)
  · exact heq
  · exact absurd h.2.1 (h'.2.2 k hlt h.1)

/-- What the loop has after a batch: a node for each call, and the last writer of each path. -/
structure Inferred (cwd : Text) (calls : List (ToolCall ρ)) (s : Inference ρ) : Prop where
  length_eq : s.nodes.length = calls.length
  node : ∀ i, ∀ call ∈ calls[i]?, ∃ node ∈ s.nodes[i]?, node.id = callId call i
    ∧ ∀ depId, depId ∈ node.dependencies ↔ depId ∈ references (Record.stringify call.args)
      ∨ depId ≠ callId call i ∧ ∃ path ∈ resource cwd call, ∃ k, LastWriter cwd calls path i k
        ∧ ∃ other ∈ calls[k]?, callId other k = depId
  writer : ∀ path id, s.resourceWriters.get? path = some id
    ↔ ∃ k, LastWriter cwd calls path calls.length k ∧ ∃ other ∈ calls[k]?, callId other k = id

/-- The dependencies of a node: what its arguments refer to, and the recorded writer. -/
theorem mem_inferNode {s : Inference ρ} {recorded : Text → Text → Prop}
    (hwriters : ∀ path id, s.resourceWriters.get? path = some id ↔ recorded path id)
    (hnonempty : ∀ path id, recorded path id → id ≠ []) (depId : Text) :
    depId ∈ (inferNode cwd s call).dependencies
      ↔ depId ∈ references (Record.stringify call.args)
        ∨ depId ≠ callId call s.nodes.length ∧ ∃ path ∈ resource cwd call, recorded path depId := by
  have hpiped : ∀ depId, depId ∈ (references (Record.stringify call.args)).foldl addDependency []
      ↔ depId ∈ references (Record.stringify call.args) := by
    intro depId
    rw [mem_foldl_addDependency]
    simp
  have hadd : ∀ (dependencies : List Text) (id depId : Text),
      depId ∈ addDependency dependencies id ↔ depId ∈ dependencies ∨ depId = id := by
    intro dependencies id depId
    rw [← mem_singleton, ← mem_foldl_addDependency]
    rfl
  rw [inferNode]
  dsimp only
  cases hfound : (resource cwd call).bind s.resourceWriters.get? with
  | none =>
    dsimp only
    rw [hpiped]
    refine (or_iff_left ?_).symm
    rintro ⟨-, path, hpath, hrecorded⟩
    rw [Option.mem_def.mp hpath, Option.bind_some, (hwriters path depId).mpr hrecorded] at hfound
    cases hfound
  | some prevWriterId =>
    obtain ⟨path, hpath, hget⟩ := Option.bind_eq_some_iff.mp hfound
    have hrecorded := (hwriters path prevWriterId).mp hget
    have honly : (∃ path ∈ resource cwd call, recorded path depId) ↔ depId = prevWriterId := by
      constructor
      · rintro ⟨path', hpath', hrecorded'⟩
        obtain rfl : path = path' := Option.some.inj (hpath.symm.trans hpath')
        exact Option.some.inj (((hwriters path depId).mpr hrecorded').symm.trans hget)
      · rintro rfl
        exact ⟨path, hpath, hrecorded⟩
    rw [honly]
    dsimp only
    by_cases hself : prevWriterId = callId call s.nodes.length
    · rw [if_neg fun h => h.2 hself, hpiped]
      refine (or_iff_left ?_).symm
      rintro ⟨hne, rfl⟩
      exact hne hself
    · rw [if_pos ⟨hnonempty path _ hrecorded, hself⟩, hadd, hpiped]
      refine or_congr_right ⟨?_, fun h => h.2⟩
      rintro rfl
      exact ⟨hself, rfl⟩

/-- **Step lemma.**  One more call. -/
theorem Inferred.next {s : Inference ρ} (h : Inferred cwd calls s) (call : ToolCall ρ) :
    Inferred cwd (calls ++ [call]) (inferNext cwd s call) := by
  have hlen := h.length_eq
  have hself : (calls ++ [call])[calls.length]? = some call := by simp
  have hwrites : ∀ path, Writes cwd (calls ++ [call]) path calls.length
      ↔ isWriter call.name = true ∧ resource cwd call = some path := by
    intro path
    unfold Writes
    rw [hself]
    simp
  have hold : ∀ k, k < calls.length → (calls ++ [call])[k]? = calls[k]? := fun k hk =>
    getElem?_append_left hk
  -- the writers recorded before are those of the longer batch at this place
  have hbefore : ∀ path id, s.resourceWriters.get? path = some id
      ↔ ∃ k, LastWriter cwd (calls ++ [call]) path calls.length k
        ∧ ∃ other ∈ (calls ++ [call])[k]?, callId other k = id := by
    intro path id
    rw [h.writer]
    refine exists_congr fun k => ?_
    rw [lastWriter_append (Nat.le_refl _)]
    exact and_congr_right fun hlast => by rw [hold k hlast.1]
  refine ⟨?_, fun i first hfirst => ?_, fun path id => ?_⟩
  · show (s.nodes ++ [_]).length = (calls ++ [call]).length
    rw [length_append, length_append, hlen]
    rfl
  · by_cases hi : i < calls.length
    · rw [hold i hi] at hfirst
      obtain ⟨node, hnode, hid, hdeps⟩ := h.node i first hfirst
      refine ⟨node, ?_, hid, fun depId => ?_⟩
      · show (s.nodes ++ [_])[i]? = some node
        rw [getElem?_append_left (by omega)]
        exact hnode
      · rw [hdeps]
        refine or_congr_right (and_congr_right fun _ => exists_congr fun path =>
          and_congr_right fun _ => exists_congr fun k => ?_)
        rw [lastWriter_append (by omega)]
        exact and_congr_right fun hlast => by rw [hold k (by have := hlast.1; omega)]
    · have hplace : i = calls.length := by
        have hlt := (List.getElem?_eq_some_iff.mp hfirst).1
        rw [length_append, length_singleton] at hlt
        omega
      subst hplace
      obtain rfl : first = call := Option.some.inj (hfirst.symm.trans hself)
      refine ⟨inferNode cwd s first, ?_, congrArg (callId first) hlen, fun depId => ?_⟩
      · show (s.nodes ++ [_])[calls.length]? = some _
        rw [← hlen, getElem?_concat_length]
      · have hnonempty : ∀ path id, (∃ k, LastWriter cwd (calls ++ [first]) path calls.length k
            ∧ ∃ other ∈ (calls ++ [first])[k]?, callId other k = id) → id ≠ [] := by
          rintro path id ⟨k, -, other, -, rfl⟩
          exact callId_ne_nil other k
        rw [mem_inferNode hbefore hnonempty, hlen]
  · have hid : (inferNode cwd s call).id = callId call calls.length :=
      congrArg (callId call) hlen
    rw [length_append, length_singleton]
    by_cases hnow : Writes cwd (calls ++ [call]) path calls.length
    · obtain ⟨hwriter, hpath⟩ := (hwrites path).mp hnow
      rw [inferNext, hpath]
      dsimp only
      rw [if_pos hwriter, InsertionMap.get?_set_self, hid]
      constructor
      · intro heq
        exact ⟨calls.length, lastWriter_succ.mpr hnow, call, hself, Option.some.inj heq⟩
      · rintro ⟨k, hlast, other, hother, rfl⟩
        obtain rfl := hlast.unique (lastWriter_succ.mpr hnow)
        rw [hself] at hother
        exact congrArg (fun call => some (callId call _)) (Option.some.inj hother)
    · have hkept : (inferNext cwd s call).resourceWriters.get? path
          = s.resourceWriters.get? path := by
        rw [inferNext]
        dsimp only
        split
        · next fullPath hpath =>
          split
          · next hwriter =>
            refine InsertionMap.get?_set_of_ne _ _ fun heq => hnow ?_
            exact (hwrites path).mpr ⟨hwriter, heq ▸ hpath⟩
          · rfl
        · rfl
      rw [hkept, hbefore]
      exact exists_congr fun k => and_congr_left fun _ => (lastWriter_skip hnow).symm

theorem inferred (calls : List (ToolCall ρ)) : Inferred cwd calls (infer cwd calls) := by
  induction calls using List.reverseRecOn with
  | nil =>
    refine ⟨rfl, fun i call h => absurd h (by simp), fun path id => iff_of_false (by simp [infer]) ?_⟩
    rintro ⟨k, hlast, -⟩
    exact absurd hlast.1 (Nat.not_lt_zero k)
  | append_singleton calls call ih =>
    rw [infer, foldl_append]
    exact ih.next call

omit [Record ρ] in
theorem mem_ids {id : Text} : id ∈ ids calls ↔ ∃ i, ∃ call ∈ calls[i]?, callId call i = id := by
  rw [ids, mem_map]
  constructor
  · rintro ⟨⟨call, i⟩, hentry, rfl⟩
    exact ⟨i, call, mk_mem_zipIdx_iff_getElem?.mp hentry, rfl⟩
  · rintro ⟨i, call, hcall, rfl⟩
    exact ⟨(call, i), mk_mem_zipIdx_iff_getElem?.mpr hcall, rfl⟩

omit [Record ρ] in
/-- Distinct ids tell the places apart. -/
theorem place_unique (hids : (ids calls).Nodup) {i j : ℕ} {first second : ToolCall ρ}
    (hfirst : first ∈ calls[i]?) (hsecond : second ∈ calls[j]?)
    (heq : callId first i = callId second j) : i = j := by
  have hget : ∀ k, ∀ call ∈ calls[k]?, (ids calls)[k]? = some (callId call k) := by
    intro k call hcall
    rw [ids, getElem?_map, getElem?_zipIdx, hcall]
    simp
  have hi := hget i first hfirst
  have hj := hget j second hsecond
  rw [← heq] at hj
  exact (getElem?_inj (List.getElem?_eq_some_iff.mp hi).1 hids).mp (hi.trans hj.symm)

theorem map_id_infer (calls : List (ToolCall ρ)) :
    (inferDependenciesFromBatch cwd calls).map DAGToolNode.id = ids calls := by
  have h := @inferred ρ _ cwd calls
  apply ext_getElem?
  intro i
  rw [getElem?_map, ids, getElem?_map, getElem?_zipIdx]
  cases hcall : calls[i]? with
  | none =>
    have hlen : (infer cwd calls).nodes.length ≤ i := by
      rw [h.length_eq]
      exact List.getElem?_eq_none_iff.mp hcall
    rw [inferDependenciesFromBatch, List.getElem?_eq_none_iff.mpr hlen]
    rfl
  | some call =>
    obtain ⟨node, hnode, hid, -⟩ := h.node i call hcall
    rw [inferDependenciesFromBatch, hnode, Option.map_some, hid]
    simp

/-- The dependencies between the nodes are those between the calls. -/
theorem needs_infer_iff (hids : (ids calls).Nodup) {i : ℕ} (hcall : call ∈ calls[i]?) {depId : Text} :
    Needs (inferDependenciesFromBatch cwd calls) (callId call i) depId
      ↔ ∃ k, WaitsFor cwd calls i k ∧ ∃ other ∈ calls[k]?, callId other k = depId := by
  obtain ⟨node, hnode, hid, hdeps⟩ := (@inferred ρ _ cwd calls).node i call hcall
  have honly : ∀ other ∈ inferDependenciesFromBatch cwd calls, other.id = callId call i →
      other = node := by
    intro other hother heq
    refine inj_on_of_nodup_map ?_ hother (mem_of_getElem? hnode) (heq.trans hid.symm)
    rwa [map_id_infer]
  rw [Needs, map_id_infer, mem_ids]
  constructor
  · rintro ⟨⟨k, other, hother, rfl⟩, found, hfound, heq, hin⟩
    obtain rfl := honly found hfound heq
    refine ⟨k, ⟨call, hcall, other, hother, ?_⟩, other, hother, rfl⟩
    rcases (hdeps _).mp hin with hreference | ⟨-, path, hpath, k', hlast, writer, hwriter, heq'⟩
    · exact .inl hreference
    · obtain rfl := place_unique hids hwriter hother heq'
      exact .inr ⟨path, hpath, hlast⟩
  · rintro ⟨k, ⟨call', hcall', other', hother', hwaits⟩, other, hother, rfl⟩
    obtain rfl := Option.some.inj (hcall.symm.trans hcall')
    obtain rfl := Option.some.inj (hother.symm.trans hother')
    refine ⟨⟨k, other, hother, rfl⟩, node, mem_of_getElem? hnode, hid, (hdeps _).mpr ?_⟩
    rcases hwaits with hreference | ⟨path, hpath, hlast⟩
    · exact .inl hreference
    · refine .inr ⟨fun heq => ?_, path, hpath, k, hlast, other, hother, rfl⟩
      have hplace := place_unique hids hother hcall heq
      exact absurd hlast.1 (by omega)

theorem chain_infer_iff (hids : (ids calls).Nodup) (n : ℕ) : ∀ {i : ℕ} {call : ToolCall ρ},
    call ∈ calls[i]? → (Layers.Chain (Needs (inferDependenciesFromBatch cwd calls)) n
      (callId call i) ↔ Layers.Chain (WaitsFor cwd calls) n i) := by
  induction n with
  | zero => exact fun _ => Iff.rfl
  | succ n ih =>
    intro i call hcall
    constructor
    · rintro ⟨depId, hneeds, hchain⟩
      obtain ⟨k, hwaits, other, hother, rfl⟩ := (needs_infer_iff hids hcall).mp hneeds
      exact ⟨k, hwaits, (ih hother).mp hchain⟩
    · rintro ⟨k, hwaits, hchain⟩
      obtain ⟨-, -, other, hother, -⟩ := id hwaits
      exact ⟨callId other k, (needs_infer_iff hids hcall).mpr ⟨k, hwaits, other, hother, rfl⟩,
        (ih hother).mpr hchain⟩

/-! ## Conflicting calls -/

section

variable (processCwd cwd : Text)

/-- The file a call is on, up to the spelling of its path. -/
def file (call : ToolCall ρ) : Option Text :=
  (resource cwd call).map fun path => PosixPath.resolve processCwd [path]

section

variable (calls : List (ToolCall ρ))

/-- The calls at two places are on one file, and one of them writes it. -/
def Conflict (i j : ℕ) : Prop :=
  ∃ first ∈ calls[i]?, ∃ second ∈ calls[j]?,
    (isWriter first.name = true ∨ isWriter second.name = true)
      ∧ ∃ path, file processCwd cwd first = some path ∧ file processCwd cwd second = some path

/-- Of two conflicting calls, the earlier one runs in an earlier wave. -/
def KeptApart (nodes : List (DAGToolNode ρ)) (plan : DAGExecutionPlan ρ) : Prop :=
  ∀ i j, i < j → Conflict processCwd cwd calls i j → ∀ node ∈ nodes[i]?, ∀ later ∈ nodes[j]?,
    (∀ w, ¬ (plan.InWave w node ∧ plan.InWave w later))
      ∧ ∀ w, plan.InWave w later → ∃ v < w, plan.InWave v node

/-- The earlier of two conflicting calls only reads, or the two name the file by different paths. -/
def Overlooked (i j : ℕ) : Prop :=
  i < j ∧ Conflict processCwd cwd calls i j
    ∧ ¬ ∃ path, Writes cwd calls path i ∧ ∃ second ∈ calls[j]?, resource cwd second = some path

end

end

/-- A call comes after every earlier writer of its path: from the last writer on, one by one. -/
theorem chain_of_writes {i j n : ℕ} (hlt : i < j) (hwrites : Writes cwd calls path i)
    {second : ToolCall ρ} (hsecond : second ∈ calls[j]?) (hpath : resource cwd second = some path)
    (hchain : Layers.Chain (WaitsFor cwd calls) n i) :
    Layers.Chain (WaitsFor cwd calls) (n + 1) j := by
  induction j using Nat.strong_induction_on generalizing second with
  | _ j ih =>
    obtain ⟨k, hlast, hle⟩ : ∃ k, LastWriter cwd calls path j k ∧ i ≤ k := by
      classical
      have hbound : i ≤ j - 1 := by omega
      have hgreatest := Nat.findGreatest_spec (P := Writes cwd calls path) hbound hwrites
      refine ⟨_, ⟨?_, hgreatest, fun k' hgt hlt' => ?_⟩, Nat.le_findGreatest hbound hwrites⟩
      · have hle := Nat.findGreatest_le (P := Writes cwd calls path) (j - 1)
        omega
      · exact Nat.findGreatest_is_greatest hgt (by omega)
    obtain ⟨writer, hwriter, -, hsame⟩ := id hlast.2.1
    have hwaits : WaitsFor cwd calls j k :=
      ⟨second, hsecond, writer, hwriter, .inr ⟨path, hpath, hlast⟩⟩
    rcases Nat.lt_or_eq_of_le hle with hbetween | rfl
    · exact (show Layers.Chain (WaitsFor cwd calls) (n + 2) j from
        ⟨k, hwaits, ih k hlast.1 hbetween hwriter hsame⟩).pred
    · exact ⟨i, hwaits, hchain⟩

/-- **Which batches are kept apart.**  A plan keeps conflicting calls apart exactly if this holds of
the overlooked ones: whenever `n` calls wait for each other down from the earlier call, more than
`n` do down from the later one. -/
theorem inferred_keptApart_iff (processCwd cwd : Text) (calls : List (ToolCall ρ))
    (hids : (ids calls).Nodup) {turns : ℕ} (hturns : calls.length < turns) :
    ∃ plan, planDAG turns (inferDependenciesFromBatch cwd calls) = some plan
      ∧ (KeptApart processCwd cwd calls (inferDependenciesFromBatch cwd calls) plan
        ↔ ∀ i j, Overlooked processCwd cwd calls i j → ∀ n,
          Layers.Chain (WaitsFor cwd calls) n i → Layers.Chain (WaitsFor cwd calls) (n + 1) j) := by
  have h := @inferred ρ _ cwd calls
  have hnodes : ((inferDependenciesFromBatch cwd calls).map DAGToolNode.id).Nodup := by
    rwa [map_id_infer]
  have hlength : (inferDependenciesFromBatch cwd calls).length < turns := by
    rw [inferDependenciesFromBatch, h.length_eq]
    exact hturns
  obtain ⟨plan, hplan, -, -, hwave, -⟩ := planDAG_spec hnodes hlength
  refine ⟨plan, hplan, ?_⟩
  -- a call stands in the wave of its longest chain
  have hat : ∀ i : ℕ, ∀ call ∈ calls[i]?, ∀ node ∈ (inferDependenciesFromBatch cwd calls)[i]?,
      ∀ w, plan.InWave w node ↔ Layers.At (WaitsFor cwd calls) w i := by
    intro i call hcall node hnode w
    obtain ⟨node', hnode', hid, -⟩ := h.node i call hcall
    obtain rfl : node = node' := Option.some.inj (hnode.symm.trans hnode')
    rw [hwave, Layers.At, hid, chain_infer_iff hids w hcall, chain_infer_iff hids (w + 1) hcall]
    exact and_iff_right (mem_of_getElem? hnode)
  have hexists : ∀ i : ℕ, ∀ call ∈ calls[i]?, ∃ node,
      (inferDependenciesFromBatch cwd calls)[i]? = some node := by
    intro i call hcall
    obtain ⟨node, hnode, -⟩ := h.node i call hcall
    exact ⟨node, hnode⟩
  constructor
  · rintro hkept i j ⟨hlt, hconflict, -⟩ n hchain
    obtain ⟨first, hfirst, second, hsecond, -⟩ := id hconflict
    obtain ⟨node, hnode⟩ := hexists i first hfirst
    obtain ⟨later, hlater⟩ := hexists j second hsecond
    by_contra hshort
    obtain ⟨w, hw, hatj⟩ := Layers.exists_at_of_not_chain hshort
    obtain ⟨v, hv, hin⟩ := (hkept i j hlt hconflict node hnode later hlater).2 w
      ((hat j second hsecond later hlater w).mpr hatj)
    have hle := hchain.le_of_not ((hat i first hfirst node hnode v).mp hin).2
    omega
  · intro hall i j hlt hconflict node hnode later hlater
    obtain ⟨first, hfirst, second, hsecond, -⟩ := id hconflict
    have hlonger : ∀ n, Layers.Chain (WaitsFor cwd calls) n i →
        Layers.Chain (WaitsFor cwd calls) (n + 1) j := by
      intro n hchain
      by_cases hover : ∃ path, Writes cwd calls path i
          ∧ ∃ second ∈ calls[j]?, resource cwd second = some path
      · obtain ⟨path, hwrites, second', hsecond', hpath⟩ := hover
        exact chain_of_writes hlt hwrites hsecond' hpath hchain
      · exact hall i j ⟨hlt, hconflict, hover⟩ n hchain
    have hearlier : ∀ w, plan.InWave w later → ∃ v < w, plan.InWave v node := by
      intro w hw
      have hatj := (hat j second hsecond later hlater w).mp hw
      obtain ⟨v, hv, hati⟩ := Layers.exists_at_of_not_chain fun hchain => hatj.2 (hlonger w hchain)
      exact ⟨v, hv, (hat i first hfirst node hnode v).mpr hati⟩
    refine ⟨fun w hboth => ?_, hearlier⟩
    obtain ⟨v, hv, hin⟩ := hearlier w hboth.2
    have hsame := ((hat i first hfirst node hnode v).mp hin).unique
      ((hat i first hfirst node hnode w).mp hboth.1)
    omega

section

open Ascii

def readThenWrite : List (ToolCall PlainRecord) :=
  let args := InsertionMap.ofList [(text "path", Value.string (text "a"))]
  [⟨some (text "r"), text "read_file", args⟩, ⟨some (text "w"), text "write_to_file", args⟩]

/-- A read and the write after it: both run in the first wave. -/
theorem read_runs_with_write : (ids readThenWrite).Nodup
    ∧ ∃ plan, planDAG 3 (inferDependenciesFromBatch (text "/p") readThenWrite) = some plan
      ∧ ¬ KeptApart (text "/") (text "/p") readThenWrite
        (inferDependenciesFromBatch (text "/p") readThenWrite) plan := by
  have hids : (ids readThenWrite).Nodup := by decide +kernel
  have hlength : (inferDependenciesFromBatch (text "/p") readThenWrite).length < 3 := by
    decide +kernel
  obtain ⟨plan, hplan, -, -, hwave, -⟩ := planDAG_spec (by decide +kernel) hlength
  refine ⟨hids, plan, hplan, fun hkept => ?_⟩
  obtain ⟨read, write, hnodes⟩ : ∃ read write,
      inferDependenciesFromBatch (text "/p") readThenWrite = [read, write] := ⟨_, _, rfl⟩
  have hfree : ∀ node ∈ inferDependenciesFromBatch (text "/p") readThenWrite,
      node.dependencies = [] := by decide +kernel
  have hfirst : ∀ node ∈ inferDependenciesFromBatch (text "/p") readThenWrite,
      plan.InWave 0 node := by
    intro node hnode
    refine (hwave 0 node).mpr ⟨hnode, trivial, ?_⟩
    rintro ⟨depId, ⟨-, other, hother, -, hin⟩, -⟩
    rw [hfree other hother] at hin
    cases hin
  have hconflict : Conflict (text "/") (text "/p") readThenWrite 0 1 :=
    ⟨_, rfl, _, rfl, Or.inr (by decide +kernel), text "/p/a", by decide +kernel, by decide +kernel⟩
  rw [hnodes] at hkept hfirst
  exact (hkept 0 1 (by decide) hconflict read rfl write rfl).1 0
    ⟨hfirst read (by simp), hfirst write (by simp)⟩

/-- Two writes of a file that name it by different paths: both run in the first wave. -/
def spelledTwice : List (ToolCall PlainRecord) :=
  let args (path : String) := InsertionMap.ofList [(text "path", Value.string (text path))]
  [⟨some (text "v"), text "write_to_file", args "a"⟩,
    ⟨some (text "w"), text "write_to_file", args "./a"⟩]

example : (planDAG 3 (inferDependenciesFromBatch (text "/p") spelledTwice)).map
    (fun plan => plan.waves.map List.length) = some [2] := by decide +kernel

/-- A write, and the read after it. -/
def writeThenRead : List (ToolCall PlainRecord) := readThenWrite.reverse

theorem inferred_keptApart_writeThenRead :
    ∃ plan, planDAG 3 (inferDependenciesFromBatch (text "/p") writeThenRead) = some plan
      ∧ (KeptApart (text "/") (text "/p") writeThenRead
          (inferDependenciesFromBatch (text "/p") writeThenRead) plan
        ↔ ∀ i j, Overlooked (text "/") (text "/p") writeThenRead i j → ∀ n,
          Layers.Chain (WaitsFor (text "/p") writeThenRead) n i →
            Layers.Chain (WaitsFor (text "/p") writeThenRead) (n + 1) j) :=
  inferred_keptApart_iff (text "/") (text "/p") writeThenRead (by decide +kernel) (by decide)

end

end ToolDependencyGraphPlanner

end Lumi.Tools
