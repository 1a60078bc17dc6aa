import Lumi.Cas.Calls
import Lumi.Cas.Merge

/-!
# Collection of garbage

`pruneOrphanBlobs` keeps the blobs that a commit lists or that are staged, but only the
chunks that a commit lists.  A large blob that is kept only because it is staged, or that
is listed without its chunks as after an import, loses them.  Where every chunk of the
blobs it keeps is listed, a collection changes nothing that can be reached.

A commit finds the content of a file under its hash if it is there already, so it is as
good as what was put there.  Only an import can put something else there.
-/

namespace Lumi.Cas

open Js List InsertionMap

section

variable [Runtime] {s s' : CasStore}

/-! ## Slices and chunks -/

variable {data : Bytes}

omit [Runtime] in
theorem flatten_slices {size : ℕ} (hsize : 0 < size) {steps : ℕ} (hsteps : data.length ≤ steps) :
    (slices size steps data).flatten = data := by
  induction steps generalizing data with
  | zero =>
    rw [length_eq_zero_iff.mp (Nat.le_zero.mp hsteps)]
    rfl
  | succ steps ih =>
    cases data with
    | nil => rfl
    | cons b rest =>
      have hdrop : ((b :: rest).drop size).length ≤ steps := by
        rw [length_drop]
        omega
      rw [slices, flatten_cons, ih hdrop, take_append_drop]
      simp

omit [Runtime] in
theorem gatherChunks_mono {chunks chunks' : InsertionMap Text Bytes} {hashes : List Text}
    (h : ∀ hash ∈ hashes, ∀ chunk, chunks.get? hash = some chunk → chunks'.get? hash = some chunk)
    (hdata : CasStore.gatherChunks chunks hashes = some data) :
    CasStore.gatherChunks chunks' hashes = some data := by
  induction hashes generalizing data with
  | nil => exact hdata
  | cons hash rest ih =>
    cases hchunk : chunks.get? hash with
    | none =>
      rw [CasStore.gatherChunks, hchunk] at hdata
      cases hdata
    | some chunk =>
      rw [CasStore.gatherChunks, hchunk] at hdata
      obtain ⟨tail, htail, rfl⟩ := Option.map_eq_some_iff.mp hdata
      rw [CasStore.gatherChunks, h hash mem_cons_self chunk hchunk]
      show (CasStore.gatherChunks chunks' rest).map _ = _
      rw [ih (fun hash hhash => h hash (mem_cons_of_mem _ hhash)) htail]
      rfl

variable {chunks : InsertionMap Text Bytes}

omit [Runtime] in
theorem gatherChunks_eq_none {hashes : List Text} {hash : Text} (hmem : hash ∈ hashes)
    (hnone : chunks.get? hash = none) : CasStore.gatherChunks chunks hashes = none := by
  induction hashes with
  | nil => exact absurd hmem not_mem_nil
  | cons first rest ih =>
    rw [CasStore.gatherChunks]
    split
    · rfl
    · next chunk hchunk =>
      rcases mem_cons.mp hmem with rfl | hmem
      · rw [hnone] at hchunk
        cases hchunk
      · rw [ih hmem]
        rfl

/-- Each chunk is stored under its hash. -/
def ChunksHashed (chunks : InsertionMap Text Bytes) : Prop :=
  ∀ hash chunk, chunks.get? hash = some chunk → sha256 chunk = hash

variable {parts : List Bytes}

theorem gatherChunks_map_sha256 (h : ∀ part ∈ parts, chunks.get? (sha256 part) = some part) :
    CasStore.gatherChunks chunks (parts.map sha256) = some parts.flatten := by
  induction parts with
  | nil => rfl
  | cons part rest ih =>
    rw [map_cons, CasStore.gatherChunks, h part mem_cons_self]
    show (CasStore.gatherChunks chunks (rest.map sha256)).map _ = _
    rw [ih fun part hpart => h part (mem_cons_of_mem _ hpart)]
    rfl

theorem putChunks_cons (chunks : InsertionMap Text Bytes) (part : Bytes) (rest : List Bytes) :
    CasStore.putChunks chunks (part :: rest)
      = CasStore.putChunks (if (chunks.get? (sha256 part)).isSome then chunks
          else chunks.set (sha256 part) part) rest := rfl

theorem get?_putChunks_of_some {hash : Text} {chunk : Bytes} (h : chunks.get? hash = some chunk) :
    (CasStore.putChunks chunks parts).get? hash = some chunk := by
  induction parts generalizing chunks with
  | nil => exact h
  | cons part rest ih =>
    rw [putChunks_cons]
    refine ih ?_
    split
    · exact h
    · next hfresh =>
      rw [get?_set_of_ne _ _ fun heq => hfresh (by rw [← heq, h]; rfl)]
      exact h

theorem chunksHashed_putChunks (h : ChunksHashed chunks) (parts : List Bytes) :
    ChunksHashed (CasStore.putChunks chunks parts) := by
  induction parts generalizing chunks with
  | nil => exact h
  | cons part rest ih =>
    rw [putChunks_cons]
    refine ih ?_
    split
    · exact h
    · intro hash chunk hget
      rw [get?_set] at hget
      split at hget
      · next heq =>
        cases hget
        exact heq.symm
      · exact h hash chunk hget

theorem get?_putChunks_self (hsha : Function.Injective (sha256 : Bytes → Text))
    (h : ChunksHashed chunks) {part : Bytes} (hmem : part ∈ parts) :
    (CasStore.putChunks chunks parts).get? (sha256 part) = some part := by
  -- whatever is stored under the hash of the part is the part
  have hstored : ((CasStore.putChunks chunks parts).get? (sha256 part)).isSome := by
    induction parts generalizing chunks with
    | nil => exact absurd hmem not_mem_nil
    | cons first rest ih =>
      rcases mem_cons.mp hmem with rfl | hmem
      · rw [putChunks_cons]
        split
        · next hsome =>
          obtain ⟨chunk, hchunk⟩ := Option.isSome_iff_exists.mp hsome
          rw [get?_putChunks_of_some hchunk]
          rfl
        · rw [get?_putChunks_of_some (get?_set_self _ _ _)]
          rfl
      · have h' : ChunksHashed (CasStore.putChunks chunks [first]) :=
          chunksHashed_putChunks h [first]
        exact ih h' hmem
  obtain ⟨chunk, hchunk⟩ := Option.isSome_iff_exists.mp hstored
  rw [hchunk, hsha (chunksHashed_putChunks h parts _ _ hchunk)]

/-! ## What is in the store -/

/-- What is in the store stays there. -/
structure Extends (s s' : CasStore) : Prop where
  blob : ∀ {hash blob}, s.getBlob hash = some blob → s'.getBlob hash = some blob
  chunk : ∀ {hash chunk}, s.chunks.get? hash = some chunk → s'.chunks.get? hash = some chunk

/-- Chunks are stored under their hashes, and so are the blobs that have chunks; every blob can
be put together again. -/
structure Sound (s : CasStore) : Prop where
  chunksHashed : ChunksHashed s.chunks
  chunkedHashed : ∀ {hash blob}, s.getBlob hash = some blob → blob.chunkHashes ≠ none →
    sha256 blob.data = hash
  rehydrates : ∀ {hash blob}, s.getBlob hash = some blob → s.rehydrateBlob hash = some blob.data

/-- If there is content under the hash of the data, it is the data. -/
def Faithful (s : CasStore) (data : Bytes) : Prop :=
  ∀ blob ∈ s.getBlob (sha256 data), blob.data = data

instance (s : CasStore) (data : Bytes) : Decidable (Faithful s data) :=
  inferInstanceAs (Decidable (∀ blob ∈ s.getBlob (sha256 data), blob.data = data))

omit [Runtime] in
theorem Extends.refl (s : CasStore) : Extends s s := ⟨id, id⟩

omit [Runtime] in
theorem Extends.trans {s'' : CasStore} (h : Extends s s') (h' : Extends s' s'') : Extends s s'' :=
  ⟨fun hblob => h'.blob (h.blob hblob), fun hchunk => h'.chunk (h.chunk hchunk)⟩

theorem Sound.congr (h : Sound s) (hblobs : s'.blobs = s.blobs) (hchunks : s'.chunks = s.chunks) :
    Sound s' where
  chunksHashed := by
    rw [hchunks]
    exact h.chunksHashed
  chunkedHashed := by
    intro hash blob hblob
    rw [CasStore.getBlob, hblobs] at hblob
    exact h.chunkedHashed hblob
  rehydrates := by
    intro hash blob hblob
    rw [CasStore.getBlob, hblobs] at hblob
    rw [← h.rehydrates hblob, CasStore.rehydrateBlob, CasStore.rehydrateBlob, CasStore.getBlob,
      CasStore.getBlob, hblobs, hchunks]

theorem sound_new : Sound CasStore.new where
  chunksHashed := by
    intro hash chunk h
    cases h
  chunkedHashed := by
    intro hash blob h
    cases h
  rehydrates := by
    intro hash blob h
    cases h

/-! ## Putting content -/

theorem extends_putBlob (s : CasStore) (data : Bytes) (mimeType : Option Text) :
    Extends s (s.putBlob data mimeType).2 := by
  unfold CasStore.putBlob
  split
  · exact .refl s
  · next hfresh =>
    have hother {hash : Text} {blob blob' : CasBlob} (hblob : s.getBlob hash = some blob) :
        (s.blobs.set (sha256 data) blob').get? hash = some blob := by
      rw [get?_set_of_ne]
      · exact hblob
      · rintro rfl
        rw [hfresh] at hblob
        cases hblob
    split
    · exact ⟨hother, get?_putChunks_of_some⟩
    · exact ⟨hother, id⟩

/-- What `putBlob` answers is in the store, and it is the data if that was new. -/
theorem getBlob_putBlob (s : CasStore) (data : Bytes) (mimeType : Option Text) :
    ∃ blob, (s.putBlob data mimeType).1 = blob ∧
      (s.putBlob data mimeType).2.getBlob (sha256 data) = some blob ∧
      (s.getBlob (sha256 data) = some blob ∨ blob.data = data) := by
  unfold CasStore.putBlob
  split
  · next existing hexisting => exact ⟨existing, rfl, hexisting, .inl hexisting⟩
  · split
    · exact ⟨_, rfl, get?_set_self _ _ _, .inr rfl⟩
    · exact ⟨_, rfl, get?_set_self _ _ _, .inr rfl⟩

theorem getBlob_putBlob_of_ne (s : CasStore) (mimeType : Option Text) {hash : Text}
    (h : hash ≠ sha256 data) : (s.putBlob data mimeType).2.getBlob hash = s.getBlob hash := by
  unfold CasStore.putBlob
  split
  · rfl
  · split
    · exact get?_set_of_ne _ _ h
    · exact get?_set_of_ne _ _ h

section

omit [Runtime]

theorem rehydrateBlob_unchunked {hash : Text} {blob : CasBlob} (h : s.getBlob hash = some blob)
    (hnone : blob.chunkHashes = none) : s.rehydrateBlob hash = some blob.data := by
  simp only [CasStore.rehydrateBlob, h, hnone]

theorem rehydrateBlob_chunked {hash : Text} {blob : CasBlob} {chunkHashes : List Text}
    (h : s.getBlob hash = some blob) (hsome : blob.chunkHashes = some chunkHashes) :
    s.rehydrateBlob hash = CasStore.gatherChunks s.chunks chunkHashes := by
  simp only [CasStore.rehydrateBlob, h, hsome]

theorem Extends.rehydrateBlob (h : Extends s s') {hash : Text}
    (hdata : s.rehydrateBlob hash = some data) : s'.rehydrateBlob hash = some data := by
  cases hblob : s.getBlob hash with
  | none =>
    rw [CasStore.rehydrateBlob, hblob] at hdata
    cases hdata
  | some blob =>
    cases hchunks : blob.chunkHashes with
    | none =>
      rw [rehydrateBlob_unchunked hblob hchunks] at hdata
      rw [rehydrateBlob_unchunked (h.blob hblob) hchunks, hdata]
    | some chunkHashes =>
      rw [rehydrateBlob_chunked hblob hchunks] at hdata
      rw [rehydrateBlob_chunked (h.blob hblob) hchunks]
      exact gatherChunks_mono (fun _ _ _ => h.chunk) hdata

end

theorem Sound.putBlob (hsha : Function.Injective (sha256 : Bytes → Text)) (h : Sound s)
    (data : Bytes) (mimeType : Option Text) : Sound (s.putBlob data mimeType).2 := by
  have hext := extends_putBlob s data mimeType
  have hchunks : ChunksHashed (s.putBlob data mimeType).2.chunks := by
    unfold CasStore.putBlob
    split
    · exact h.chunksHashed
    · split
      · exact chunksHashed_putChunks h.chunksHashed _
      · exact h.chunksHashed
  -- the blob under the hash of the data, whether it is new or was there
  have hput {blob : CasBlob}
      (hblob : (s.putBlob data mimeType).2.getBlob (sha256 data) = some blob) :
      (blob.chunkHashes ≠ none → sha256 blob.data = sha256 data) ∧
        (s.putBlob data mimeType).2.rehydrateBlob (sha256 data) = some blob.data := by
    cases hold : s.getBlob (sha256 data) with
    | some existing =>
      rw [hext.blob hold] at hblob
      obtain rfl := Option.some.inj hblob
      exact ⟨h.chunkedHashed hold, hext.rehydrateBlob (h.rehydrates hold)⟩
    | none =>
      obtain ⟨blob', -, hblob', hnew⟩ := getBlob_putBlob s data mimeType
      rw [hblob'] at hblob
      obtain rfl := Option.some.inj hblob
      rw [hold] at hnew
      have hdata : blob'.data = data := hnew.resolve_left (by simp)
      refine ⟨fun _ => by rw [hdata], ?_⟩
      cases hcut : blob'.chunkHashes with
      | none => exact rehydrateBlob_unchunked hblob' hcut
      | some chunkHashes =>
        rw [rehydrateBlob_chunked hblob' hcut]
        revert hblob'
        simp only [CasStore.putBlob, hold]
        split
        · intro hblob'
          rw [CasStore.getBlob, get?_set_self] at hblob'
          obtain rfl := Option.some.inj hblob'
          obtain rfl := Option.some.inj hcut
          rw [gatherChunks_map_sha256 fun part hpart =>
            get?_putChunks_self hsha h.chunksHashed hpart]
          rw [flatten_slices (by decide) (Nat.le_refl _)]
        · intro hblob'
          rw [CasStore.getBlob, get?_set_self] at hblob'
          obtain rfl := Option.some.inj hblob'
          cases hcut
  refine ⟨hchunks, ?_, ?_⟩
  · intro hash blob hblob hchunked
    by_cases heq : hash = sha256 data
    · subst heq
      exact (hput hblob).1 hchunked
    · rw [getBlob_putBlob_of_ne s mimeType heq] at hblob
      exact h.chunkedHashed hblob hchunked
  · intro hash blob hblob
    by_cases heq : hash = sha256 data
    · subst heq
      exact (hput hblob).2
    · rw [getBlob_putBlob_of_ne s mimeType heq] at hblob
      exact hext.rehydrateBlob (h.rehydrates hblob)

theorem Faithful.putBlob (hsha : Function.Injective (sha256 : Bytes → Text)) (h : Faithful s data)
    (data' : Bytes) (mimeType : Option Text) : Faithful (s.putBlob data' mimeType).2 data := by
  intro blob hblob
  by_cases heq : sha256 data = sha256 data'
  · obtain rfl := hsha heq
    obtain ⟨blob', -, hblob', hnew⟩ := getBlob_putBlob s data mimeType
    rw [Option.mem_def, hblob'] at hblob
    obtain rfl := Option.some.inj hblob
    exact hnew.elim (h blob') id
  · rw [Option.mem_def, getBlob_putBlob_of_ne s mimeType heq] at hblob
    exact h blob hblob

/-! ## Putting files -/

/-- The loop puts one file, and then the others. -/
theorem putFiles_cons (s : CasStore) (file : FileInput) (rest : List FileInput) :
    (s.putFiles (file :: rest)).2 = ((s.putBlob file.data none).2.putFiles rest).2 := rfl

theorem extends_putFiles (s : CasStore) (files : List FileInput) :
    Extends s (s.putFiles files).2 := by
  induction files generalizing s with
  | nil => exact .refl s
  | cons file rest ih =>
    rw [putFiles_cons]
    exact (extends_putBlob s file.data none).trans (ih _)

theorem Sound.putFiles (hsha : Function.Injective (sha256 : Bytes → Text)) (h : Sound s)
    (files : List FileInput) : Sound (s.putFiles files).2 := by
  induction files generalizing s with
  | nil => exact h
  | cons file rest ih =>
    rw [putFiles_cons]
    exact ih (h.putBlob hsha file.data none)

/-- Each file is in the store afterwards, as good as what was under its hash. -/
theorem rehydrateBlob_putFiles_iff (hsha : Function.Injective (sha256 : Bytes → Text))
    (h : Sound s) (files : List FileInput) :
    (∀ f ∈ files, (s.putFiles files).2.rehydrateBlob (sha256 f.data) = some f.data) ↔
      ∀ f ∈ files, Faithful s f.data := by
  constructor
  · intro hstored f hf blob hblob
    have hafter := (extends_putFiles s files).rehydrateBlob (h.rehydrates hblob)
    rw [hstored f hf] at hafter
    exact (Option.some.inj hafter).symm
  · intro hfaithful
    induction files generalizing s with
    | nil => exact fun f hf => absurd hf not_mem_nil
    | cons file rest ih =>
      have hput := h.putBlob hsha file.data none
      intro f hf
      rw [putFiles_cons]
      rcases mem_cons.mp hf with rfl | hf
      · obtain ⟨blob, -, hblob, hnew⟩ := getBlob_putBlob s f.data none
        have hdata : blob.data = f.data :=
          hnew.elim (hfaithful f mem_cons_self blob) id
        rw [(extends_putFiles _ rest).rehydrateBlob (hput.rehydrates hblob), hdata]
      · refine ih hput (fun f hf => ?_) f hf
        exact (hfaithful f (mem_cons_of_mem _ hf)).putBlob hsha file.data none

/-! ## Commits -/

/-- The tree of the commit has the paths and the contents of the files, each under its hash. -/
def CommitsExactly (s : CasStore) (commitId : Text) (files : List FileInput) : Prop :=
  ∃ commit tree, s.getCommit commitId = some commit ∧ s.getTree commit.treeHash = some tree ∧
    (tree.map fun e => (e.path, e.hash, s.rehydrateBlob e.hash)).Perm
      (files.map fun f => (cleanPath f.path, sha256 f.data, some f.data))

theorem commitsExactly_createCommit_iff (hsha : Function.Injective (sha256 : Bytes → Text))
    (h : Sound s) (draw : Draw) (message : Text) (files : List FileInput) (frameIndex : ℕ)
    (parentId branchName existingChangeId : Option Text) :
    let r := s.createCommit draw message files frameIndex parentId branchName existingChangeId
    CommitsExactly r.2 r.1 files ↔ ∀ f ∈ files, Faithful s f.data := by
  intro r
  obtain ⟨commit, hcommit, htree⟩ := s.getTree_createCommit draw message files frameIndex parentId
    branchName existingChangeId
  rw [← rehydrateBlob_putFiles_iff hsha h files]
  constructor
  · rintro ⟨commit', tree, hcommit', htree', hperm⟩ f hf
    have hmem : (cleanPath f.path, sha256 f.data, some f.data) ∈
        files.map fun f => (cleanPath f.path, sha256 f.data, some f.data) :=
      mem_map.mpr ⟨f, hf, rfl⟩
    obtain ⟨e, -, he⟩ := mem_map.mp (hperm.mem_iff.mpr hmem)
    obtain ⟨hhash, hdata⟩ := Prod.mk.inj (Prod.mk.inj he).2
    rw [hhash] at hdata
    exact hdata
  · intro hstored
    refine ⟨commit, _, hcommit, htree, ?_⟩
    have hperm := (s.perm_putTree files).map fun t : Text × Text × ℕ =>
      (t.1, t.2.1, r.2.rehydrateBlob t.2.1)
    rw [map_map, map_map] at hperm
    refine hperm.trans (List.Perm.of_eq (map_congr_left fun f hf => ?_))
    exact congrArg (fun data => (cleanPath f.path, sha256 f.data, data)) (hstored f hf)

theorem Sound.createCommit (hsha : Function.Injective (sha256 : Bytes → Text)) (h : Sound s)
    (draw : Draw) (message : Text) (files : List FileInput) (frameIndex : ℕ)
    (parentId branchName existingChangeId : Option Text) :
    Sound (s.createCommit draw message files frameIndex parentId branchName existingChangeId).2 :=
  (h.putFiles hsha files).congr rfl rfl

omit [Runtime] in
/-- Every staged file is committed. -/
theorem mem_stagedFiles (s : CasStore) {e : Text × StagingFile} (he : e ∈ s.stagingArea.entries) :
    ⟨e.1, e.2.data, some e.2.mode⟩ ∈ s.stagedFiles := by
  let input (e : Text × StagingFile) : Text × FileInput := (e.1, ⟨e.1, e.2.data, some e.2.mode⟩)
  have hnodup : ((s.stagingArea.entries.map input).map Prod.fst).Nodup := by
    rw [map_map]
    exact s.stagingArea.nodup
  have hlookup := (InsertionMap.lookup_eq_some_iff hnodup).mpr (mem_map.mpr ⟨e, he, rfl⟩)
  rw [CasStore.stagedFiles, CasStore.byPath, InsertionMap.ofList, map_append,
    foldl_append, map_map]
  refine mem_map.mpr ⟨input e, mem_entries_iff.mpr ?_, rfl⟩
  refine (get?_foldl_set hnodup _ _).trans ?_
  rw [hlookup]
  rfl

/-! ## Collections -/

/-- Every chunk of a blob that is kept is listed by a commit. -/
def ChunksListed (s : CasStore) : Prop :=
  ∀ hash ∈ s.reachableBlobs, ∀ blob ∈ s.getBlob hash,
    ∀ chunkHash ∈ blob.chunkHashes.getD [], chunkHash ∈ s.reachableChunks

instance (s : CasStore) : Decidable (ChunksListed s) :=
  inferInstanceAs (Decidable (∀ hash ∈ s.reachableBlobs, ∀ blob ∈ s.getBlob hash,
    ∀ chunkHash ∈ blob.chunkHashes.getD [], chunkHash ∈ s.reachableChunks))

theorem getBlob_pruneOrphanBlobs (s : CasStore) (hash : Text) :
    s.pruneOrphanBlobs.getBlob hash = if hash ∈ s.reachableBlobs then s.getBlob hash else none := by
  rw [CasStore.getBlob, CasStore.pruneOrphanBlobs, get?_filterMap, CasStore.getBlob]
  cases s.blobs.get? hash with
  | none => simp
  | some blob => rfl

theorem chunks_pruneOrphanBlobs (s : CasStore) (hash : Text) :
    s.pruneOrphanBlobs.chunks.get? hash
      = if hash ∈ s.reachableChunks then s.chunks.get? hash else none := by
  rw [CasStore.pruneOrphanBlobs, get?_filterMap]
  cases s.chunks.get? hash with
  | none => simp
  | some chunk => rfl

/-- A blob that is kept can still be put together if its chunks are listed. -/
theorem rehydrateBlob_pruneOrphanBlobs (h : Sound s) {hash : Text} {blob : CasBlob}
    (hmem : hash ∈ s.reachableBlobs) (hblob : s.getBlob hash = some blob)
    (hlisted : ∀ chunkHash ∈ blob.chunkHashes.getD [], chunkHash ∈ s.reachableChunks) :
    s.pruneOrphanBlobs.rehydrateBlob hash = some blob.data := by
  have hkept : s.pruneOrphanBlobs.getBlob hash = some blob := by
    rw [getBlob_pruneOrphanBlobs, if_pos hmem, hblob]
  cases hchunks : blob.chunkHashes with
  | none => exact rehydrateBlob_unchunked hkept hchunks
  | some chunkHashes =>
    have hdata := h.rehydrates hblob
    rw [rehydrateBlob_chunked hblob hchunks] at hdata
    rw [rehydrateBlob_chunked hkept hchunks]
    refine gatherChunks_mono (fun chunkHash hchunk chunk hget => ?_) hdata
    rw [hchunks] at hlisted
    rw [chunks_pruneOrphanBlobs, if_pos (hlisted chunkHash hchunk), hget]

/-- A blob that is kept is lost with any of its chunks. -/
theorem rehydrateBlob_pruneOrphanBlobs_of_unlisted {hash chunkHash : Text} {blob : CasBlob}
    (hmem : hash ∈ s.reachableBlobs) (hblob : s.getBlob hash = some blob)
    (hchunk : chunkHash ∈ blob.chunkHashes.getD []) (hunlisted : chunkHash ∉ s.reachableChunks) :
    s.pruneOrphanBlobs.rehydrateBlob hash = none := by
  have hkept : s.pruneOrphanBlobs.getBlob hash = some blob := by
    rw [getBlob_pruneOrphanBlobs, if_pos hmem, hblob]
  cases hchunks : blob.chunkHashes with
  | none =>
    rw [hchunks] at hchunk
    exact absurd hchunk not_mem_nil
  | some chunkHashes =>
    rw [hchunks] at hchunk
    rw [rehydrateBlob_chunked hkept hchunks]
    refine gatherChunks_eq_none hchunk ?_
    rw [chunks_pruneOrphanBlobs, if_neg hunlisted]

theorem prune_keeps_iff (h : Sound s) :
    (∀ hash ∈ s.reachableBlobs, s.pruneOrphanBlobs.rehydrateBlob hash = s.rehydrateBlob hash) ↔
      ChunksListed s := by
  constructor
  · intro hkeeps hash hmem blob hblob chunkHash hchunk
    by_contra hunlisted
    have hlost := hkeeps hash hmem
    rw [rehydrateBlob_pruneOrphanBlobs_of_unlisted hmem hblob hchunk hunlisted,
      h.rehydrates hblob] at hlost
    cases hlost
  · intro hlisted hash hmem
    cases hblob : s.getBlob hash with
    | none =>
      rw [CasStore.rehydrateBlob, CasStore.rehydrateBlob, getBlob_pruneOrphanBlobs, if_pos hmem,
        hblob]
    | some blob =>
      rw [rehydrateBlob_pruneOrphanBlobs h hmem hblob (hlisted hash hmem blob hblob),
        h.rehydrates hblob]

theorem Sound.pruneOrphanBlobs (h : Sound s) (hlisted : ChunksListed s) :
    Sound s.pruneOrphanBlobs := by
  have hkept {hash : Text} {blob : CasBlob} (hblob : s.pruneOrphanBlobs.getBlob hash = some blob) :
      hash ∈ s.reachableBlobs ∧ s.getBlob hash = some blob := by
    rw [getBlob_pruneOrphanBlobs] at hblob
    split at hblob
    · next hmem => exact ⟨hmem, hblob⟩
    · cases hblob
  refine ⟨?_, fun hblob => h.chunkedHashed (hkept hblob).2, fun hblob => ?_⟩
  · intro hash chunk hchunk
    rw [chunks_pruneOrphanBlobs] at hchunk
    split at hchunk
    · exact h.chunksHashed hash chunk hchunk
    · cases hchunk
  · obtain ⟨hmem, hold⟩ := hkept hblob
    exact rehydrateBlob_pruneOrphanBlobs h hmem hold (hlisted _ hmem _ hold)

/-! ## Runs -/

omit [Runtime] in
theorem contents_importCommits (s : CasStore) (commits : List (Text × CheckpointNode)) :
    (commits.foldl CasStore.importCommit s).blobs = s.blobs ∧
      (commits.foldl CasStore.importCommit s).chunks = s.chunks := by
  induction commits generalizing s with
  | nil => exact ⟨rfl, rfl⟩
  | cons e rest ih =>
    have hone : (s.importCommit e).blobs = s.blobs ∧ (s.importCommit e).chunks = s.chunks := by
      unfold CasStore.importCommit
      split
      · exact ⟨rfl, rfl⟩
      · exact ⟨rfl, rfl⟩
    rw [foldl_cons, (ih _).1, (ih _).2]
    exact hone

omit [Runtime] in
/-- An imported blob has no chunks. -/
theorem get?_importBlobs {blobs : InsertionMap Text CasBlob} {imported : List (Text × BundleBlob)}
    {hash : Text} {blob : CasBlob}
    (h : (imported.foldl CasStore.importBlob blobs).get? hash = some blob) :
    blobs.get? hash = some blob ∨ blob.chunkHashes = none := by
  induction imported generalizing blobs with
  | nil => exact .inl h
  | cons e rest ih =>
    rcases ih h with hone | hnone
    · unfold CasStore.importBlob at hone
      split at hone
      · exact .inl hone
      · rw [get?_set] at hone
        split at hone
        · obtain rfl := Option.some.inj hone
          exact .inr rfl
        · exact .inl hone
    · exact .inr hnone

theorem Sound.importGitBundle (h : Sound s) (payload : GitBundlePayload) :
    Sound (s.importGitBundle payload) := by
  have hcontents := contents_importCommits { s with
    blobs := payload.blobs.entries.foldl CasStore.importBlob s.blobs
    trees := payload.trees.entries.foldl (fun trees e => trees.set e.1 e.2) s.trees }
    payload.commits
  refine Sound.congr (s := { s with
    blobs := payload.blobs.entries.foldl CasStore.importBlob s.blobs }) ?_ hcontents.1 hcontents.2
  refine ⟨h.chunksHashed, fun hblob hchunked => ?_, fun {hash blob} hblob => ?_⟩
  · exact h.chunkedHashed ((get?_importBlobs hblob).resolve_right hchunked) hchunked
  · rcases get?_importBlobs hblob with hold | hnone
    · cases hchunks : blob.chunkHashes with
      | none => exact rehydrateBlob_unchunked hblob hchunks
      | some chunkHashes =>
        rw [rehydrateBlob_chunked hblob hchunks, ← h.rehydrates hold,
          rehydrateBlob_chunked hold hchunks]
    · exact rehydrateBlob_unchunked hblob hnone

theorem Sound.replay (hsha : Function.Injective (sha256 : Bytes → Text)) (h : Sound s)
    (sourceBranchName : Text) (clock : ℕ → Draw) (i : ℕ) (newParentId : Text)
    (commits : List CheckpointNode) :
    Sound (CasStore.replay sourceBranchName clock i newParentId s commits).2 := by
  induction commits generalizing s i newParentId with
  | nil => exact h
  | cons c rest ih => exact ih (h.createCommit hsha _ _ _ _ _ _ _) _ _

/-- What the call is to keep: a collection all that can be reached, and a commit the files that
are passed in. -/
def KeepsContent (s : CasStore) : CasCall → Prop
  | .pruneOrphanBlobs =>
    ∀ hash ∈ s.reachableBlobs, s.pruneOrphanBlobs.rehydrateBlob hash = s.rehydrateBlob hash
  | .createCommit draw message files frameIndex parentId branchName existingChangeId =>
    let r := s.createCommit draw message files frameIndex parentId branchName existingChangeId
    CommitsExactly r.2 r.1 files
  | .commitStaged draw message frameIndex =>
    let r := s.commitStaged draw message frameIndex
    ∀ commitId ∈ r.1, CommitsExactly r.2 commitId s.stagedFiles ∧
      ∀ e ∈ s.stagingArea.entries, ⟨e.1, e.2.data, some e.2.mode⟩ ∈ s.stagedFiles
  | _ => True

/-- The chunks of the blobs that a collection keeps are listed by commits, and content that is
under the hash of a file when it is committed is that of the file. -/
def SafeCall (s : CasStore) : CasCall → Prop
  | .pruneOrphanBlobs => ChunksListed s
  | .createCommit _ _ files _ _ _ _ => ∀ f ∈ files, Faithful s f.data
  | .commitStaged _ _ _ => s.stagingArea.size ≠ 0 → ∀ f ∈ s.stagedFiles, Faithful s f.data
  | _ => True

theorem keepsContent_iff_safeCall (hsha : Function.Injective (sha256 : Bytes → Text))
    (h : Sound s) (call : CasCall) : KeepsContent s call ↔ SafeCall s call := by
  cases call with
  | pruneOrphanBlobs => exact prune_keeps_iff h
  | createCommit draw message files frameIndex parentId branchName existingChangeId =>
    exact commitsExactly_createCommit_iff hsha h draw message files frameIndex parentId
      branchName existingChangeId
  | commitStaged draw message frameIndex =>
    simp only [KeepsContent, SafeCall, CasStore.commitStaged]
    by_cases hsize : s.stagingArea.size = 0
    · simp [hsize]
    · simp only [hsize, if_false, Option.mem_some_iff, forall_eq', ne_eq, not_false_eq_true,
        true_imp_iff]
      rw [and_iff_left fun e he => mem_stagedFiles s he]
      exact commitsExactly_createCommit_iff hsha h draw message s.stagedFiles frameIndex none
        none none
  | _ => exact Iff.rfl

/-- **Step lemma.**  A call keeps the store sound, a collection if it is safe. -/
theorem Sound.step (hsha : Function.Injective (sha256 : Bytes → Text)) (h : Sound s)
    (call : CasCall) (hsafe : SafeCall s call) : Sound (s.step call) := by
  cases call with
  | putBlob data mimeType => exact h.putBlob hsha data mimeType
  | putTree files => exact (h.putFiles hsha files).congr rfl rfl
  | createCommit draw message files frameIndex parentId branchName existingChangeId =>
    exact h.createCommit hsha draw message files frameIndex parentId branchName existingChangeId
  | commitStaged draw message frameIndex =>
    rcases s.step_commitStaged draw message frameIndex with hstep | hstep
    · rwa [hstep]
    · rw [hstep]
      exact (h.createCommit hsha draw message s.stagedFiles frameIndex none none none).congr
        rfl rfl
  | mergeCheckpoints draw oursId theirsId baseId =>
    rcases s.step_mergeCheckpoints draw oursId theirsId baseId with hstep | ⟨_, _, _, hstep⟩
    · rwa [hstep]
    · rw [hstep]
      exact h.createCommit hsha _ _ _ _ _ _ _
  | cherryPick draw commitId targetBranchName =>
    rcases s.step_cherryPick draw commitId targetBranchName with
      hstep | ⟨_, _, _, _, _, _, _, hstep⟩
    · rwa [hstep]
    · rw [hstep]
      exact h.createCommit hsha _ _ _ _ _ _ _
  | revert draw commitId =>
    rcases s.step_revert draw commitId with hstep | ⟨_, _, _, hstep⟩
    · rwa [hstep]
    · rw [hstep]
      exact h.createCommit hsha _ _ _ _ _ _ _
  | rebase clock sourceBranchName ontoBranchName =>
    rcases s.step_rebase clock sourceBranchName ontoBranchName with
      hstep | ⟨_, _, _, _, _, _, _, hstep⟩
    · rwa [hstep]
    · rw [hstep]
      exact (h.replay hsha _ _ _ _ _).congr rfl rfl
  | squash draw commitIds message =>
    rcases s.step_squash draw commitIds message with hstep | ⟨_, _, _, _, _, _, _, hstep⟩
    · rwa [hstep]
    · rw [hstep]
      exact h.createCommit hsha _ _ _ _ _ _ _
  | importGitBundle payload => exact h.importGitBundle payload
  | pruneOrphanBlobs => exact h.pruneOrphanBlobs hsafe
  | clear => exact sound_new
  | setHead commitId =>
    show Sound (s.setHead commitId).2
    unfold CasStore.setHead
    split
    · exact h.congr rfl rfl
    · exact h
  | signCommit commitId privateKeyHex publicKeyHex now =>
    show Sound ((s.signCommit commitId privateKeyHex publicKeyHex now).getD s)
    unfold CasStore.signCommit
    cases s.getCommit commitId with
    | none => exact h
    | some commit => exact h.congr rfl rfl
  | switchBranch name =>
    show Sound (s.switchBranch name).2
    unfold CasStore.switchBranch
    split
    · exact h
    · exact h.congr rfl rfl
  | stageFile _ _ _ _ | unstageFile _ | clearStaging | createBranch _ _ _ | createTag _ _ _ _ =>
    exact h.congr rfl rfl

/-- Content is kept in exactly the runs whose collections and commits are safe. -/
theorem collections_keep_content_iff (hsha : Function.Injective (sha256 : Bytes → Text))
    (calls : List CasCall) :
    Run.Guarded CasStore.step KeepsContent CasStore.new calls ↔
      Run.Guarded CasStore.step SafeCall CasStore.new calls :=
  Run.guarded_iff_of_invariant (fun _ call h => keepsContent_iff_safeCall hsha h call)
    (fun _ call h hsafe => h.step hsha call hsafe) sound_new

/-- The chunks of a large file that is put and staged are marked by no one. -/
theorem rehydrateBlob_of_staged (hsha : Function.Injective (sha256 : Bytes → Text))
    (hlarge : data.length > chunkThreshold) (path : Text) (mode now : ℕ) :
    let s := (CasStore.new.putBlob data none).2.stageFile path data mode now
    sha256 data ∈ s.reachableBlobs ∧ s.rehydrateBlob (sha256 data) = some data ∧
      s.pruneOrphanBlobs.rehydrateBlob (sha256 data) = none := by
  intro s
  have hput : (CasStore.new.putBlob data none).2.getBlob (sha256 data)
      = some ⟨data.length, data, none, some ((slices chunkSize data.length data).map sha256)⟩ := by
    simp only [CasStore.putBlob, CasStore.new, CasStore.getBlob, get?_empty,
      if_pos hlarge, get?_set_self]
  have hstaging : (CasStore.new.putBlob data none).2.stagingArea = .empty := by
    simp only [CasStore.putBlob, CasStore.new, CasStore.getBlob, get?_empty,
      if_pos hlarge]
  have hmem : sha256 data ∈ s.reachableBlobs := by
    refine mem_append_right _ (mem_map.mpr ⟨⟨data, mode, now⟩, ?_, rfl⟩)
    show _ ∈ ((CasStore.new.putBlob data none).2.stagingArea.set _ _).values
    rw [hstaging]
    exact mem_cons_self
  have hsound : Sound s := (sound_new.putBlob hsha data none).congr rfl rfl
  have hunlisted : s.reachableChunks = [] := by
    show (CasStore.new.putBlob data none).2.reachableChunks = []
    have hcommits : (CasStore.new.putBlob data none).2.commits = .empty := by
      simp only [CasStore.putBlob, CasStore.new, CasStore.getBlob, get?_empty,
        if_pos hlarge]
    rw [CasStore.reachableChunks, CasStore.committedEntries, hcommits]
    rfl
  refine ⟨hmem, hsound.rehydrates hput, ?_⟩
  obtain ⟨part, rest, hparts⟩ : ∃ part rest, slices chunkSize data.length data = part :: rest := by
    cases data with
    | nil => exact absurd hlarge (by decide)
    | cons b rest => exact ⟨_, _, rfl⟩
  refine @rehydrateBlob_pruneOrphanBlobs_of_unlisted _ _ _ (sha256 part) _ hmem hput ?_ ?_
  · rw [hparts]
    exact mem_cons_self
  · rw [hunlisted]
    exact not_mem_nil

end

section

open Plain

theorem Plain.sha256_injective : Function.Injective (sha256 : Bytes → Text) := by
  have htoUInt16 : Function.Injective UInt8.toUInt16 := by
    intro a b h
    have := congrArg UInt16.toUInt8 h
    simpa using this
  intro data data' h
  exact map_injective_iff.mpr htoUInt16 (append_cancel_left h)

/-- A file that is staged, committed and collected, and another that is put beside it. -/
theorem small_files_are_kept : Run.Guarded CasStore.step KeepsContent CasStore.new
    [.stageFile (text "a") [1] 0o644 0, .putBlob [2] none, .commitStaged ⟨1, text "f"⟩ (text "m") 0,
      .pruneOrphanBlobs] :=
  (collections_keep_content_iff Plain.sha256_injective _).mpr
    ⟨trivial, trivial, by simp only [SafeCall]; decide, by simp only [SafeCall]; decide, trivial⟩

theorem not_guarded_of_large {data : Bytes} (hlarge : data.length > chunkThreshold) :
    ¬ Run.Guarded CasStore.step KeepsContent CasStore.new
      [.putBlob data none, .stageFile (text "a") data 0o644 0, .pruneOrphanBlobs] := by
  rintro ⟨-, -, hkeeps, -⟩
  obtain ⟨hmem, hbefore, hafter⟩ :=
    rehydrateBlob_of_staged Plain.sha256_injective hlarge (text "a") 0o644 0
  cases hbefore.symm.trans ((hkeeps _ hmem).symm.trans hafter)

/-- A file one byte over the threshold is put, staged and lost. -/
theorem staged_file_is_lost : ¬ Run.Guarded CasStore.step KeepsContent CasStore.new
    [.putBlob (List.replicate 65537 0) none,
      .stageFile (text "a") (List.replicate 65537 0) 0o644 0, .pruneOrphanBlobs] := by
  apply not_guarded_of_large
  rw [length_replicate]
  decide

end

end Lumi.Cas
