import Mathlib.Algebra.GroupWithZero.Nat
import Mathlib.Data.List.Sort
import Lumi.Lib.InsertionMap
import Lumi.Lib.JsValue

/-!
# The content-addressed store

`DeterministicCasStore` keeps blobs under the SHA-256 of their bytes, the large ones also
in chunks, trees under the hash of their listing, and commits under a hash of parent,
tree, message and time.  HEAD, the active branch and the refs of the branches are three
separate things, which `createCommit` writes at once.

The 256 shards are one map here: the shard of a blob is found by the hash it is asked
for.  What is kept under an id does not repeat that id.  A text that is stored is its
UTF-8 bytes.  The Bloom filters, the deltas, the packfiles, the log of operations and the
bisect session are left out: nothing that is modelled reads them.
-/

namespace Lumi.Cas

open Js

abbrev Bytes := List UInt8

/-- The digest in hexadecimal, the encoding of texts, and the collation. -/
class Runtime where
  /-- `crypto.createHash("sha256").update(data).digest("hex")`. -/
  sha256 : Bytes → Text
  /-- `Buffer.from(s, "utf8")`. -/
  utf8 : Text → Bytes
  localeCompare : Text → Text → Ordering

export Runtime (sha256)

/-- A blob; `chunkHashes` is that of its manifest, if it is chunked. -/
structure CasBlob where
  size : ℕ
  data : Bytes
  mimeType : Option Text
  chunkHashes : Option (List Text)
  deriving DecidableEq

structure TreeEntry where
  path : Text
  hash : Text
  mode : ℕ
  size : ℕ
  isChunked : Bool
  chunkHashes : Option (List Text)
  deriving DecidableEq

structure CommitStats where
  fileCount : ℕ
  byteCount : ℕ
  chunkCount : ℕ
  deriving DecidableEq

/-- `CheckpointSignatureManifest`. -/
structure Signature where
  publicKeyHex : Text
  signatureHex : Text
  signedAt : ℕ
  deriving DecidableEq

structure CheckpointNode where
  changeId : Text
  parentId : Option Text
  treeHash : Text
  message : Text
  frameIndex : ℕ
  timestamp : ℕ
  branchName : Option Text
  stats : CommitStats
  signature : Option Signature
  deriving DecidableEq

structure BranchRef where
  commitId : Text
  createdAt : ℕ
  updatedAt : ℕ
  deriving DecidableEq

structure TagRef where
  commitId : Text
  message : Option Text
  createdAt : ℕ
  deriving DecidableEq

structure StagingFile where
  data : Bytes
  mode : ℕ
  stagedAt : ℕ
  deriving DecidableEq

structure FileInput where
  path : Text
  data : Bytes
  mode : Option ℕ
  deriving DecidableEq

/-- What a call reads from the clock and draws at random. -/
structure Draw where
  now : ℕ
  randomHex : Text

structure CasStore where
  blobs : InsertionMap Text CasBlob
  chunks : InsertionMap Text Bytes
  trees : InsertionMap Text (List TreeEntry)
  commits : InsertionMap Text CheckpointNode
  changeIdToCommitMap : InsertionMap Text Text
  branches : InsertionMap Text BranchRef
  tags : InsertionMap Text TagRef
  stagingArea : InsertionMap Text StagingFile
  activeBranch : Text
  headId : Option Text

/-- An id that is neither `undefined` nor empty. -/
def truthy (id : Option Text) : Option Text := id.filter (· ≠ [])

/-- `path.replace(/\\/g, "/")`. -/
def cleanPath (path : Text) : Text := path.map fun c => if c = 0x5C then 0x2F else c

def chunkThreshold : ℕ := 64 * 1024

def chunkSize : ℕ := 64 * 1024

/-- The slices of the loop in `putBlob`; with `size` positive, as many steps as there are bytes
suffice. -/
def slices (size : ℕ) : ℕ → Bytes → List Bytes
  | 0, _ | _, [] => []
  | steps + 1, data => data.take size :: slices size steps (data.drop size)

namespace CasStore

def new : CasStore :=
  ⟨.empty, .empty, .empty, .empty, .empty, .empty, .empty, .empty, text "main", none⟩

/-! ## Blobs -/

def getBlob (s : CasStore) (hash : Text) : Option CasBlob := s.blobs.get? hash

/-- The chunks of a manifest, one after the other. -/
def gatherChunks (chunks : InsertionMap Text Bytes) : List Text → Option Bytes
  | [] => some []
  | hash :: rest =>
    match chunks.get? hash with
    | none => none
    | some chunk => (gatherChunks chunks rest).map (chunk ++ ·)

def rehydrateBlob (s : CasStore) (hash : Text) : Option Bytes :=
  match s.getBlob hash with
  | none => none
  | some blob =>
    match blob.chunkHashes with
    | none => some blob.data
    | some chunkHashes => gatherChunks s.chunks chunkHashes

variable [Runtime]

/-- Stores the chunks that are not there yet. -/
def putChunks (chunks : InsertionMap Text Bytes) (parts : List Bytes) : InsertionMap Text Bytes :=
  parts.foldl
    (fun chunks part =>
      if (chunks.get? (sha256 part)).isSome then chunks else chunks.set (sha256 part) part)
    chunks

section

variable (s : CasStore)

def putBlob (data : Bytes) (mimeType : Option Text) : CasBlob × CasStore :=
  match s.getBlob (sha256 data) with
  | some existing => (existing, s)
  | none =>
    if data.length > chunkThreshold then
      let parts := slices chunkSize data.length data
      let blob : CasBlob := ⟨data.length, data, mimeType, some (parts.map sha256)⟩
      (blob, { s with
        chunks := putChunks s.chunks parts
        blobs := s.blobs.set (sha256 data) blob })
    else
      let blob : CasBlob := ⟨data.length, data, mimeType, none⟩
      (blob, { s with blobs := s.blobs.set (sha256 data) blob })

/-! ## Trees -/

/-- The loop of `putTree`: the files are stored, and listed. -/
def putFiles (s : CasStore) : List FileInput → List TreeEntry × CasStore
  | [] => ([], s)
  | file :: rest =>
    let (blob, s) := s.putBlob file.data none
    let (entries, s) := s.putFiles rest
    (⟨cleanPath file.path, sha256 file.data, file.mode.getD 0o644, blob.size,
      blob.chunkHashes.isSome, blob.chunkHashes⟩ :: entries, s)

section

variable (entries : List TreeEntry)

/-- `entries.sort((a, b) => a.path.localeCompare(b.path))`. -/
def sortEntries : List TreeEntry :=
  entries.insertionSort fun a b => (Runtime.localeCompare a.path b.path).isLE = true

def octal (n : ℕ) : Text := text (String.ofList (Nat.toDigits 8 n))

def treeManifest : Text :=
  joinWith (text "\n") (entries.map fun e =>
    octal e.mode ++ text " " ++ e.hash ++ text " " ++ e.path)

/-- The hash under which a tree is stored. -/
def treeHashOf : Text := sha256 (Runtime.utf8 (treeManifest entries))

end

def putTree (files : List FileInput) : List TreeEntry × CasStore :=
  let (listed, s) := s.putFiles files
  let entries := sortEntries listed
  (entries, { s with trees := s.trees.set (treeHashOf entries) entries })

def getTree (treeHash : Text) : Option (List TreeEntry) := s.trees.get? treeHash

/-! ## Commits -/

def getCommit (commitId : Text) : Option CheckpointNode := s.commits.get? commitId

/-- A commit with its id. -/
def findCommit (commitId : Option Text) : Option (Text × CheckpointNode) :=
  (truthy commitId).bind fun id => (s.getCommit id).map (id, ·)

def getHead : Option (Text × CheckpointNode) := s.findCommit s.headId

def getCommitByChangeId (changeId : Text) : Option (Text × CheckpointNode) :=
  s.findCommit (s.changeIdToCommitMap.get? changeId)

def generateChangeId (randomHex hint : Text) : Text :=
  if hint = [] then text "c_" ++ randomHex
  else text "c_" ++ (sha256 (Runtime.utf8 hint)).take 8 ++ text "_" ++ randomHex.take 6

/-- The hash under which a commit is stored. -/
def commitIdOf (parent : Option Text) (treeHash message : Text) (now : ℕ) : Text :=
  sha256 (Runtime.utf8 (text "commit:" ++ (truthy parent).getD (text "root") ++ text ":" ++
    treeHash ++ text ":" ++ message ++ text ":" ++ text (toString now)))

/-- `createCommit`: the id of the commit, and the store that has it. -/
def createCommit (draw : Draw) (message : Text) (files : List FileInput)
    (frameIndex : ℕ) (parentId branchName existingChangeId : Option Text) : Text × CasStore :=
  let (entries, s) := s.putTree files
  let branch := branchName.getD s.activeBranch
  let parent := parentId.or s.headId
  let commitId := commitIdOf parent (treeHashOf entries) message draw.now
  let changeId := existingChangeId.getD (generateChangeId draw.randomHex message)
  let commit : CheckpointNode :=
    { changeId
      parentId := parent
      treeHash := treeHashOf entries
      message := trim message
      frameIndex
      timestamp := draw.now
      branchName := some branch
      stats :=
        { fileCount := entries.length
          byteCount := (entries.map TreeEntry.size).sum
          chunkCount := (entries.map fun e => (e.chunkHashes.getD []).length).sum }
      signature := none }
  let createdAt := ((s.branches.get? branch).map BranchRef.createdAt).getD draw.now
  (commitId, { s with
    commits := s.commits.set commitId commit
    changeIdToCommitMap := s.changeIdToCommitMap.set changeId commitId
    headId := some commitId
    branches := s.branches.set branch ⟨commitId, createdAt, draw.now⟩ })

def setHead (commitId : Text) : Bool × CasStore :=
  if (s.commits.get? commitId).isSome then (true, { s with headId := some commitId })
  else (false, s)

/-- `signCommit`, where the commit exists; else it throws. -/
def signCommit (commitId : Text) (privateKeyHex publicKeyHex : Option Text)
    (now : ℕ) : Option CasStore :=
  (s.getCommit commitId).map fun commit =>
    let priv := privateKeyHex.getD (text "deterministic_ed25519_privkey_seed")
    let pub := publicKeyHex.getD ((sha256 (Runtime.utf8 (priv ++ text ":pub"))).take 64)
    let signatureHex := (sha256 (Runtime.utf8 (commit.treeHash ++ text ":" ++ commit.message ++
      text ":" ++ priv))).take 128
    { s with
      commits := s.commits.set commitId { commit with signature := some ⟨pub, signatureHex, now⟩ } }

/-! ## The staging area -/

def stageFile (path : Text) (data : Bytes) (mode now : ℕ) : CasStore :=
  { s with stagingArea := s.stagingArea.set (cleanPath path) ⟨data, mode, now⟩ }

def unstageFile (path : Text) : CasStore :=
  { s with stagingArea := s.stagingArea.delete (cleanPath path) }

def clearStaging : CasStore := { s with stagingArea := .empty }

/-- The files of a tree that are in the store. -/
def filesOf (tree : List TreeEntry) : List FileInput :=
  tree.filterMap fun e => (s.getBlob e.hash).map fun blob => ⟨e.path, blob.data, some e.mode⟩

/-- The tree of a commit, if both are there. -/
def treeOf (commit : Option CheckpointNode) : List TreeEntry :=
  (commit.bind fun c => s.getTree c.treeHash).getD []

/-- The files under their paths, as `new Map` and `set` keep them. -/
def byPath (files : List FileInput) : InsertionMap Text FileInput :=
  .ofList (files.map fun f => (f.path, f))

/-- What `commitStaged` commits: the files of HEAD, overwritten by those that are staged. -/
def stagedFiles : List FileInput :=
  (byPath (s.filesOf (s.treeOf (s.getHead.map Prod.snd)) ++
    s.stagingArea.entries.map fun e => ⟨e.1, e.2.data, some e.2.mode⟩)).values

def commitStaged (draw : Draw) (message : Text) (frameIndex : ℕ) : Option Text × CasStore :=
  if s.stagingArea.size = 0 then (none, s)
  else
    let (commitId, s) := s.createCommit draw message s.stagedFiles frameIndex none none none
    (some commitId, s.clearStaging)

/-! ## Branches and tags -/

def createBranch (name : Text) (commitId : Option Text) (now : ℕ) : CasStore :=
  let targetCommit := (commitId.or s.headId).getD (text "root")
  { s with branches := s.branches.set name ⟨targetCommit, now, now⟩ }

def switchBranch (name : Text) : Bool × CasStore :=
  match s.branches.get? name with
  | none => (false, s)
  | some branch =>
    (true, { s with
      activeBranch := name
      headId := if branch.commitId ≠ text "root" then some branch.commitId else s.headId })

def getActiveBranch : Text := s.activeBranch

def getBranch (name : Text) : Option BranchRef := s.branches.get? name

def createTag (name commitId : Text) (message : Option Text) (now : ℕ) : CasStore :=
  { s with tags := s.tags.set name ⟨commitId, message, now⟩ }

def listTags : List (Text × TagRef) := s.tags.entries

end

end CasStore

/-! ## A runtime for small texts -/

namespace Plain

/-- What a runtime answers for ASCII texts of one case, with digests that show the data. -/
scoped instance runtime : Runtime where
  sha256 data := text "h" ++ data.map UInt8.toUInt16
  utf8 s := s.map UInt16.toUInt8
  localeCompare := fun a b => compareOfLessAndEq a b

end Plain

end Lumi.Cas
