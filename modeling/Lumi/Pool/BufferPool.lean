import Lumi.Lib.InsertionMap
import Lumi.Lib.JsValue

/-!
# The buffer pool

`BroccoliBufferPoolManager` keeps pages in a fixed number of frames.  A fetch of a
page that is not resident takes a frame, free or that of a victim, and then awaits
the loader; only when the loader has delivered does the new page take the place of
the old.  What lies between two awaits is one step here, so a fetch that misses is
three: `fetchPage` with the choice of the frame, `allocated`, which reads the frame's
old page and calls the loader, and `loaded` or `loadFailed`.  A fetch of a page that
is being loaded waits for that load and then pins the page (`joined`).

The page frames are objects: a fetch that waited, and a writer that is running, hold
on to a frame that may have left the pool in the meantime, so a frame carries the
number of its object.  `evicted` is kept by an observer: the page frames that were
overwritten, as they were.
-/

namespace Lumi.Pool

open Js

/-- `BroccoliPageFrame`, with the number of the object. -/
structure PageFrame (δ : Type*) where
  ref : ℕ
  pageId : Text
  frameId : ℕ
  data : δ
  isDirty : Bool
  pinCount : ℕ
  lastAccessTimestamps : List ℕ

/-- A load in flight: the frame it was given, the page it found there once it has looked, and
the time of the fetch. -/
structure Load where
  frameId : ℕ
  oldFrame : Option (Option Text)
  now : ℕ
  deriving DecidableEq, Repr

structure BufferPool (δ : Type*) where
  totalFrames : ℕ
  k : ℕ
  frames : ℕ → Option (PageFrame δ)
  pageTable : InsertionMap Text ℕ
  freeFrameIds : List ℕ
  loadingPages : InsertionMap Text Load
  /-- The pages that fetches wait for, and the frames such fetches have been given. -/
  joining : List Text
  joinedRefs : List ℕ
  /-- The page frames that a writer is writing. -/
  flushing : List ℕ
  nextRef : ℕ
  totalReadsCount : ℕ
  cacheHitsCount : ℕ
  cacheMissesCount : ℕ
  evictionsCount : ℕ
  evicted : List (PageFrame δ)

/-- What a call of `fetchPage` comes to at once: a frame, a wait for a load, or an error. -/
inductive Fetch
  | hit (ref : ℕ)
  | joins
  | loads
  | fails (message : Text)
  deriving DecidableEq, Repr

/-- The calls, and the moments at which what they await is settled. -/
inductive PoolEvent (δ : Type*)
  | fetchPage (pageId : Text) (now : ℕ)
  | allocated (pageId : Text)
  | loaded (pageId : Text) (data : δ)
  | loadFailed (pageId : Text)
  | joined (ref now : ℕ)
  | unpinPage (pageId : Text) (isDirty : Bool)
  | flushPage (pageId : Text) (hasWriter : Bool)
  | flushed (ref : ℕ)
  | flushFailed (ref : ℕ)

variable {δ : Type*}

/-- The time since the `k`-th last access; for a page with fewer accesses it is infinite,
which is `none`. -/
def PageFrame.backwardDistance (frame : PageFrame δ) (k now : ℕ) : Option ℤ :=
  if frame.lastAccessTimestamps.length < k then none
  else
    let kTimestamp :=
      frame.lastAccessTimestamps.getD (frame.lastAccessTimestamps.length - k) 0
    some ((now : ℤ) - (kTimestamp : ℤ))

/-- The comparison of two distances. -/
def farther : Option ℤ → Option ℤ → Bool
  | _, none => false
  | none, some _ => true
  | some distance, some distance' => distance > distance'

/-- `recordAccess`. -/
def PageFrame.recordAccess (frame : PageFrame δ) (k timestamp : ℕ) : PageFrame δ :=
  let timestamps := frame.lastAccessTimestamps ++ [timestamp]
  { frame with
    lastAccessTimestamps :=
      if timestamps.length > k * 2 then timestamps.drop (timestamps.length - k) else timestamps }

/-- One more holder, at a time. -/
def PageFrame.pin (frame : PageFrame δ) (k now : ℕ) : PageFrame δ :=
  { frame with pinCount := frame.pinCount + 1 }.recordAccess k now

namespace BufferPool

def new (totalFrames k : ℕ) : BufferPool δ :=
  ⟨totalFrames, k, fun _ => none, .empty, List.range totalFrames, .empty, [], [], [], 0, 0, 0, 0,
    0, []⟩

section

variable (s : BufferPool δ)

/-- The loop of `selectLruKVictim` over the frame ids: the largest distance so far, and where. -/
def selectFrom (now : ℕ) (frameIds : List ℕ) : Option ℤ × Option ℕ :=
  frameIds.foldl
    (fun (maxBackwardDistance, victimFrameId) i =>
      match s.frames i with
      | none => (maxBackwardDistance, victimFrameId)
      | some frame =>
        -- dirty pages require an explicit flush
        if frame.pinCount > 0 ∨ frame.isDirty then (maxBackwardDistance, victimFrameId)
        else if farther (frame.backwardDistance s.k now) maxBackwardDistance then
          (frame.backwardDistance s.k now, some i)
        else (maxBackwardDistance, victimFrameId))
    (some (-1), none)

def selectLruKVictim (now : ℕ) : Option ℕ :=
  (s.selectFrom now (List.range s.totalFrames)).2

/-- `allocateFrame`, which runs to its end when it is called. -/
def allocateFrame (now : ℕ) : Except Text (ℕ × BufferPool δ) :=
  match s.freeFrameIds with
  | frameId :: freeFrameIds => .ok (frameId, { s with freeFrameIds })
  | [] =>
    match s.selectLruKVictim now with
    | some victimFrameId => .ok (victimFrameId, s)
    | none =>
      .error (text s!"Buffer pool exhaustion: all {s.totalFrames} frames are pinned or "
        ++ text "dirty; flush dirty pages before eviction")

/-- The frame changed by a function, if there is a page in it. -/
def touch (frameId : ℕ) (f : PageFrame δ → PageFrame δ) : BufferPool δ :=
  { s with frames := Function.update s.frames frameId ((s.frames frameId).map f) }

section

variable (pageId : Text)

def fetchPage (now : ℕ) : Fetch × BufferPool δ :=
  let s := { s with totalReadsCount := s.totalReadsCount + 1 }
  if (trim pageId).length = 0 then (.fails (text "pageId must be non-empty"), s)
  else
    match s.pageTable.get? pageId with
    | some existingFrameId =>
      let s := { s with cacheHitsCount := s.cacheHitsCount + 1 }
      let ref := ((s.frames existingFrameId).map (·.ref)).getD 0
      (.hit ref, s.touch existingFrameId (·.pin s.k now))
    | none =>
      match s.loadingPages.get? pageId with
      | some _ => (.joins, { s with joining := pageId :: s.joining })
      | none =>
        let s := { s with cacheMissesCount := s.cacheMissesCount + 1 }
        match s.allocateFrame now with
        | .ok (frameId, s) =>
          (.loads, { s with
            loadingPages := s.loadingPages.set pageId ⟨frameId, none, now⟩ })
        | .error message => (.fails message, s)

/-- The load goes on after the await of its frame: it remembers the old page. -/
def allocated : BufferPool δ :=
  match s.loadingPages.get? pageId with
  | some ⟨frameId, none, now⟩ =>
    let oldFrame := (s.frames frameId).map (·.pageId)
    { s with loadingPages := s.loadingPages.set pageId ⟨frameId, some oldFrame, now⟩ }
  | _ => s

/-- The fetches of a page that have waited for it are given the frame. -/
def join (ref : ℕ) : BufferPool δ :=
  { s with
    joining := s.joining.filter (· ≠ pageId)
    joinedRefs := (s.joining.filter (· = pageId)).map (fun _ => ref) ++ s.joinedRefs }

/-- The loader has delivered: the new page takes the frame. -/
def loaded (data : δ) : BufferPool δ :=
  match s.loadingPages.get? pageId with
  | some ⟨frameId, some oldFrame, now⟩ =>
    let newFrame : PageFrame δ := ⟨s.nextRef, pageId, frameId, data, false, 1, [now]⟩
    let pageTable := match oldFrame with
      | some oldPageId => s.pageTable.delete oldPageId
      | none => s.pageTable
    join
      { s with
        evictionsCount := if oldFrame.isSome then s.evictionsCount + 1 else s.evictionsCount
        frames := Function.update s.frames frameId (some newFrame)
        pageTable := pageTable.set pageId frameId
        loadingPages := s.loadingPages.delete pageId
        nextRef := s.nextRef + 1
        evicted := (s.frames frameId).toList ++ s.evicted }
      pageId s.nextRef
  | _ => s

/-- The loader has thrown: a frame that was free is free again. -/
def loadFailed : BufferPool δ :=
  match s.loadingPages.get? pageId with
  | some ⟨frameId, some oldFrame, _⟩ =>
    { s with
      freeFrameIds := if oldFrame.isNone then frameId :: s.freeFrameIds else s.freeFrameIds
      loadingPages := s.loadingPages.delete pageId
      joining := s.joining.filter (· ≠ pageId) }
  | _ => s

/-- The object `ref` changed by a function, wherever it is. -/
def touchRef (ref : ℕ) (f : PageFrame δ → PageFrame δ) : BufferPool δ :=
  { s with
    frames := fun i => (s.frames i).map fun frame => if frame.ref = ref then f frame else frame }

/-- A fetch that waited for a load goes on with its frame. -/
def joined (ref now : ℕ) : BufferPool δ :=
  if ref ∈ s.joinedRefs then
    { s with
      joinedRefs := s.joinedRefs.erase ref
      cacheHitsCount := s.cacheHitsCount + 1 }.touchRef ref (·.pin s.k now)
  else s

def unpinPage (isDirty : Bool) : BufferPool δ :=
  match s.pageTable.get? pageId with
  | none => s
  | some frameId => s.touch frameId fun frame =>
      { frame with isDirty := frame.isDirty || isDirty, pinCount := frame.pinCount - 1 }

/-- `flushPage`, up to the await of its writer. -/
def flushPage (hasWriter : Bool) : BufferPool δ :=
  match s.pageTable.get? pageId with
  | none => s
  | some frameId =>
    match s.frames frameId with
    | none => s
    | some frame =>
      if ¬ frame.isDirty then s
      else if hasWriter then { s with flushing := frame.ref :: s.flushing }
      else s.touch frameId fun frame => { frame with isDirty := false }

end

/-- The writer is done. -/
def flushed (ref : ℕ) : BufferPool δ :=
  if ref ∈ s.flushing then
    { s with flushing := s.flushing.erase ref }.touchRef ref
      fun frame => { frame with isDirty := false }
  else s

def step : PoolEvent δ → BufferPool δ
  | .fetchPage pageId now => (s.fetchPage pageId now).2
  | .allocated pageId => s.allocated pageId
  | .loaded pageId data => s.loaded pageId data
  | .loadFailed pageId => s.loadFailed pageId
  | .joined ref now => s.joined ref now
  | .unpinPage pageId isDirty => s.unpinPage pageId isDirty
  | .flushPage pageId hasWriter => s.flushPage pageId hasWriter
  | .flushed ref => s.flushed ref
  | .flushFailed ref => { s with flushing := s.flushing.erase ref }

end

end BufferPool

end Lumi.Pool
