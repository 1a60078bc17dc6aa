import Lumi.Lib.InsertionMap
import Lumi.Lib.JsArithmetic
import Lumi.Lib.Run

/-!
# BroccoliTieredKvCache

Two tiers hold the entries: L1 the values themselves, as many as fit, and L2 their JSON.  `put` and
`delete` write both.  A `get` that meets an entry in L2 alone promotes it; one that meets an entry
that ends soon, or none, starts a recomputation, which stores what it fetched when it completes,
whatever was done to the key meanwhile.
-/

namespace Lumi.Substrate

open Js

/-- `JSON.stringify` and `JSON.parse`, which answer `none` where they throw.  The outer result of
`stringify` is a text, or `undefined`. -/
class Json (ν : Type*) where
  stringify : ν → Option (Option Text)
  parse : Option Text → Option ν

structure BroccoliTieredCacheEntry (ν : Type*) where
  value : ν
  createdAt : ℕ
  expiresAt : Number
  computationTimeMs : Number
  readCount : ℕ

structure CompressedEntry where
  json : Option Text
  expiresAt : Number
  computationTimeMs : Number

structure CacheCounts where
  l1Hits : ℕ
  l2Hits : ℕ
  misses : ℕ
  earlyRefreshes : ℕ

structure BroccoliTieredKvCache (ν : Type*) where
  l1Memory : InsertionMap Text (BroccoliTieredCacheEntry ν)
  l2Compressed : InsertionMap Text CompressedEntry
  maxL1Entries : Number
  counts : CacheCounts

structure GetOptions where
  ttlMs : Option Number
  beta : Option Float

/-- What a `get` comes to: a value, `undefined`, an error of `JSON.parse`, or the promise of a
recomputation. -/
inductive GetResult (ν : Type*)
  | value (v : ν)
  | undefined
  | throws
  | recomputed
  deriving DecidableEq

/-- A recomputation that waits for its fetcher. -/
structure Recomputation where
  key : Text
  ttlMs : Number
  t0 : ℕ

variable {ν : Type*}

namespace BroccoliTieredKvCache

def new (maxL1Entries : Number) : BroccoliTieredKvCache ν :=
  ⟨InsertionMap.empty, InsertionMap.empty, maxL1Entries, ⟨0, 0, 0, 0⟩⟩

/-- The loop that looks for the entry that ends first. -/
def oldest (l1Memory : InsertionMap Text (BroccoliTieredCacheEntry ν)) : Option Text × Number :=
  l1Memory.entries.foldl (fun found e =>
    if e.2.expiresAt.lt found.2 then (some e.1, e.2.expiresAt) else found) (none, .posInfinity)

section

variable (s : BroccoliTieredKvCache ν)

def demoteOldestToL2 : BroccoliTieredKvCache ν :=
  match (oldest s.l1Memory).1 with
  | none => s
  -- the empty key is not truthy
  | some oldestKey =>
    if oldestKey = [] then s else { s with l1Memory := s.l1Memory.delete oldestKey }

-- where `stringify` throws, L1 is written and L2 is not
def put [Json ν] (key : Text) (value : ν)
    (ttlMs computationTimeMs : Number) (now : ℕ) : BroccoliTieredKvCache ν :=
  let s := if (Number.finite s.l1Memory.size).ge s.maxL1Entries then s.demoteOldestToL2 else s
  let expiresAt := (Number.finite now).add ttlMs
  let s := { s with l1Memory := s.l1Memory.set key ⟨value, now, expiresAt, computationTimeMs, 1⟩ }
  match Json.stringify value with
  | none => s
  | some json =>
    { s with l2Compressed := s.l2Compressed.set key ⟨json, expiresAt, computationTimeMs⟩ }

def delete (s : BroccoliTieredKvCache ν) (key : Text) : Bool × BroccoliTieredKvCache ν :=
  ((s.l1Memory.get? key).isSome || (s.l2Compressed.get? key).isSome,
    { s with
      l1Memory := s.l1Memory.delete key
      l2Compressed := s.l2Compressed.delete key })

def clear : BroccoliTieredKvCache ν :=
  { s with l1Memory := InsertionMap.empty, l2Compressed := InsertionMap.empty }

def toFloat : Number → Float
  | .nan => 0 / 0
  | .posInfinity => 1 / 0
  | .negInfinity => -1 / 0
  | .finite q => Float.ofInt q.num / Float.ofNat q.den

/-- `xfetchThreshold > timeToExpiry` for the drawn number. -/
def refreshesEarly (beta : Float) (delta timeToExpiry : Number) (random : Float) : Bool :=
  toFloat timeToExpiry < -beta * toFloat delta * Float.log random

/-- The second and the third step of `get`; `again` is the time when an entry is promoted. -/
def getBelow [Json ν] (key : Text) (fetcher : Bool) (options : GetOptions) (now again : ℕ) :
    GetResult ν × Option Recomputation × BroccoliTieredKvCache ν :=
  let recompute := fun s : BroccoliTieredKvCache ν =>
    let s := { s with counts := { s.counts with misses := s.counts.misses + 1 } }
    if fetcher then
      (.recomputed, some ⟨key, options.ttlMs.getD (.finite 60000), again⟩, s)
    else (.undefined, none, s)
  match s.l2Compressed.get? key with
  | none => recompute s
  | some l2Entry =>
    if (Number.finite now).lt l2Entry.expiresAt then
      let s := { s with counts := { s.counts with l2Hits := s.counts.l2Hits + 1 } }
      match Json.parse l2Entry.json with
      | none => (.throws, none, s)
      | some decompressed =>
        (.value decompressed, none,
          s.put key decompressed (l2Entry.expiresAt.sub (.finite now)) (.finite 5) again)
    else recompute s

def get [Json ν] (s : BroccoliTieredKvCache ν) (key : Text) (fetcher : Bool)
    (options : GetOptions) (now again : ℕ) (random : Float) :
    GetResult ν × Option Recomputation × BroccoliTieredKvCache ν :=
  match s.l1Memory.get? key with
  | none => s.getBelow key fetcher options now again
  | some l1Entry =>
    let s := { s with
      l1Memory := s.l1Memory.set key { l1Entry with readCount := l1Entry.readCount + 1 } }
    let timeToExpiry := l1Entry.expiresAt.sub (.finite now)
    if (Number.finite 0).lt timeToExpiry then
      let s := { s with counts := { s.counts with l1Hits := s.counts.l1Hits + 1 } }
      if fetcher && refreshesEarly (options.beta.getD 1.0) l1Entry.computationTimeMs timeToExpiry
          random then
        (.value l1Entry.value, some ⟨key, options.ttlMs.getD (.finite 60000), again⟩,
          { s with counts := { s.counts with earlyRefreshes := s.counts.earlyRefreshes + 1 } })
      else (.value l1Entry.value, none, s)
    else s.getBelow key fetcher options now again

/-- The rest of `recomputeAndStore`, when the fetcher has answered. -/
def storeRecomputed [Json ν] (r : Recomputation) (value : ν)
    (now again : ℕ) : BroccoliTieredKvCache ν :=
  let delta := max 1 ((now : ℤ) - r.t0)
  s.put r.key value r.ttlMs (.finite delta) again

end

end BroccoliTieredKvCache

/-! ## A cache with its recomputations -/

/-- The cache, the recomputations that are under way with the number of the call that started each,
and the number of calls so far. -/
structure CacheSystem (ν : Type*) where
  cache : BroccoliTieredKvCache ν
  running : List (Recomputation × ℕ)
  calls : ℕ

/-- What happens to a cache; the times are readings of the clock. -/
inductive CacheCall (ν : Type*)
  | put (key : Text) (value : ν) (ttlMs computationTimeMs : Number) (now : ℕ)
  | delete (key : Text)
  | clear
  | get (key : Text) (fetcher : Bool) (options : GetOptions) (now again : ℕ) (random : Float)
  | complete (i : ℕ) (value : ν) (now again : ℕ)
  | fail (i : ℕ)

namespace CacheSystem

def new (maxL1Entries : Number) : CacheSystem ν := ⟨.new maxL1Entries, [], 0⟩

def step [Json ν] (s : CacheSystem ν) (call : CacheCall ν) : CacheSystem ν :=
  let calls := s.calls + 1
  match call with
  | .put key value ttlMs computationTimeMs now =>
    ⟨s.cache.put key value ttlMs computationTimeMs now, s.running, calls⟩
  | .delete key => ⟨(s.cache.delete key).2, s.running, calls⟩
  | .clear => ⟨s.cache.clear, s.running, calls⟩
  | .get key fetcher options now again random =>
    let (_, started, cache) := s.cache.get key fetcher options now again random
    ⟨cache, s.running ++ (started.map (·, s.calls)).toList, calls⟩
  | .complete i value now again =>
    match s.running[i]? with
    | none => { s with calls }
    | some r =>
      ⟨s.cache.storeRecomputed r.1 value now again, s.running.eraseIdx i, calls⟩
  | .fail i => { s with running := s.running.eraseIdx i, calls }

end CacheSystem

end Lumi.Substrate
