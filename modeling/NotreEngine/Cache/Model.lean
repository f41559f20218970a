import NotreEngine.Basic
import NotreEngine.PagedMemory

/-!
# The slice cache

`SliceCache` as `cache.cpp` computes it, together with the memory its windows live in. Sizes and
addresses are natural numbers: every slice is a range of one address space, so the sums the cache
forms never reach the width of a machine word. A call that aborts the process has no result.
-/
namespace NotreEngine.Cache

def kPage : Nat := 4096

def pageFloor (a : Nat) : Nat := a - a % kPage

def spanPages (src bytes : Nat) : Nat :=
  let start := pageFloor src
  let stop := pageFloor (src + bytes + kPage - 1)
  stop - start

def fnv1a (s : Str) : UInt64 :=
  s.foldl (fun h c => (h ^^^ c.toUInt64) * 1099511628211) 1469598103934665603

/-- The key of a slice; the expert id enters as its 32-bit word. -/
def key (t : Str) (e : UInt32) : UInt64 := fnv1a t * 1000003 ^^^ e.toUInt64

structure CacheStats where
  hits : Nat := 0
  misses : Nat := 0
  bytesLoaded : Nat := 0
  evictions : Nat := 0
  dedupRequests : Nat := 0
  prefetched : Nat := 0

/-- What an entry records about its slice; `sliceAddr` and `bytes` are the victim range. -/
structure Slice where
  tensor : Str
  expert : UInt32
  sliceAddr : Nat
  bytes : Nat
  deriving DecidableEq

/-- A list node of `lru_`; iterators name nodes by their identity. -/
structure Node where
  id : Nat
  key : UInt64
  deriving DecidableEq

structure Entry extends Slice where
  lruIt : Nat

def kShieldEntries : Nat := 2048

/-- What decides residency: the cap with `map_`, `lru_`, `used_` and `shield_`. -/
structure Index where
  hardCapBytes : Nat
  map : UInt64 → Option Entry := fun _ => none
  lru : List Node := []
  nextNode : Nat := 0
  used : Nat := 0
  shield : Finset UInt64 := ∅

structure SliceCache extends Index where
  stats : CacheStats := {}
  verifyRemaining : Nat := 0
  mem : PagedMemory := fun _ => none

/-- The configured `Source`: which reads succeed, the bytes they deliver, and how many of these a
read that fails has delivered before it does. -/
structure Backend where
  read : Nat → Nat → Bool
  file : Nat → UInt8
  delivered : Nat → Nat → Nat

/-- The memory source pointers point into, and the backend if one is set. -/
structure Source where
  mapping : Nat → UInt8
  backend : Option Backend

/-- The expert ids of a batch call, with the `unordered_set` of them in the order it is visited. -/
structure Batch where
  experts : List UInt32
  uniq : List UInt32
  nodup : uniq.Nodup
  mem_uniq : ∀ e, e ∈ uniq ↔ e ∈ experts

variable (src : Source) (c : SliceCache)

def fill (dest : Nat) (data : Nat → UInt8) (bytes : Nat) : SliceCache :=
  { c with mem := c.mem.write dest data bytes }

/-- Pointer mode when `ptr` is set, backend mode otherwise. -/
def fillSlice (dest : Nat) (ptr : Option Nat) (srcOff bytes : Nat) : Option SliceCache :=
  match ptr with
  | some p =>
    -- the memcmp guard compares what has just been copied, so it only counts down
    some { fill c dest (fun i => src.mapping (p + i)) bytes with
      verifyRemaining := c.verifyRemaining - 1 }
  | none =>
    match src.backend with
    | some b =>
      if b.read srcOff bytes then some (fill c dest (fun i => b.file (srcOff + i)) bytes) else none
    | none => none

/-- The hit branch: the entry's node moves to the front of `lru_`. -/
def refreshHit (k : UInt64) (e : Entry) : SliceCache :=
  { c with
    lru := ⟨c.nextNode, k⟩ :: c.lru.filter (fun n => n.id ≠ e.lruIt)
    nextNode := c.nextNode + 1
    map := Function.update c.map k (some { e with lruIt := c.nextNode })
    shield := insert k c.shield
    stats := { c.stats with hits := c.stats.hits + 1 } }

/-- The least recent unshielded key, else the least recent one. -/
def victim : Option UInt64 :=
  match c.lru.reverse.find? (fun n => n.key ∉ c.shield) with
  | some n => some n.key
  | none => c.lru.getLast?.map Node.key

def evict (k : UInt64) : SliceCache :=
  let c := { c with lru := c.lru.filter (fun n => n.key ≠ k) }
  match c.map k with
  | some e =>
    { c with
      mem := c.mem.discard (pageFloor e.sliceAddr) (spanPages e.sliceAddr e.bytes)
      used := c.used - e.bytes
      stats := { c.stats with evictions := c.stats.evictions + 1 }
      map := Function.update c.map k none }
  | none => c

def makeRoomLoop : Nat → SliceCache → Nat → SliceCache
  | 0, c, _ => c
  | n + 1, c, bytes =>
    if c.used + bytes > c.hardCapBytes then
      match victim c with
      | some k => makeRoomLoop n (evict c k) bytes
      | none => c
    else c

/-- Each round removes a node from `lru_`, so its length bounds the rounds. -/
def makeRoomLocked (bytes : Nat) : SliceCache := makeRoomLoop c.lru.length c bytes

def dropOldest : List UInt64 → Finset UInt64 → Finset UInt64
  | [], s => s
  | k :: ks, s => if s.card > kShieldEntries / 2 then dropOldest ks (s.erase k) else s

def insertEntry (k : UInt64) (s : Slice) : SliceCache :=
  if s.bytes ≤ c.hardCapBytes then
    { c with
      lru := ⟨c.nextNode, k⟩ :: c.lru
      nextNode := c.nextNode + 1
      map :=
        match c.map k with
        | some _ => c.map
        | none => Function.update c.map k (some { s with lruIt := c.nextNode })
      used := c.used + s.bytes }
  else c

def shieldKey (k : UInt64) : SliceCache :=
  let shield := insert k c.shield
  { c with
    shield :=
      if shield.card > kShieldEntries then dropOldest (c.lru.reverse.map Node.key) shield
      else shield }

def commitLocked (k : UInt64) (s : Slice) : SliceCache := shieldKey (insertEntry c k s) k

/-- The slice is the entry a miss creates; `true` reports a hit. -/
def touchLocked (k : UInt64) (s : Slice) (ptr : Option Nat) (srcOff : Nat) :
    Option (SliceCache × Bool) :=
  match c.map k with
  | some e => some (refreshHit c k e, true)
  | none =>
    match fillSlice src (makeRoomLocked c s.bytes) s.sliceAddr ptr srcOff s.bytes with
    | some c =>
      let c := { c with stats := { c.stats with
        misses := c.stats.misses + 1
        bytesLoaded := c.stats.bytesLoaded + s.bytes } }
      some (commitLocked c k s, false)
    | none => none

def touch (tensor : Str) (expert : UInt32) (dest ptr bytes : Nat) : Option (SliceCache × Bool) :=
  touchLocked src c (key tensor expert) ⟨tensor, expert, dest, bytes⟩ (some ptr) 0

def touchAt (tensor : Str) (expert : UInt32) (dest srcOffset bytes : Nat) :
    Option (SliceCache × Bool) :=
  touchLocked src c (key tensor expert) ⟨tensor, expert, dest, bytes⟩ none srcOffset

/-- The slice of expert `e` in a window of equally sized slices. -/
def windowSlice (tensor : Str) (destWindowBase bytes : Nat) (e : UInt32) : Slice :=
  ⟨tensor, e, destWindowBase + e.toNat * bytes, bytes⟩

/-- The loop of `touch_batch`, with the number of misses. -/
def touchEach (tensor : Str) (destWindowBase srcBase bytes : Nat) :
    List UInt32 → SliceCache → Nat → Option (SliceCache × Nat)
  | [], c, misses => some (c, misses)
  | e :: es, c, misses =>
    match touchLocked src c (key tensor e) (windowSlice tensor destWindowBase bytes e)
        (some (srcBase + e.toNat * bytes)) 0 with
    | some (c, hit) =>
      touchEach tensor destWindowBase srcBase bytes es c (if hit then misses else misses + 1)
    | none => none

def countDedup (b : Batch) : SliceCache :=
  { c with stats := { c.stats with
    dedupRequests := c.stats.dedupRequests + (b.experts.length - b.uniq.length) } }

def touchBatch (tensor : Str) (b : Batch) (destWindowBase srcBase bytes : Nat) :
    Option (SliceCache × Nat) :=
  touchEach src tensor destWindowBase srcBase bytes b.uniq (countDedup c b) 0

structure Miss where
  k : UInt64
  slice : Slice
  off : Nat

/-- Phase 1 of `touch_batch_at`: hits are refreshed, every miss makes room and is noted. -/
def classify (tensor : Str) (destWindowBase srcBaseOffset bytes : Nat) :
    List UInt32 → SliceCache → SliceCache × List Miss
  | [], c => (c, [])
  | e :: es, c =>
    let k := key tensor e
    match c.map k with
    | some entry => classify tensor destWindowBase srcBaseOffset bytes es (refreshHit c k entry)
    | none =>
      let (c, missList) :=
        classify tensor destWindowBase srcBaseOffset bytes es (makeRoomLocked c bytes)
      (c, ⟨k, windowSlice tensor destWindowBase bytes e, srcBaseOffset + e.toNat * bytes⟩
        :: missList)

/-- Phase 2: every miss is read; without a backend, or when a read fails, the process aborts. -/
def fillMisses : List Miss → SliceCache → Option SliceCache
  | [], c => some c
  | m :: ms, c =>
    match src.backend with
    | some b =>
      if b.read m.off m.slice.bytes then
        fillMisses ms (fill c m.slice.sliceAddr (fun i => b.file (m.off + i)) m.slice.bytes)
      else none
    | none => none

/-- Phase 3. -/
def commitMisses : List Miss → SliceCache → SliceCache
  | [], c => c
  | m :: ms, c => commitMisses ms (commitLocked c m.k m.slice)

def touchBatchAt (tensor : Str) (b : Batch) (destWindowBase srcBaseOffset bytes : Nat) :
    Option (SliceCache × Nat) :=
  let (c, missList) :=
    classify tensor destWindowBase srcBaseOffset bytes b.uniq (countDedup c b)
  if missList.isEmpty then some (c, 0)
  else
    match fillMisses src missList c with
    | some c =>
      let c := commitMisses missList c
      some ({ c with stats := { c.stats with
        misses := c.stats.misses + missList.length
        bytesLoaded := c.stats.bytesLoaded + missList.length * bytes } }, missList.length)
    | none => none

/-- Phase 1 of `prefetch_batch_at`, under the lock: the absent slices as jobs. -/
def absentJobs (tensor : Str) (b : Batch) (destWindowBase srcBaseOffset bytes : Nat) :
    List Miss :=
  (b.uniq.filter fun e => (c.map (key tensor e)).isNone).map fun e =>
    ⟨key tensor e, windowSlice tensor destWindowBase bytes e, srcBaseOffset + e.toNat * bytes⟩

/-- The bytes that a read leaves written: all of them, or those it has when it fails. -/
def Backend.arrived (bk : Backend) (off bytes : Nat) : Nat :=
  if bk.read off bytes then bytes else min (bk.delivered off bytes) bytes

/-- One job of phase 2, outside the lock. What a failed read has delivered stays in the window. -/
def readJob (bk : Backend) (m : Miss) : SliceCache :=
  fill c m.slice.sliceAddr (fun i => bk.file (m.off + i)) (bk.arrived m.off m.slice.bytes)

def readJobs (bk : Backend) : List Miss → SliceCache → SliceCache
  | [], c => c
  | m :: ms, c => readJobs bk ms (readJob c bk m)

/-- One turn of the loop of phase 3. -/
def commitJob (m : Miss) : SliceCache :=
  match c.map m.k with
  | some _ => c
  | none =>
    let c := commitLocked (makeRoomLocked c m.slice.bytes) m.k m.slice
    { c with stats := { c.stats with prefetched := c.stats.prefetched + 1 } }

/-- Phase 3, under the lock again. -/
def commitJobs : List Miss → SliceCache → SliceCache
  | [], c => c
  | m :: ms, c => commitJobs ms (commitJob c m)

def prefetchBatchAt (tensor : Str) (b : Batch) (destWindowBase srcBaseOffset bytes : Nat) :
    SliceCache :=
  match src.backend with
  | none => c
  | some bk =>
    let jobs := absentJobs c tensor b destWindowBase srcBaseOffset bytes
    let read := readJobs bk jobs c
    if jobs.all fun m => bk.read m.off m.slice.bytes then commitJobs jobs read else read

/-- The public calls that change the cache, with their arguments. -/
inductive Call where
  | touch (tensor : Str) (expert : UInt32) (dest ptr bytes : Nat)
  | touchAt (tensor : Str) (expert : UInt32) (dest srcOffset bytes : Nat)
  | touchBatch (tensor : Str) (b : Batch) (destWindowBase srcBase bytes : Nat)
  | touchBatchAt (tensor : Str) (b : Batch) (destWindowBase srcBaseOffset bytes : Nat)
  | prefetchBatchAt (tensor : Str) (b : Batch) (destWindowBase srcBaseOffset bytes : Nat)

/-- The state a call returns in, unless it aborts the process. -/
def Call.run : Call → Option SliceCache
  | .touch t e dest ptr bytes => (Cache.touch src c t e dest ptr bytes).map Prod.fst
  | .touchAt t e dest off bytes => (Cache.touchAt src c t e dest off bytes).map Prod.fst
  | .touchBatch t b base ptr bytes => (Cache.touchBatch src c t b base ptr bytes).map Prod.fst
  | .touchBatchAt t b base off bytes => (Cache.touchBatchAt src c t b base off bytes).map Prod.fst
  | .prefetchBatchAt t b base off bytes => some (Cache.prefetchBatchAt src c t b base off bytes)

end NotreEngine.Cache
