import DVP.Lib.Overwrite
import DVP.Sosal.Types

/-!
# The memory cache

The cache of `source/sosal/cache.c` in front of a flat backing store: its lines, the search for a
line, and the loops of `cache_read`, `cache_write` and `cache_flush`. The line size is not `0`,
and the clock is any function of the number of times it was asked.
-/

namespace DVP.Sosal

/-- `cache_policy_e`. -/
inductive CachePolicy where
  | writeThrough
  | writeBack
  deriving DecidableEq, Repr

/-- `cache_line_t`. -/
structure CacheLine where
  locked : Bool
  valid : Bool
  age : Int
  startOffset : Nat
  endOffset : Nat
  data : List UInt8
  deriving DecidableEq, Repr

/-- `cache_t`. There are `numLines` lines; the callbacks are those of a backing store. -/
structure Cache where
  line : List CacheLine
  lineSize : Nat
  policy : CachePolicy
  deriving DecidableEq, Repr

/-- The flat memory behind the cache, with what it held before each `commitLine`. -/
structure BackingStore where
  bytes : List UInt8
  past : List (List UInt8)
  deriving DecidableEq, Repr

/-- A cache, its backing store and the number of calls of `clock`. -/
structure CacheMem where
  cache : Cache
  store : BackingStore
  ticks : Nat
  deriving DecidableEq, Repr

/-- `cache_create`, when its allocations succeed. -/
def cacheCreate (lineSize numLines : Nat) (policy : CachePolicy) : Cache :=
  { line := List.replicate numLines ⟨false, false, 0, 0, 0, List.replicate lineSize 0⟩
    lineSize := lineSize
    policy := policy }

/-- The test of `cache_index` on one line. -/
def CacheLine.covers (l : CacheLine) (offset : Nat) : Bool :=
  l.valid && decide (l.startOffset ≤ offset) && decide (offset < l.endOffset)

/-- `cache_index`. -/
def cacheIndex (c : Cache) (offset : Nat) : Option Nat :=
  c.line.findIdx? (·.covers offset)

/-- `cache_round_offset`. -/
def cacheRoundOffset (c : Cache) (offset : Nat) : Nat := offset / c.lineSize * c.lineSize

/-- `line[index]`. -/
def cacheLine (c : Cache) (index : Nat) : Except Fault CacheLine :=
  match c.line[index]? with
  | none => .error .outOfBounds
  | some l => .ok l

/-- The cache with `line[index]` replaced. -/
def Cache.setLine (c : Cache) (index : Nat) (l : CacheLine) : Cache :=
  { c with line := c.line.set index l }

/-- `fillLine` of the backing store: it reads the bytes the store has at the offset. -/
def storeFill (store : BackingStore) (data : List UInt8) (offset : Nat) : List UInt8 :=
  data.overwrite 0 (store.bytes.segment offset data.length)

/-- `commitLine` of the backing store, at an offset inside it. -/
def storeCommit (store : BackingStore) (data : List UInt8) (offset : Nat) : BackingStore :=
  { bytes := store.bytes.overwrite offset data, past := store.bytes :: store.past }

/-- The variables of the loop of `cache_next`. -/
structure CacheScan where
  found : Bool
  freeIndex : Nat
  oldestIndex : Nat
  oldestClock : Int

/-- The loop of `cache_next` after the first `i` lines. -/
def cacheScan (c : Cache) (now : Int) : Nat → CacheScan
  | 0 => ⟨false, 0, 0, now⟩
  | i + 1 =>
    let s := cacheScan c now i
    match c.line[i]? with
    | none => s
    | some l =>
      if l.valid = false then { s with freeIndex := i, found := true }
      else if l.locked = false ∧ l.age < s.oldestClock then
        { s with oldestClock := l.age, oldestIndex := i }
      else s

variable (a : Arch) (clock : Nat → Int)

/-- `cache_next`. When no line is free it goes on with `line[i]`, and the loop has left `i` at
`numLines`. -/
def cacheNext (m : CacheMem) : Except Fault (CacheMem × Nat) := do
  let s := cacheScan m.cache (clock m.ticks) m.cache.line.length
  let m := { m with ticks := m.ticks + 1 }
  if s.found then return (m, s.freeIndex)
  else
    let i := m.cache.line.length
    let l ← cacheLine m.cache i
    let store :=
      match m.cache.policy with
      | .writeBack => storeCommit m.store l.data l.startOffset
      | .writeThrough => m.store
    return ({ m with cache := m.cache.setLine i { l with valid := false }, store := store },
      s.oldestIndex)

/-- The `size` of one round of the loops of `cache_read` and `cache_write`. -/
def cacheChunk (c : Cache) (len offset : Nat) : Nat :=
  if len < c.lineSize then len else c.lineSize - offset % c.lineSize

/-- One round of the loop of `cache_read`, with the bytes it copies. -/
def cacheReadChunk (m : CacheMem) (len offset : Nat) : Except Fault (CacheMem × List UInt8) := do
  let intraOffset := offset % m.cache.lineSize
  let size := cacheChunk m.cache len offset
  let (m, index) ←
    match cacheIndex m.cache offset with
    | some index => pure (m, index)
    | none => do
      let (m, index) ← cacheNext clock m
      let l ← cacheLine m.cache index
      let data := storeFill m.store l.data (cacheRoundOffset m.cache offset)
      pure ({ m with cache := m.cache.setLine index { l with data := data } }, index)
  let l ← cacheLine m.cache index
  if intraOffset + size ≤ l.data.length then
    return (m, l.data.segment intraOffset size)
  else
    .error .outOfBounds

/-- The loop of `cache_read`. The first argument bounds its rounds. -/
def cacheReadLoop : Nat → CacheMem → Nat → Nat → Except Fault (CacheMem × List UInt8)
  | 0, _, _, _ => .error .noReturn
  | fuel + 1, m, len, offset => do
    let size := cacheChunk m.cache len offset
    let (m, bytes) ← cacheReadChunk clock m len offset
    if len - size > 0 then
      let (m, rest) ← cacheReadLoop fuel m (len - size) (a.add offset size)
      return (m, bytes ++ rest)
    else
      return (m, bytes)

/-- `cache_read`: the bytes stored to `data`. It returns their number. -/
def cacheRead (m : CacheMem) (len offset : Nat) : Except Fault (CacheMem × List UInt8) :=
  cacheReadLoop a clock (len + 1) m len offset

/-- One round of the loop of `cache_write`. -/
def cacheWriteChunk (m : CacheMem) (data : List UInt8) (offset : Nat) :
    Except Fault CacheMem := do
  let intraOffset := offset % m.cache.lineSize
  let size := cacheChunk m.cache data.length offset
  let (m, index, l) ←
    match cacheIndex m.cache offset with
    | some index => do
      let l ← cacheLine m.cache index
      pure (m, index, l)
    | none => do
      let (m, index) ← cacheNext clock m
      let l ← cacheLine m.cache index
      let start := cacheRoundOffset m.cache offset
      pure (m, index, { l with startOffset := start, endOffset := a.add start m.cache.lineSize })
  if intraOffset + size ≤ l.data.length then
    let l := { l with
      data := l.data.overwrite intraOffset (data.take size)
      valid := true
      age := clock m.ticks }
    let store :=
      match m.cache.policy with
      | .writeThrough => storeCommit m.store l.data l.startOffset
      | .writeBack => m.store
    return { cache := m.cache.setLine index l, store := store, ticks := m.ticks + 1 }
  else
    .error .outOfBounds

/-- The loop of `cache_write`. The first argument bounds its rounds. -/
def cacheWriteLoop : Nat → CacheMem → List UInt8 → Nat → Except Fault CacheMem
  | 0, _, _, _ => .error .noReturn
  | fuel + 1, m, data, offset => do
    let size := cacheChunk m.cache data.length offset
    let m ← cacheWriteChunk a clock m data offset
    if data.length - size > 0 then
      cacheWriteLoop fuel m (data.drop size) (a.add offset size)
    else
      return m

/-- `cache_write`. It returns the number of bytes of `data`. -/
def cacheWrite (m : CacheMem) (data : List UInt8) (offset : Nat) : Except Fault CacheMem :=
  cacheWriteLoop a clock (data.length + 1) m data offset

/-- The loop of `cache_flush`: the lines it leaves, and the store. -/
def cacheFlushLines : List CacheLine → BackingStore → List CacheLine × BackingStore
  | [], store => ([], store)
  | l :: ls, store =>
    if l.valid then
      let (ls, store) := cacheFlushLines ls (storeCommit store l.data l.startOffset)
      ({ l with age := 0, valid := false } :: ls, store)
    else
      let (ls, store) := cacheFlushLines ls store
      (l :: ls, store)

/-- `cache_flush`. -/
def cacheFlush (m : CacheMem) : CacheMem :=
  let (ls, store) := cacheFlushLines m.cache.line m.store
  { m with cache := { m.cache with line := ls }, store := store }

/-- The calls of a run. -/
inductive CacheOp where
  | read (len offset : Nat)
  | write (data : List UInt8) (offset : Nat)
  | flush
  deriving DecidableEq, Repr

/-- One call. It answers the bytes `cache_read` stored. -/
def cacheStep (m : CacheMem) : CacheOp → Except Fault (CacheMem × List UInt8)
  | .read len offset => cacheRead a clock m len offset
  | .write data offset => do
    let m ← cacheWrite a clock m data offset
    return (m, [])
  | .flush => .ok (cacheFlush m, [])

end DVP.Sosal
