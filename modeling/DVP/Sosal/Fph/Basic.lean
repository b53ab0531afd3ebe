import DVP.Sosal.Types

/-!
# The fixed-pointer hash

The hash of `source/sosal/fph.c`, built with `FPH_METRICS` and without `FPH_OPTIMIZED`: an array
of blocks of slots, each key probed for in the block its key function names. Pointers are
numbers and `NULL` is `0`.
-/

namespace DVP.Sosal

/-- `fph_kv_t`. -/
structure FphKv where
  key : Nat
  value : Nat
  deriving DecidableEq, Repr

/-- The `uint32_t` counters of a hash. -/
structure FphMetrics where
  collisions : List Nat
  length : List Nat
  numReplacements : Nat
  numPtrs : Nat
  numMisses : Nat
  deriving DecidableEq, Repr

/-- `fph_t`. The key function is given its hash, whose sizes do not change. -/
structure Fph where
  hash : List FphKv
  blockSize : Nat
  numBlocks : Nat
  numElem : Nat
  keyFunc : Nat → Nat
  metrics : FphMetrics

/-- `uint32_t` conversion. -/
def wrap32 (n : Nat) : Nat := n % 2 ^ 32

/-- `x++` of a `uint32_t`. -/
def inc32 (n : Nat) : Nat := wrap32 (n + 1)

/-- `x--` of a `uint32_t`. -/
def dec32 (n : Nat) : Nat := wrap32 (n + (2 ^ 32 - 1))

variable (a : Arch)

/-- `fph_hash`, the key function of a hash made without one. -/
def fphHash (numBlocks blockSize value : Nat) : Nat :=
  a.mul ((value >>> 8) % numBlocks) blockSize

/-- `fph_init`, when its allocations succeed. The size of the slots is asked for in bytes. -/
def fphInit (numBlocks blockSize : Nat) (keyFunc : Option (Nat → Nat)) : Fph :=
  { hash := List.replicate
      (a.mul (a.mul numBlocks blockSize) (2 * a.ptrSize) / (2 * a.ptrSize)) ⟨0, 0⟩
    blockSize := blockSize
    numBlocks := numBlocks
    numElem := a.mul numBlocks blockSize
    keyFunc := keyFunc.getD (fphHash a numBlocks blockSize)
    metrics :=
      { collisions := List.replicate numBlocks 0
        length := List.replicate numBlocks 0
        numReplacements := 0
        numPtrs := 0
        numMisses := 0 } }

/-- The loop `for (i = index; i < bound; i++)` over the slots, up to the first one whose key
makes it `stop`: whether one did, and the `i` the loop is left with. That is a `uint32_t`; the
first number bounds the indexes to look at, and a loop that outlives it comes round for ever. -/
def fphScanFrom (hash : List FphKv) (stop : Nat → Bool) (bound : Nat) :
    Nat → Nat → Except Fault (Bool × Nat)
  | 0, _ => .error .noReturn
  | fuel + 1, i =>
    if i < bound then
      match hash[i]? with
      | none => .error .outOfBounds
      | some kv =>
        if stop kv.key then .ok (true, i) else fphScanFrom hash stop bound fuel (inc32 i)
    else .ok (false, i)

/-- The loop of `fph_get`, `fph_clr` and `fph_set` over the block at `index`. -/
def fphScan (f : Fph) (index : Nat) (stop : Nat → Bool) : Except Fault (Bool × Nat) :=
  fphScanFrom f.hash stop (a.add index f.blockSize) (2 ^ 32 + 1) index

/-- Access to `xs[i]` of one of the counter arrays. -/
def fphCounter (xs : List Nat) (i : Nat) : Except Fault Nat :=
  match xs[i]? with
  | none => .error .outOfBounds
  | some x => .ok x

/-- `fph_get`: the value returned, and the one stored to `*v`. -/
def fphGet (f : Fph) (k : Nat) : Except Fault (Nat × Nat) := do
  let index := wrap32 (f.keyFunc k)
  match ← fphScan a f index (· == k) with
  | (false, _) => return (0, 0)
  | (true, i) =>
    match f.hash[i]? with
    | none => .error .outOfBounds
    | some kv => return (1, kv.value)

/-- The bookkeeping of `fph_clr`. -/
def fphClrMetrics (f : Fph) (block : Nat) : Except Fault FphMetrics := do
  let len ← fphCounter f.metrics.length block
  let col ← fphCounter f.metrics.collisions block
  return { f.metrics with
    collisions := f.metrics.collisions.set block
      (if len > 1 then dec32 col else if len = 1 then 0 else col)
    length := f.metrics.length.set block (dec32 len)
    numPtrs := dec32 f.metrics.numPtrs }

/-- `fph_clr`. -/
def fphClr (f : Fph) (k : Nat) : Except Fault (Nat × Fph) := do
  let index := wrap32 (f.keyFunc k)
  match ← fphScan a f index (· == k) with
  | (false, _) => return (0, f)
  | (true, i) =>
    let metrics ← fphClrMetrics f (index / f.blockSize)
    return (1, { f with hash := f.hash.set i ⟨0, 0⟩, metrics := metrics })

/-- `fph_set`: the first slot of the block that holds `k` or is empty takes the value. -/
def fphSet (f : Fph) (k v : Nat) : Except Fault (Nat × Fph) :=
  if k = 0 then .ok (0, f)
  else do
    let index := wrap32 (f.keyFunc k)
    let block := index / f.blockSize
    match ← fphScan a f index (fun key => key == k || key == 0) with
    | (false, i) =>
      return (0, if i = a.add index f.blockSize then
        { f with metrics.numMisses := inc32 f.metrics.numMisses } else f)
    | (true, i) =>
      match f.hash[i]? with
      | none => .error .outOfBounds
      | some kv =>
        if kv.key = k then
          let col ← fphCounter f.metrics.collisions block
          return (1, { f with
            hash := f.hash.set i ⟨k, v⟩
            metrics.numReplacements := inc32 f.metrics.numReplacements
            metrics.collisions := f.metrics.collisions.set block (inc32 col) })
        else
          let len ← fphCounter f.metrics.length block
          return (1, { f with
            hash := f.hash.set i ⟨k, v⟩
            metrics.length := f.metrics.length.set block (inc32 len)
            metrics.numPtrs := inc32 f.metrics.numPtrs })

end DVP.Sosal
