import DVP.Sosal.List.Basic

/-!
# The heap

The allocator of `source/sosal/heap.c`: a table of block descriptors and a table of list nodes in
front of a data region, and three lists of nodes. A pointer to a node or to a descriptor is its
index in its table, an address is a number, and `NULL` is `none` or `0`. What the data region
holds is left out: the heap never reads it.
-/

namespace DVP.Sosal

/-- `block_t`. -/
structure Block where
  size : Nat
  data : Nat
  deriving DecidableEq, Repr

/-- A node of the heap: its data is a pointer to a block. -/
abbrev HeapNodes := NodeMem (Option Nat)

/-- The table of blocks. -/
abbrev BlockMem := Nat → Option Block

/-- `heap_t`. The tables are at the addresses `blocksAt` and `nodesAt`. -/
structure Heap where
  raw : Nat
  used : LinkedList
  free : LinkedList
  spare : LinkedList
  blocksAt : Nat
  nodesAt : Nat
  blocks : BlockMem
  nodes : HeapNodes
  data : Nat
  maxBlocks : Nat
  align : Nat
  bytesUsed : Nat
  bytesFree : Nat
  bytesTotal : Nat
  cleanPolicy : Bool
  coalescePolicy : Bool

/-- `ptr_is_aligned`. -/
def ptrIsAligned (ptr align : Nat) : Bool := decide (ptr % align = 0)

/-- `MAX_SCORE`. -/
def maxScore : Nat := 2 ^ 32 - 1

/-- The block a pointer leads to. -/
def readBlock (blocks : BlockMem) : Option Nat → Except Fault Block
  | none => .error .nullPointer
  | some i =>
    match blocks i with
    | none => .error .badPointer
    | some b => .ok b

/-- The block of a node, `(block_t *)p->data`. -/
def nodeBlock (blocks : BlockMem) (m : HeapNodes) (p : Ptr) : Except Fault Block := do
  let n ← m.read (some p)
  readBlock blocks n.data

/-- `block_compare_ptr` of two blocks. -/
def compareAddr (a b : Nat) : Int := if a < b then -1 else if a = b then 0 else 1

/-- `block_compare_ptr`. -/
def blockComparePtr (blocks : BlockMem) : NodeCompare (Option Nat)
  | _, _, none => .ok 0
  | m, a, some b => do
    let blockA ← nodeBlock blocks m a
    let blockB ← nodeBlock blocks m b
    return compareAddr blockA.data blockB.data

/-- `block_compare_ptr` with the node of `block_find_and_remove`, whose block has the address
searched for. -/
def blockMatchPtr (blocks : BlockMem) : NodeMatch (Option Nat) Nat := fun m a ptr => do
  let blockA ← nodeBlock blocks m a
  return compareAddr blockA.data ptr

variable (a : Arch)

/-- `block_size`. -/
def blockSize (align desired : Nat) : Nat :=
  let remainder := desired % align
  if remainder ≠ 0 then a.add desired (align - remainder) else desired

/-- `block_is_adjacent`. -/
def blockIsAdjacent (blocks : BlockMem) : Option Nat → Option Nat → Except Fault Bool
  | none, _ => .ok false
  | some _, none => .ok false
  | some x, some y => do
    let blockX ← readBlock blocks (some x)
    let blockY ← readBlock blocks (some y)
    return decide (a.add blockX.data blockX.size = blockY.data)

/-- The rating of a block of `this` bytes for a request of `size`. It is a `uint32_t`. -/
def scoreBestfit (this size : Nat) : Nat :=
  if this = size then maxScore
  -- the closer the size, the higher the score; a block that is too small has none
  else if this > size then a.sub maxScore (this - size) % 2 ^ 32
  else 0

/-- `block_rate_bestfit` against the node of `block_bestfit_and_remove`. -/
def blockRateBestfit (blocks : BlockMem) (size : Nat) (m : HeapNodes) (p : Ptr) :
    Except Fault Nat := do
  let thisBlock ← nodeBlock blocks m p
  return scoreBestfit a thisBlock.size size

/-- Why `heap_alloc` returned `NULL`. -/
inductive AllocFailure where
  | noHeap
  | noBytes
  | fewBytesFree
  | noFit
  | noBlock
  | notEnoughSpareNodes
  deriving DecidableEq, Repr

/-- What `heap_alloc` returned. -/
inductive AllocResult where
  | ptr (address : Nat)
  | null (why : AllocFailure)
  deriving DecidableEq, Repr

/-- The heap with a block written. -/
def Heap.setBlock (h : Heap) (i : Nat) (b : Block) : Heap :=
  { h with blocks := Function.update h.blocks i (some b) }

/-- `block_bestfit_and_remove` on the free list: the heap, and the node and the block found. -/
def blockBestfitAndRemove (h : Heap) (size : Nat) :
    Except Fault (Heap × Option (Ptr × Option Nat)) := do
  match ← listScore h.nodes h.free (blockRateBestfit a h.blocks size) with
  | none => return (h, none)
  | some found => do
    let (nodes, free, node) ← listExtract h.nodes h.free (some found)
    let h := { h with nodes := nodes, free := free }
    let n ← h.nodes.read node
    return (h, node.map fun node => (node, n.data))

/-- The part of `heap_alloc` that gives the bytes of the block that are too many to a spare one
and to the free list. It tells whether there was a spare node; if not, the node is back on the
free list. -/
def heapFracture (h : Heap) (node : Ptr) (block numBytes : Nat) : Except Fault (Heap × Bool) := do
  let b ← readBlock h.blocks (some block)
  if b.size > numBytes then
    let (nodes, spare, spareNode) ← listPop h.nodes h.spare
    let h := { h with nodes := nodes, spare := spare }
    match spareNode with
    | none => do
      let (nodes, free, _) ← listInsert h.nodes h.free node (blockComparePtr h.blocks) true
      return ({ h with nodes := nodes, free := free }, false)
    | some spareNode => do
      let s ← h.nodes.read (some spareNode)
      match s.data with
      | none => .error .nullPointer
      | some spareBlock => do
        let h := h.setBlock spareBlock ⟨a.sub b.size numBytes, a.add b.data numBytes⟩
        -- the size of the spare block is set before the one of the block changes
        let b ← readBlock h.blocks (some block)
        let h := h.setBlock block { b with size := numBytes }
        let (nodes, free, _) ← listInsert h.nodes h.free spareNode (blockComparePtr h.blocks) true
        return ({ h with nodes := nodes, free := free }, true)
  else
    return (h, true)

/-- `heap_alloc`. -/
def heapAlloc (h : Heap) (numBytes : Nat) : Except Fault (Heap × AllocResult) :=
  if h.raw = 0 then .ok (h, .null .noHeap)
  else if numBytes = 0 then .ok (h, .null .noBytes)
  else
    let numBytes := blockSize a h.align numBytes
    if h.bytesFree < numBytes then .ok (h, .null .fewBytesFree)
    else do
      match ← blockBestfitAndRemove a h numBytes with
      | (h, none) => return (h, .null .noFit)
      | (h, some (_, none)) => return (h, .null .noBlock)
      | (h, some (node, some block)) => do
        -- the node is on no list here: it goes to the used list, or back to the free one
        match ← heapFracture a h node block numBytes with
        | (h, false) => return (h, .null .notEnoughSpareNodes)
        | (h, true) => do
          let (nodes, used, _) ← listInsert h.nodes h.used node (blockComparePtr h.blocks) true
          let h := { h with
            nodes := nodes
            used := used
            bytesFree := a.sub h.bytesFree numBytes
            bytesUsed := a.add h.bytesUsed numBytes }
          let b ← readBlock h.blocks (some block)
          return (h, .ptr b.data)

/-- `node_clear`. -/
def nodeClear (m : HeapNodes) (node : Ptr) : Except Fault HeapNodes := do
  let m ← m.setPrev node none
  let m ← m.setNext node none
  m.setData node none

/-- The part of `heap_free` that merges the block of `node` into the node before it. -/
def heapCoalescePrev (h : Heap) (node prevNode : Ptr) (block prevBlock : Nat) :
    Except Fault Heap := do
  let b ← readBlock h.blocks (some block)
  let pb ← readBlock h.blocks (some prevBlock)
  let h := h.setBlock block ⟨a.add b.size pb.size, pb.data⟩
  let h := h.setBlock prevBlock ⟨0, 0⟩
  -- the node before it keeps its place in the list and takes the block over
  let nodes ← h.nodes.setData prevNode (some block)
  let next := (← nodes.read (some node)).next
  let nodes ← nodes.setNext prevNode next
  let nodes ←
    match next with
    | some next => nodes.setPrev next (some prevNode)
    | none => pure nodes
  let nodes ← nodeClear nodes node
  return { h with nodes := nodes }

/-- The part of `heap_free` that merges the node after it into the block of `node`. -/
def heapCoalesceNext (h : Heap) (node nextNode : Ptr) (block nextBlock : Nat) :
    Except Fault Heap := do
  let b ← readBlock h.blocks (some block)
  let nb ← readBlock h.blocks (some nextBlock)
  let h := h.setBlock block { b with size := a.add b.size nb.size }
  let h := h.setBlock nextBlock ⟨0, 0⟩
  let next := (← h.nodes.read (some nextNode)).next
  let nodes ← h.nodes.setNext node next
  let nodes ←
    match next with
    | some next => nodes.setPrev next (some node)
    | none => pure nodes
  let nodes ← nodeClear nodes nextNode
  return { h with nodes := nodes }

/-- The data of a node that may be `NULL`. -/
def readData (m : HeapNodes) : Option Ptr → Except Fault (Option Nat)
  | none => .ok none
  | some p => do
    let n ← m.read (some p)
    return n.data

/-- The coalescing of `heap_free`. -/
def heapCoalesce (h : Heap) (node : Ptr) (block : Nat) : Except Fault Heap := do
  let n ← h.nodes.read (some node)
  let prevBlock ← readData h.nodes n.prev
  let nextBlock ← readData h.nodes n.next
  -- the source merges with one neighbour, and looks at the next one only if the first is apart
  match n.prev, prevBlock, ← blockIsAdjacent a h.blocks prevBlock (some block) with
  | some prevNode, some prevBlock, true => heapCoalescePrev a h node prevNode block prevBlock
  | _, _, _ =>
    match n.next, nextBlock, ← blockIsAdjacent a h.blocks (some block) nextBlock with
    | some nextNode, some nextBlock, true => heapCoalesceNext a h node nextNode block nextBlock
    | _, _, _ => return h

/-- `heap_free`. -/
def heapFree (h : Heap) (pointer : Nat) : Except Fault (Heap × Bool) :=
  if pointer = 0 then .ok (h, false)
  else if h.raw = 0 then .ok (h, false)
  else if ptrIsAligned pointer h.align = false then .ok (h, false)
  else do
    match ← listRemoveMatch h.nodes h.used pointer (blockMatchPtr h.blocks) with
    | (nodes, used, none) => return ({ h with nodes := nodes, used := used }, false)
    | (nodes, used, some node) => do
      let h := { h with nodes := nodes, used := used }
      let n ← h.nodes.read (some node)
      let b ← readBlock h.blocks n.data
      -- the node is off the used list already when this test fails
      if pointer ≠ b.data then return (h, false)
      else
        match n.data with
        | none => .error .nullPointer
        | some block => do
          let (nodes, free, _) ← listInsert h.nodes h.free node (blockComparePtr h.blocks) true
          let h := { h with
            nodes := nodes
            free := free
            bytesUsed := a.sub h.bytesUsed b.size
            bytesFree := a.add h.bytesFree b.size }
          if h.coalescePolicy then
            let h ← heapCoalesce a h node block
            return (h, true)
          else
            return (h, true)

/-! ## Initialization -/

/-- `sizeof(block_t)` and `sizeof(node_t)`. -/
def sizeofBlock : Nat := 2 * a.ptrSize

def sizeofNode : Nat := 3 * a.ptrSize

/-- The `bookkeeping` of `heap_calc_overhead`. -/
def bookkeeping : Nat := sizeofNode a + sizeofBlock a

/-- The loop of `heap_calc_overhead`. The first number bounds its rounds. -/
def heapCalcLoop : Nat → Heap → Nat → Except Fault (Heap × Bool)
  | 0, _, _ => .error .noReturn
  | fuel + 1, h, num =>
    let overhead := a.mul num (bookkeeping a)
    let data := a.mul num h.align
    let pad := a.sub (a.sub h.bytesTotal data) overhead
    if h.bytesTotal ≥ a.add (a.add pad data) overhead then
      let h := { h with
        blocksAt := h.raw
        nodesAt := a.add h.raw (a.mul num (sizeofBlock a))
        data := a.add h.raw overhead
        bytesUsed := 0
        bytesFree := data
        maxBlocks := num }
      if ptrIsAligned h.data h.align = false then
        let offset := h.align - h.data % h.align
        if offset > pad then
          -- the condition of the loop is tested with the whole buffer as `pad`
          let num := a.sub num 1
          let pad := h.bytesTotal
          if h.bytesTotal < a.add (a.add pad data) overhead then heapCalcLoop fuel h num
          else .ok (h, true)
        else .ok ({ h with data := a.add h.data offset }, true)
      else if h.bytesTotal < a.add (a.add pad data) overhead then heapCalcLoop fuel h num
      else .ok (h, true)
    else heapCalcLoop fuel h (a.sub num 1)

/-- `heap_calc_overhead`, with the `overhead` that its floating-point ratio gives. -/
def heapCalcOverhead (estimate : Nat) (h : Heap) : Except Fault (Heap × Bool) :=
  let num := estimate / bookkeeping a
  if num = 0 then .ok (h, false) else heapCalcLoop a (a.size + 1) h num

/-- The nodes of the spare list, each with its block, as `heap_init` links them. -/
def spareNodes (maxBlocks : Nat) : HeapNodes :=
  { size := maxBlocks
    node := fun i =>
      if i < maxBlocks then
        some
          { next := if i < maxBlocks - 1 then some (i + 1) else none
            prev := if i > 0 then some (i - 1) else none
            data := some i }
      else none }

/-- The spare list of `heap_init`. -/
def spareList (maxBlocks : Nat) : LinkedList :=
  if maxBlocks = 0 then ⟨none, none⟩ else ⟨some 0, some (maxBlocks - 1)⟩

/-- The heap when `heap_init` has set it to zeros and noted its arguments. -/
def heapRaw (buffer size align : Nat) : Heap where
  raw := buffer
  used := ⟨none, none⟩
  free := ⟨none, none⟩
  spare := ⟨none, none⟩
  blocksAt := 0
  nodesAt := 0
  blocks := fun _ => none
  nodes := ⟨0, fun _ => none⟩
  data := 0
  maxBlocks := 0
  align := align
  bytesUsed := 0
  bytesFree := 0
  bytesTotal := size
  cleanPolicy := true
  coalescePolicy := true

/-- `heap_init`, with the `overhead` that the floating-point ratio of `heap_calc_overhead` gives.
The index of the loop over the spare nodes is a `uint32_t`. -/
def heapInit (estimate buffer size p2align : Nat) : Except Fault (Heap × Bool) :=
  let p2align := if p2align > 12 then 12 else p2align
  let p2align := if p2align < 5 then 5 else p2align
  let h := heapRaw buffer size (2 ^ p2align)
  if buffer = 0 then .ok (h, false)
  else if ptrIsAligned buffer 4 = false then .ok (h, false)
  else do
    let (h, ok) ← heapCalcOverhead a estimate h
    if ok = false then return (h, false)
    -- a `uint32_t` never gets to `max_blocks`, and the loop does not end
    else if h.maxBlocks ≥ 2 ^ 32 then .error .noReturn
    else do
      let h := { h with
        spare := spareList h.maxBlocks
        nodes := spareNodes h.maxBlocks
        blocks := fun i => if i < h.maxBlocks then some ⟨0, 0⟩ else none }
      let (nodes, spare, firstNode) ← listPop h.nodes h.spare
      let h := { h with nodes := nodes, spare := spare }
      match firstNode with
      | none => .error .nullPointer
      | some firstNode => do
        let n ← h.nodes.read (some firstNode)
        match n.data with
        | none => .error .nullPointer
        | some firstBlock => do
          let h := h.setBlock firstBlock ⟨h.bytesFree, h.data⟩
          let (nodes, free) ← listPush h.nodes h.free firstNode
          return ({ h with nodes := nodes, free := free }, true)

/-- The calls of a run. -/
inductive HeapOp where
  | alloc (numBytes : Nat)
  | free (pointer : Nat)
  deriving DecidableEq, Repr

/-- What a call returned. -/
inductive HeapAnswer where
  | alloc (r : AllocResult)
  | free (r : Bool)
  deriving DecidableEq, Repr

/-- One call. -/
def heapStep (h : Heap) : HeapOp → Except Fault (Heap × HeapAnswer)
  | .alloc numBytes => do
    let (h, r) ← heapAlloc a h numBytes
    return (h, .alloc r)
  | .free pointer => do
    let (h, r) ← heapFree a h pointer
    return (h, .free r)

end DVP.Sosal
