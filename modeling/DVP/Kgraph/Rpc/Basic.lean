import DVP.Sosal.Btreelist.Basic
import DVP.Sosal.Fph.Basic

/-!
# The remote-memory registry

The part of `source/dvp/dvp_kgraph/dvp_rpc_omaprpc.c` that remembers the handle and the range of a
buffer: a fixed-pointer hash from base addresses to handles, and a list with a search tree of the
address ranges. The pointers `rpc` and `mem` are not `NULL`. Registering the buffer with the remote
cores touches neither structure and is left out. A call that allocates is told which address
`calloc` returns, and whether it has memory for the array of the list.
-/

namespace DVP.Kgraph

open DVP.Sosal

/-- `DVP_MemType_e`. -/
inductive MemType where
  | mpucachedVirtual
  | mpucached1dtiled
  | mpunoncached1dtiled
  | mpunoncached2dtiled
  | display2dtiled
  | gralloc2dtiled
  | mpucachedVirtualShared
  | camera1dtiled
  deriving DecidableEq, Repr

/-- The macros the build defines. -/
structure Build where
  useIon : Bool
  useBo : Bool
  useGralloc : Bool
  useCameraService : Bool
  deriving DecidableEq, Repr

/-- The memory types the `switch` of `dvp_rpc_associate` and of `dvp_rpc_dissociate` has a case
for. -/
def Build.supports (b : Build) : MemType → Bool
  | .mpucached1dtiled | .mpunoncached1dtiled | .mpunoncached2dtiled => b.useIon || b.useBo
  | .gralloc2dtiled | .display2dtiled => b.useGralloc
  | .mpucachedVirtualShared => true
  | .camera1dtiled => b.useCameraService
  | .mpucachedVirtual => false

/-- `DVP_Memory_Range_t`, without its node. -/
structure MemRange where
  base : Nat
  end_ : Nat
  deriving DecidableEq, Repr

/-- `dvp_mem_range_sort`. -/
def dvpMemRangeSort (r s : MemRange) : Int :=
  if s.end_ ≤ r.base then -1 else if r.end_ ≤ s.base then 1 else 0

/-- `dvp_mem_range_compare`. -/
def dvpMemRangeCompare (r : MemRange) (value : Nat) : Int :=
  if r.base ≤ value ∧ value < r.end_ then 0 else if value < r.base then -1 else 1

/-- The fields of `DVP_RPC_t` that remember buffers, and the memory of the ranges. -/
structure Rpc where
  hndlHash : Fph
  ranges : Btreelist MemRange Nat
  nodes : BtreeMem MemRange

/-- `DVP_RPC_NUM_BLOCKS`. -/
def dvpRpcNumBlocks : Nat := 64

/-- `DVP_RPC_BLOCK_SIZE`. -/
def dvpRpcBlockSize : Nat := 64

variable (a : Arch) (b : Build)

/-- `dvp_rpc_init`, when its allocations succeed. -/
def dvpRpcInit (nodes : BtreeMem MemRange) : Rpc where
  hndlHash := fphInit a dvpRpcNumBlocks dvpRpcBlockSize none
  ranges := btreelistCreate dvpMemRangeCompare dvpMemRangeSort
  nodes := nodes

/-- `dvp_rpc_get_handle`. An object a handle leads to has a `dmabuf_fd`. -/
def dvpRpcGetHandle (dmabufFd : Nat → Nat) (rpc : Rpc) (ptr : Nat) : Except Fault Nat :=
  if ptr = 0 then .ok 0
  else do
    let mrange ← btreelistFind rpc.nodes rpc.ranges ptr
    let ptr ←
      match mrange with
      | none => pure ptr
      | some node => do pure (← rpc.nodes.read (some node)).data.value.base
    let (found, handle) ← fphGet a rpc.hndlHash ptr
    return if found ≠ 0 then
        if b.useBo then dmabufFd handle else if b.useIon then handle else 0
      else 0

/-- `free` of a range. -/
def freeRange (nodes : BtreeMem MemRange) : Option Ptr → Except Fault (BtreeMem MemRange)
  | none => .ok nodes
  | some mrange => do
    let (nodes, _) ← nodeDestroy nodes mrange
    return nodes

/-- `dvp_rpc_dissociate`: what it returns, and the handle it stores, if it does. -/
def dvpRpcDissociate (rpc : Rpc) (ptr size : Nat) (mtype : MemType) (alloc : Bool) :
    Except Fault (Rpc × Bool × Option Nat) :=
  if ptr = 0 ∨ size = 0 then .ok (rpc, false, none)
  else if b.supports mtype = false then .ok (rpc, false, none)
  else do
    let (found, handle) ← fphGet a rpc.hndlHash ptr
    if found ≠ 0 then do
      let (_, hndlHash) ← fphSet a rpc.hndlHash ptr 0
      let (nodes, ranges, mrange) ← btreelistRemove alloc rpc.nodes rpc.ranges ptr
      let nodes ← freeRange nodes mrange
      return (⟨hndlHash, ranges, nodes⟩, true, some handle)
    else return (rpc, false, some handle)

/-- The range `dvp_rpc_associate` makes, of two `uint32_t`. -/
def memRangeOf (ptr size : Nat) : MemRange := ⟨wrap32 ptr, wrap32 (wrap32 ptr + wrap32 size)⟩

/-- The memory after the `calloc` of a range, which returns `mrange`. -/
def callocRange (nodes : BtreeMem MemRange) (r : MemRange) : Option Ptr → BtreeMem MemRange
  | none => nodes
  | some mrange => nodeCreate nodes mrange ⟨none, none, r⟩

/-- `dvp_rpc_associate`, when the `calloc` of the range returns `mrange`. The first `Bool` is for
the array made when the range is added, the second one for that made when it is removed again. -/
def dvpRpcAssociate (rpc : Rpc) (ptr handle size : Nat) (mtype : MemType) (mrange : Option Ptr)
    (alloc alloc' : Bool) : Except Fault (Rpc × Bool) :=
  if ptr = 0 ∨ size = 0 then .ok (rpc, false)
  else if b.supports mtype = false then .ok (rpc, false)
  else do
    let nodes := callocRange rpc.nodes (memRangeOf ptr size) mrange
    let (nodes, ranges) ← btreelistAdd alloc nodes rpc.ranges mrange
    let (stored, hndlHash) ← fphSet a rpc.hndlHash ptr handle
    if stored = 0 then do
      let (nodes, ranges, mrange) ← btreelistRemove alloc' nodes ranges ptr
      let nodes ← freeRange nodes mrange
      return (⟨hndlHash, ranges, nodes⟩, true)
    else return (⟨hndlHash, ranges, nodes⟩, true)

end DVP.Kgraph
