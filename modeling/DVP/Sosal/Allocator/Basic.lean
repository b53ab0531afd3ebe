import DVP.Sosal.Types
import Mathlib.Logic.Function.Basic

/-!
# Virtual memory of the allocator

`allocator_calloc` of `source/sosal/allocator.c` for memory of type `VIRTUAL`. It gets one block for
each pointer, from a call of the system that differs between the builds. What the system answers is
given as a function of the pointer, so that any block may be refused. The state holds the arrays the
caller passed, and a record of the calls of `free` and of the bytes of the blocks.
-/

namespace DVP.Sosal

/-- The builds, by the call that gets the memory: `memalign`, `posix_memalign` and `calloc`. -/
inductive AllocatorBuild where
  /-- `ANDROID`. -/
  | android
  /-- `__QNX__` or `LINUX`. -/
  | posix
  | plain
  deriving DecidableEq, Repr

/-- What the system answers: an address, which is zero for `NULL`, or an error. -/
inductive MemAnswer where
  | address (ptr : Nat)
  | enomem
  | einval
  deriving DecidableEq, Repr

/-- The pointer the caller of the system has. -/
def MemAnswer.pointer : MemAnswer → Nat
  | .address ptr => ptr
  | .enomem => 0
  | .einval => 0

/-- `SOSAL_PAGE_SIZE`. -/
def sosalPageSize : Nat := 4096

/-- `allocator_page_align_size`. -/
def allocatorPageAlignSize (a : Arch) (size : Nat) : Nat :=
  let rem := size &&& (sosalPageSize - 1)
  if 0 < rem then a.add size (sosalPageSize - rem) else size

/-- The arguments of `allocator_calloc`, the pointers as addresses, and the array at `dims`. Each
entry of it has `SOSAL_ALLOCATOR_MAX_DIMS` dimensions. -/
structure CallocArgs where
  alloc : Nat
  nptrs : Int
  ndims : Int
  dims : Nat
  ptrs : Nat
  dimsAt : Nat → Nat → BitVec 32

/-- The arrays at `ptrs` and `strides`, the arguments of the calls of `free`, and the bytes of the
block of each pointer. -/
structure Calloc where
  ptrs : Nat → Nat
  strides : Nat → Nat → BitVec 32
  freed : List Nat
  granted : Nat → Nat

/-- The loop over the dimensions: `size` after them, and the strides of the pointer. -/
def dimensionLoop (dims : Nat → BitVec 32) (ndims : Nat) (strides : Nat → BitVec 32) :
    BitVec 32 × (Nat → BitVec 32) :=
  (List.range ndims).foldl
    (fun s n => (s.1 * dims n, Function.update s.2 n (s.1 * dims n))) (1, strides)

/-- `rsize`. -/
def virtualRsize (a : Arch) (size : BitVec 32) : BitVec 32 :=
  BitVec.ofNat 32 (allocatorPageAlignSize a size.toNat)

namespace Calloc

/-- `free(ptrs[p]); ptrs[p] = NULL`. -/
def free (s : Calloc) (p : Nat) : Calloc :=
  { s with freed := s.freed ++ [s.ptrs p], ptrs := Function.update s.ptrs p 0 }

/-- `for (p = p-1; p > -1; p--)`: the blocks before a pointer are freed. -/
def unwind : Nat → Calloc → Calloc
  | 0, s => s
  | p + 1, s => unwind p (s.free p)

/-- A block of a number of bytes was asked for, and this was the answer. -/
def receive (s : Calloc) (p bytes ptr : Nat) : Calloc :=
  { s with ptrs := Function.update s.ptrs p ptr, granted := Function.update s.granted p bytes }

end Calloc

/-- A round of the loop over the pointers. It ends the loop with an error. -/
def virtualRound (a : Arch) (build : AllocatorBuild) (answer : Nat → MemAnswer) (args : CallocArgs)
    (s : Calloc) (p : Nat) : Except Calloc Calloc :=
  let (size, strides) := dimensionLoop (args.dimsAt p) args.ndims.toNat (s.strides p)
  let s := { s with strides := Function.update s.strides p strides }
  let rsize := virtualRsize a size
  match build, answer p with
  | .posix, .enomem => .error { s with ptrs := Function.update s.ptrs p 0 }
  | .posix, .einval => .error { s with ptrs := Function.update s.ptrs p 0 }
  | _, r =>
    let s := s.receive p (if build = .plain then size.toNat else rsize.toNat) r.pointer
    if s.ptrs p = 0 then .error (s.unwind p) else .ok s

/-- The loop over the pointers, from one of them on, with what is returned. -/
def virtualLoop (a : Arch) (build : AllocatorBuild) (answer : Nat → MemAnswer) (args : CallocArgs) :
    Nat → Nat → Calloc → Bool × Calloc
  | 0, _, s => (true, s)
  | left + 1, p, s =>
    match virtualRound a build answer args s p with
    | .ok s => virtualLoop a build answer args left (p + 1) s
    | .error s => (false, s)

/-- `allocator_calloc` of `ALLOCATOR_MEMORY_TYPE_VIRTUAL`. -/
def allocatorCalloc (a : Arch) (build : AllocatorBuild) (answer : Nat → MemAnswer)
    (args : CallocArgs) (s : Calloc) : Bool × Calloc :=
  if args.alloc = 0 ∨ args.nptrs ≤ 0 ∨ args.ndims ≤ 0 ∨ args.dims = 0 ∨ args.ptrs = 0 then
    (false, s)
  else virtualLoop a build answer args args.nptrs.toNat 0 s

end DVP.Sosal
