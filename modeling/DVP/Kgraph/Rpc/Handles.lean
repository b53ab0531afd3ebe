import Mathlib.Data.Finset.Card
import Mathlib.Data.List.Pairwise
import DVP.Lib.Run
import DVP.Kgraph.Rpc.Ranges
import DVP.Sosal.Fph.Packed

/-!
# The handle of an address

The registry as a list of the buffers that are associated: `RpcHolds s` says that the hash has their
handles at their base addresses, and the list has their ranges. The calls keep it
(`RpcHolds.step`), and answer as the list of buffers alone tells (`registry`). So after every run
`dvp_rpc_get_handle` answers with the handle of the buffer that contains the address
(`dvpRpcGetHandle_correct`).
-/

namespace DVP.Kgraph

open DVP.Sosal
open MemRange (Apart)

/-- What `dvp_rpc_associate` is told of a buffer. -/
structure Buffer where
  ptr : Nat
  handle : Nat
  size : Nat
  mtype : MemType
  deriving DecidableEq, Repr

/-- The addresses of the buffer. -/
def Buffer.range (buf : Buffer) : MemRange := ⟨buf.ptr, buf.ptr + buf.size⟩

/-- A call of a run, and what its calls of `calloc` return. -/
inductive RpcOp where
  | associate (buf : Buffer) (mrange : Option Ptr) (alloc alloc' : Bool)
  | dissociate (ptr size : Nat) (mtype : MemType) (alloc : Bool)
  deriving DecidableEq, Repr

/-- The calls of `calloc` of a call have memory. -/
def RpcOp.Allocates : RpcOp → Prop
  | .associate _ mrange alloc _ => mrange ≠ none ∧ alloc = true
  | .dissociate _ _ _ alloc => alloc = true

instance : ∀ o : RpcOp, Decidable o.Allocates
  | .associate _ mrange alloc _ => inferInstanceAs (Decidable (mrange ≠ none ∧ alloc = true))
  | .dissociate _ _ _ alloc => inferInstanceAs (Decidable (alloc = true))

/-- What a registry is for: the buffers that are associated after a call, and what the call answers. A call
with a pointer that is `NULL` or with no bytes is refused, and every other one is not. -/
def registry (live : List Buffer) : RpcOp → List Buffer × Bool
  | .associate buf _ _ _ => if buf.ptr = 0 ∨ buf.size = 0 then (live, false) else (buf :: live, true)
  | .dissociate ptr size _ _ =>
    if ptr = 0 ∨ size = 0 then (live, false) else (live.filter (·.ptr ≠ ptr), true)

/-- A registry in use, and the buffers that are associated: those a call associated and no later
one dissociated. -/
structure RpcUse where
  rpc : Rpc
  live : List Buffer

variable (a : Arch) (b : Build)

/-- One call, which answers what it returns. -/
def rpcStep (s : RpcUse) : RpcOp → Except Fault (RpcUse × Bool)
  | .associate buf mrange alloc alloc' => do
    let (rpc, ret) ←
      dvpRpcAssociate a b s.rpc buf.ptr buf.handle buf.size buf.mtype mrange alloc alloc'
    return (⟨rpc, if ret then buf :: s.live else s.live⟩, ret)
  | .dissociate ptr size mtype alloc => do
    let (rpc, ret, _) ← dvpRpcDissociate a b s.rpc ptr size mtype alloc
    return (⟨rpc, if ret then s.live.filter (·.ptr ≠ ptr) else s.live⟩, ret)

/-- A call with a buffer of 32-bit addresses and of a supported type, that has a handle and is apart
from the associated ones, while the block of its base is not full; or with the base of an associated
buffer. `calloc` returns memory that is not in use. -/
def RpcFits (s : RpcUse) : RpcOp → Prop
  | .associate buf mrange _ _ =>
    (buf.ptr + buf.size < 2 ^ 32 ∧ b.supports buf.mtype = true ∧ buf.handle ≠ 0 ∧
        ∀ other ∈ s.live, other.range.Apart buf.range) ∧
      s.rpc.hndlHash.HasRoom buf.ptr ∧
      ∀ x ∈ mrange, s.rpc.nodes.node x = none ∧ x < s.rpc.nodes.size
  | .dissociate ptr _ mtype _ => b.supports mtype = true ∧ ∃ buf ∈ s.live, buf.ptr = ptr

instance (s : RpcUse) : ∀ o, Decidable (RpcFits b s o)
  | .associate buf mrange _ _ => inferInstanceAs (Decidable
      ((buf.ptr + buf.size < 2 ^ 32 ∧ b.supports buf.mtype = true ∧ buf.handle ≠ 0 ∧
          ∀ other ∈ s.live, other.range.Apart buf.range) ∧
        s.rpc.hndlHash.HasRoom buf.ptr ∧
        ∀ x ∈ mrange, s.rpc.nodes.node x = none ∧ x < s.rpc.nodes.size))
  | .dissociate ptr _ mtype _ => inferInstanceAs
      (Decidable (b.supports mtype = true ∧ ∃ buf ∈ s.live, buf.ptr = ptr))

/-- A buffer whose range can be recorded. -/
structure Buffer.Recordable (buf : Buffer) : Prop where
  ptr_ne : buf.ptr ≠ 0
  size_ne : buf.size ≠ 0
  lt : buf.ptr + buf.size < 2 ^ 32

/-- The hash and the list remember the associated buffers. A base that was dissociated keeps its
slot of the hash, without a handle. -/
structure RpcHolds (s : RpcUse) (map : FphKey → Option Nat) : Prop where
  hash : FphRemembers s.rpc.hndlHash map
  slots : s.rpc.hndlHash.hash.length = dvpRpcNumBlocks * dvpRpcBlockSize
  handles : ∀ buf ∈ s.live, ∀ k : FphKey, k.val = buf.ptr → map k = some buf.handle
  others : ∀ k : FphKey, (∀ buf ∈ s.live, buf.ptr ≠ k) → map k = none ∨ map k = some 0
  ranges : RangesHold s.rpc.nodes s.rpc.ranges (s.live.map Buffer.range)
  recordable : ∀ buf ∈ s.live, buf.Recordable
  apart : s.live.Pairwise fun buf other => buf.range.Apart other.range

variable {a b} {s s' : RpcUse} {map : FphKey → Option Nat} {buf : Buffer} {ptr size : Nat}
  {mtype : MemType}

namespace Buffer.Recordable

theorem valid (h : buf.Recordable) : buf.range.Valid := by
  have hsize := h.size_ne
  change buf.ptr < buf.ptr + buf.size
  omega

/-- A buffer contains its base. -/
theorem contains (h : buf.Recordable) : buf.range.Contains buf.ptr := ⟨le_rfl, h.valid⟩

/-- `dvp_rpc_associate` computes the range without overflow. -/
theorem memRangeOf_eq (h : buf.Recordable) : memRangeOf buf.ptr buf.size = buf.range := by
  have hlt := h.lt
  have hptr : wrap32 buf.ptr = buf.ptr := Nat.mod_eq_of_lt (by omega)
  have hsize : wrap32 buf.size = buf.size := Nat.mod_eq_of_lt (by omega)
  have hend : wrap32 (buf.ptr + buf.size) = buf.ptr + buf.size := Nat.mod_eq_of_lt hlt
  rw [memRangeOf, hptr, hsize, hend]
  rfl

end Buffer.Recordable

/-- Buffers that are apart have different bases. -/
theorem Buffer.ptr_ne_of_apart {other : Buffer} (hbuf : buf.Recordable)
    (hother : other.Recordable) (h : buf.range.Apart other.range) : buf.ptr ≠ other.ptr := by
  intro heq
  apply h.not_contains hbuf.contains
  rw [heq]
  exact hother.contains

namespace RpcHolds

/-- Two associated buffers are apart. -/
theorem apart_of_ne {other : Buffer} (h : RpcHolds s map) (hbuf : buf ∈ s.live)
    (hother : other ∈ s.live) (hne : buf ≠ other) : buf.range.Apart other.range := by
  have hsymm : Std.Symm fun buf other : Buffer => buf.range.Apart other.range :=
    ⟨fun _ _ => Apart.symm⟩
  exact h.apart.forall hbuf hother hne

/-- Two associated buffers have different bases. -/
theorem eq_of_ptr_eq {other : Buffer} (h : RpcHolds s map) (hbuf : buf ∈ s.live)
    (hother : other ∈ s.live) (heq : buf.ptr = other.ptr) : buf = other := by
  by_contra hne
  exact Buffer.ptr_ne_of_apart (h.recordable buf hbuf) (h.recordable other hother)
    (h.apart_of_ne hbuf hother hne) heq

theorem nodup (h : RpcHolds s map) : s.live.Nodup := by
  refine List.Pairwise.imp_of_mem ?_ h.apart
  rintro buf other hbuf hother hapart rfl
  exact Buffer.ptr_ne_of_apart (h.recordable buf hbuf) (h.recordable buf hbuf) hapart rfl

/-- The base of an associated buffer, as a key. -/
theorem handle_eq (h : RpcHolds s map) (hbuf : buf ∈ s.live) :
    map ⟨buf.ptr, (h.recordable buf hbuf).ptr_ne⟩ = some buf.handle :=
  h.handles buf hbuf _ rfl

/-- There are no more buffers than the hash has slots. -/
theorem length_le (h : RpcHolds s map) :
    s.live.length ≤ dvpRpcNumBlocks * dvpRpcBlockSize := by
  have hslot : ∀ buf ∈ s.live, ∃ i, s.rpc.hndlHash.HasKey i buf.ptr :=
    fun buf hbuf => h.hash.hasKey (h.handle_eq hbuf)
  choose! slot hslot using hslot
  rw [← h.slots, ← List.toFinset_card_of_nodup h.nodup,
    ← Finset.card_range s.rpc.hndlHash.hash.length]
  refine Finset.card_le_card_of_injOn slot ?_ ?_
  · intro buf hbuf
    have hlt := (hslot buf (List.mem_toFinset.mp hbuf)).lt_length
    exact Finset.mem_coe.mpr (Finset.mem_range.mpr hlt)
  · intro buf hbuf other hother heq
    have hbuf : buf ∈ s.live := List.mem_toFinset.mp hbuf
    have hother : other ∈ s.live := List.mem_toFinset.mp hother
    have hkey := hslot other hother
    rw [← heq] at hkey
    exact h.eq_of_ptr_eq hbuf hother ((hslot buf hbuf).eq hkey)

/-- The buffers without one of them. -/
theorem perm_filter (h : RpcHolds s map) (hbuf : buf ∈ s.live) :
    s.live.Perm (buf :: s.live.filter (·.ptr ≠ buf.ptr)) := by
  have hfilter : s.live.filter (·.ptr ≠ buf.ptr) = s.live.erase buf := by
    rw [h.nodup.erase_eq_filter]
    refine List.filter_congr fun other hother => ?_
    by_cases heq : other = buf
    · simp [heq]
    · have hne : other.ptr ≠ buf.ptr := fun hptr => heq (h.eq_of_ptr_eq hother hbuf hptr)
      simp [heq, hne]
  rw [hfilter]
  exact List.perm_cons_erase hbuf

/-! ## The answer of `dvp_rpc_get_handle` -/

section Answer

variable {dmabufFd : Nat → Nat} {k : Nat}

/-- What `dvp_rpc_get_handle` makes of what `fph_get` returns and stores. -/
theorem answer_eq (v : Option Nat) :
    (if (fphAnswer v).1 ≠ 0 then (fphAnswer v).2 else 0) = v.getD 0 := by
  cases v <;> rfl

/-- An address in no range is looked up itself. -/
theorem getHandle_of_find_none (hion : b.useIon = true) (hbo : b.useBo = false)
    (h : RpcHolds s map) (key : FphKey)
    (hfind : btreelistFind s.rpc.nodes s.rpc.ranges key = .ok none) :
    dvpRpcGetHandle a b dmabufFd s.rpc key = .ok ((map key).getD 0) := by
  rw [← answer_eq]
  simp [dvpRpcGetHandle, key.property, hfind, h.hash.get_eq key, hion, hbo]

/-- An address in a range is looked up as the base of the range. -/
theorem getHandle_of_find_some (hion : b.useIon = true) (hbo : b.useBo = false)
    (h : RpcHolds s map) (hk : k ≠ 0) (key : FphKey) {p : Ptr} {n : Node (BtreeData MemRange)}
    (hfind : btreelistFind s.rpc.nodes s.rpc.ranges k = .ok (some p))
    (hread : s.rpc.nodes.read (some p) = .ok n) (hbase : n.data.value.base = key) :
    dvpRpcGetHandle a b dmabufFd s.rpc k = .ok ((map key).getD 0) := by
  rw [← answer_eq]
  simp [dvpRpcGetHandle, hk, hfind, hread, hbase, h.hash.get_eq key, hion, hbo]

/-- An address of an associated buffer has its handle. -/
theorem getHandle_live (hion : b.useIon = true) (hbo : b.useBo = false) (h : RpcHolds s map)
    (hbuf : buf ∈ s.live) (hk : buf.range.Contains k) :
    dvpRpcGetHandle a b dmabufFd s.rpc k = .ok buf.handle := by
  have hne : k ≠ 0 := by
    have hpos := Nat.pos_of_ne_zero (h.recordable buf hbuf).ptr_ne
    exact (lt_of_lt_of_le hpos hk.1).ne'
  -- the tree finds some range with the address, and ranges that are apart share none
  rcases h.ranges.find k with ⟨-, hnone⟩ | ⟨p, n, hfind, hread, hmem, hcontains⟩
  · exact absurd hk (hnone _ (List.mem_map_of_mem hbuf))
  · obtain ⟨other, hother, hrange⟩ := List.mem_map.mp hmem
    have heq : other = buf := by
      by_contra hother_ne
      rw [← hrange] at hcontains
      exact (h.apart_of_ne hother hbuf hother_ne).not_contains hcontains hk
    have hbase : n.data.value.base = buf.ptr := by rw [← hrange, heq]; rfl
    rw [getHandle_of_find_some hion hbo h hne ⟨buf.ptr, (h.recordable buf hbuf).ptr_ne⟩ hfind hread
      hbase, h.handle_eq hbuf]
    rfl

/-- An address in no associated buffer has no handle. -/
theorem getHandle_none (hion : b.useIon = true) (hbo : b.useBo = false) (h : RpcHolds s map)
    (hk : ∀ buf ∈ s.live, ¬buf.range.Contains k) :
    dvpRpcGetHandle a b dmabufFd s.rpc k = .ok 0 := by
  by_cases hne : k = 0
  · rw [dvpRpcGetHandle, if_pos hne]
  · rcases h.ranges.find k with ⟨hfind, -⟩ | ⟨p, n, -, -, hmem, hcontains⟩
    · have hbase : ∀ buf ∈ s.live, buf.ptr ≠ k := by
        rintro buf hbuf rfl
        exact hk buf hbuf (h.recordable buf hbuf).contains
      rw [getHandle_of_find_none hion hbo h ⟨k, hne⟩ hfind]
      -- the hash has no entry for the address, or the `0` that a dissociated buffer left
      rcases h.others ⟨k, hne⟩ hbase with hmap | hmap
      · rw [hmap]
        rfl
      · rw [hmap]
        rfl
    · obtain ⟨other, hother, hrange⟩ := List.mem_map.mp hmem
      rw [← hrange] at hcontains
      exact absurd hcontains (hk other hother)

end Answer

/-! ## The calls -/

/-- A buffer that is associated. -/
theorem associate (h : RpcHolds s map) (hbuf : buf.Recordable)
    (hapart : ∀ other ∈ s.live, other.range.Apart buf.range) {f : Fph}
    (hslots : f.hash.length = s.rpc.hndlHash.hash.length) {nodes : BtreeMem MemRange}
    {ranges : Btreelist MemRange Nat}
    (hhash : FphRemembers f (Function.update map ⟨buf.ptr, hbuf.ptr_ne⟩ (some buf.handle)))
    (hranges : RangesHold nodes ranges (buf.range :: s.live.map Buffer.range)) :
    RpcHolds ⟨⟨f, ranges, nodes⟩, buf :: s.live⟩
      (Function.update map ⟨buf.ptr, hbuf.ptr_ne⟩ (some buf.handle)) where
  hash := hhash
  slots := hslots.trans h.slots
  handles other hother k hk := by
    rcases List.mem_cons.mp hother with rfl | hother
    · rw [show k = ⟨other.ptr, hbuf.ptr_ne⟩ from Subtype.ext hk, Function.update_self]
    · have hne : k ≠ ⟨buf.ptr, hbuf.ptr_ne⟩ := by
        rintro rfl
        exact Buffer.ptr_ne_of_apart (h.recordable other hother) hbuf (hapart other hother) hk.symm
      rw [Function.update_of_ne hne]
      exact h.handles other hother k hk
  others k hk := by
    have hne : k ≠ ⟨buf.ptr, hbuf.ptr_ne⟩ := by
      rintro rfl
      exact hk buf List.mem_cons_self rfl
    rw [Function.update_of_ne hne]
    exact h.others k fun other hother => hk other (List.mem_cons_of_mem _ hother)
  ranges := hranges
  recordable := List.forall_mem_cons.mpr ⟨hbuf, h.recordable⟩
  apart := List.pairwise_cons.mpr ⟨fun other hother => (hapart other hother).symm, h.apart⟩

/-- A buffer that is dissociated. -/
theorem dissociate (h : RpcHolds s map) (hbuf : buf ∈ s.live) {f : Fph}
    (hslots : f.hash.length = s.rpc.hndlHash.hash.length) {nodes : BtreeMem MemRange}
    {ranges : Btreelist MemRange Nat}
    (hhash : FphRemembers f
      (Function.update map ⟨buf.ptr, (h.recordable buf hbuf).ptr_ne⟩ (some 0)))
    (hranges : RangesHold nodes ranges
      ((s.live.filter (·.ptr ≠ buf.ptr)).map Buffer.range)) :
    RpcHolds ⟨⟨f, ranges, nodes⟩, s.live.filter (·.ptr ≠ buf.ptr)⟩
      (Function.update map ⟨buf.ptr, (h.recordable buf hbuf).ptr_ne⟩ (some 0)) where
  hash := hhash
  slots := hslots.trans h.slots
  handles other hother k hk := by
    obtain ⟨hother, hptr⟩ := List.mem_filter.mp hother
    have hne : k ≠ ⟨buf.ptr, (h.recordable buf hbuf).ptr_ne⟩ := by
      rintro rfl
      exact of_decide_eq_true hptr hk.symm
    rw [Function.update_of_ne hne]
    exact h.handles other hother k hk
  others k hk := by
    by_cases heq : k = ⟨buf.ptr, (h.recordable buf hbuf).ptr_ne⟩
    · right
      rw [heq, Function.update_self]
    · rw [Function.update_of_ne heq]
      refine h.others k fun other hother hptr => ?_
      refine hk other (List.mem_filter.mpr ⟨hother, decide_eq_true ?_⟩) hptr
      intro hbase
      exact heq (Subtype.ext (hptr.symm.trans hbase))
  ranges := hranges
  recordable other hother := h.recordable other (List.mem_of_mem_filter hother)
  apart := h.apart.filter _

/-- `dvp_rpc_associate` associates the buffer, if it returns. -/
theorem associate_spec (h : RpcHolds s map) {mrange : Option Ptr} {alloc alloc' : Bool}
    (hfits : RpcFits b s (.associate buf mrange alloc alloc')) :
    (∃ s' map', rpcStep a b s (.associate buf mrange alloc alloc') =
          .ok (s', (registry s.live (.associate buf mrange alloc alloc')).2) ∧
        s'.live = (registry s.live (.associate buf mrange alloc alloc')).1 ∧ RpcHolds s' map') ∨
      (¬(RpcOp.associate buf mrange alloc alloc').Allocates ∧
        ∃ e, rpcStep a b s (.associate buf mrange alloc alloc') = .error e) := by
  obtain ⟨⟨hlt, hsupports, -, hapart⟩, hroom, hfresh⟩ := hfits
  rw [registry]
  by_cases hnull : buf.ptr = 0 ∨ buf.size = 0
  · rw [if_pos hnull]
    refine .inl ⟨s, map, ?_, rfl, h⟩
    rw [rpcStep, dvpRpcAssociate, if_pos hnull]
    rfl
  · rw [if_neg hnull]
    have hbuf : buf.Recordable := ⟨fun h => hnull (.inl h), fun h => hnull (.inr h), hlt⟩
    obtain ⟨f, hlength, ⟨-, hset, hhash⟩ | ⟨hfull, -⟩⟩ :=
      h.hash.set (a := a) ⟨buf.ptr, hbuf.ptr_ne⟩ buf.handle
    · have hfits : (s.live.map Buffer.range).length + 1 < 2 ^ 31 := by
        have hle := h.length_le
        rw [List.length_map]
        simp only [dvpRpcNumBlocks, dvpRpcBlockSize] at hle
        omega
      have hfresh' : ∀ x ∈ mrange, ¬s.rpc.nodes.Alive x ∧ x < s.rpc.nodes.size := by
        intro x hx
        refine ⟨?_, (hfresh x hx).2⟩
        rw [NodeMem.Alive, (hfresh x hx).1]
        simp
      -- the range goes into the tree, which allocates, and then the handle into the hash
      rcases h.ranges.add_or_error alloc hfresh' hbuf.valid (List.forall_mem_map.mpr hapart)
          hfits with ⟨nodes, ranges, hadd, hranges⟩ | ⟨halloc, hadd⟩
      · refine .inl ⟨_, _, ?_, rfl, h.associate hbuf hapart hlength hhash hranges⟩
        simp [rpcStep, dvpRpcAssociate, hnull, hsupports, hbuf.memRangeOf_eq, hadd, hset]
      · refine .inr ⟨halloc, .nullPointer, ?_⟩
        simp [rpcStep, dvpRpcAssociate, hnull, hsupports, hbuf.memRangeOf_eq, hadd]
    · exact absurd hroom hfull

/-- `dvp_rpc_dissociate` dissociates the buffer, if it returns. -/
theorem dissociate_spec (h : RpcHolds s map) {alloc : Bool}
    (hfits : RpcFits b s (.dissociate ptr size mtype alloc)) :
    (∃ s' map', rpcStep a b s (.dissociate ptr size mtype alloc) =
          .ok (s', (registry s.live (.dissociate ptr size mtype alloc)).2) ∧
        s'.live = (registry s.live (.dissociate ptr size mtype alloc)).1 ∧ RpcHolds s' map') ∨
      (¬(RpcOp.dissociate ptr size mtype alloc).Allocates ∧
        ∃ e, rpcStep a b s (.dissociate ptr size mtype alloc) = .error e) := by
  obtain ⟨hsupports, buf, hbuf, rfl⟩ := hfits
  have hrecord := h.recordable buf hbuf
  rw [registry]
  by_cases hnull : buf.ptr = 0 ∨ size = 0
  · rw [if_pos hnull]
    refine .inl ⟨s, map, ?_, rfl, h⟩
    rw [rpcStep, dvpRpcDissociate, if_pos hnull]
    rfl
  · rw [if_neg hnull]
    have hget : fphGet a s.rpc.hndlHash buf.ptr = .ok (1, buf.handle) := by
      rw [h.hash.get_eq ⟨buf.ptr, hrecord.ptr_ne⟩, h.handle_eq hbuf, fphAnswer]
    obtain ⟨f, hlength, ⟨-, hset, hhash⟩ | ⟨hfull, -⟩⟩ :=
      h.hash.set (a := a) ⟨buf.ptr, hrecord.ptr_ne⟩ 0
    · have hperm : (s.live.map Buffer.range).Perm
          (buf.range :: (s.live.filter (·.ptr ≠ buf.ptr)).map Buffer.range) :=
        (h.perm_filter hbuf).map Buffer.range
      -- no other buffer has an address of this one, so its range alone is removed
      have hapart : ∀ r ∈ (s.live.filter (·.ptr ≠ buf.ptr)).map Buffer.range,
          r.Apart buf.range := by
        refine List.forall_mem_map.mpr fun other hother => ?_
        obtain ⟨hother, hptr⟩ := List.mem_filter.mp hother
        refine h.apart_of_ne hother hbuf ?_
        rintro rfl
        exact of_decide_eq_true hptr rfl
      rcases h.ranges.remove_or_error alloc hperm hrecord.contains hapart with
        ⟨nodes, ranges, p, nodes', hremove, hfree, hranges⟩ | ⟨halloc, e, hremove⟩
      · refine .inl ⟨_, _, ?_, rfl, h.dissociate hbuf hlength hhash hranges⟩
        simp [rpcStep, dvpRpcDissociate, hnull, hsupports, hget, hset, hremove, hfree]
      · refine .inr ⟨by simp [RpcOp.Allocates, halloc], e, ?_⟩
        simp [rpcStep, dvpRpcDissociate, hnull, hsupports, hget, hset, hremove]
    · exact absurd (h.hash.hasRoom (h.handle_eq hbuf)) hfull

/-- A call does what `registry` says, if it returns; it does when its calls of `calloc` have memory. -/
theorem step (h : RpcHolds s map) {o : RpcOp} (hfits : RpcFits b s o) :
    (∃ s' map', rpcStep a b s o = .ok (s', (registry s.live o).2) ∧
        s'.live = (registry s.live o).1 ∧ RpcHolds s' map') ∨
      (¬o.Allocates ∧ ∃ e, rpcStep a b s o = .error e) := by
  cases o with
  | associate buf mrange alloc alloc' => exact h.associate_spec hfits
  | dissociate ptr size mtype alloc => exact h.dissociate_spec hfits

end RpcHolds

/-- The hash of a registry just made is empty. -/
theorem remembers_init {nodes : BtreeMem MemRange} :
    FphRemembers (dvpRpcInit a nodes).hndlHash fun _ => none where
  holds := fphHolds_init (by decide) (by cases a <;> (unfold SlotsFit; decide))
    (keyFuncValid_fphHash (by decide) (by decide))
  packed := fphPacked_init

/-- A registry just made remembers nothing. -/
theorem rpcHolds_init {nodes : BtreeMem MemRange} (hnodes : nodes.Bounded) :
    RpcHolds ⟨dvpRpcInit a nodes, []⟩ fun _ => none where
  hash := remembers_init
  slots := fphInit_length (by cases a <;> (unfold SlotsFit; decide))
  handles := by simp
  others _ _ := .inl rfl
  ranges := rangesHold_create hnodes
  recordable := by simp
  apart := List.Pairwise.nil

/-- Every run whose calls fit returns, if `calloc` has memory. After every run that returns, the calls have
answered, and the buffers are associated, as the calls alone tell; `dvp_rpc_get_handle` answers an address
of an associated buffer, which is the only one that contains it, with the handle of that buffer, and any
other address with `0`. -/
theorem dvpRpcGetHandle_correct (a : Arch) (b : Build) (hion : b.useIon = true)
    (hbo : b.useBo = false) (dmabufFd : Nat → Nat) (nodes : BtreeMem MemRange)
    (hnodes : nodes.Bounded) (os : List RpcOp)
    (hfits : Machine.Meets (rpcStep a b) (RpcFits b) ⟨dvpRpcInit a nodes, []⟩ os) :
    ((∀ o ∈ os, o.Allocates) →
      ∃ s answers, Machine.run (rpcStep a b) ⟨dvpRpcInit a nodes, []⟩ os = .ok (s, answers)) ∧
    ∀ s answers, Machine.run (rpcStep a b) ⟨dvpRpcInit a nodes, []⟩ os = .ok (s, answers) →
      (s.live, answers) = Machine.specRun registry [] os ∧
      (∀ buf ∈ s.live, ∀ k, buf.range.Contains k →
        dvpRpcGetHandle a b dmabufFd s.rpc k = .ok buf.handle ∧
        ∀ other ∈ s.live, other.range.Contains k → other = buf) ∧
      ∀ k, (∀ buf ∈ s.live, ¬buf.range.Contains k) →
        dvpRpcGetHandle a b dmabufFd s.rpc k = .ok 0 := by
  have hinit : ∃ map, RpcHolds ⟨dvpRpcInit a nodes, []⟩ map := ⟨_, rpcHolds_init hnodes⟩
  constructor
  · intro halloc
    have hmeets := hfits.and (D := fun _ o => o.Allocates)
      (Machine.meets_of_forall fun _ o ho => halloc o ho)
    obtain ⟨s, answers, hrun, -⟩ := Machine.run_invariant (I := fun s => ∃ map, RpcHolds s map)
      (fun s o ⟨map, h⟩ ⟨hfit, halloc⟩ => by
        rcases h.step (a := a) hfit with ⟨s', map', hstep, -, h'⟩ | ⟨hnot, -⟩
        · exact ⟨s', _, hstep, map', h'⟩
        · exact absurd halloc hnot) hinit hmeets
    exact ⟨s, answers, hrun⟩
  · intro s answers hrun
    -- the list of the calls is the abstract state, and the invariant goes with it
    obtain ⟨hanswers, hlive, map, h⟩ : answers = (Machine.specRun registry [] os).2 ∧
        s.live = (Machine.specRun registry [] os).1 ∧ ∃ map, RpcHolds s map := Machine.run_refines_of_ok
      (Q := fun s live => s.live = live ∧ ∃ map, RpcHolds s map)
      (fun s live o s' r ⟨hlive, map, h⟩ hfit hstep => by
        subst hlive
        rcases h.step (a := a) hfit with ⟨s₁, map', hstep', hlive', h'⟩ | ⟨-, e, hstep'⟩
        · rw [hstep'] at hstep
          cases hstep
          exact ⟨rfl, hlive', map', h'⟩
        · rw [hstep'] at hstep
          cases hstep) ⟨rfl, hinit⟩ hfits hrun
    refine ⟨Prod.ext hlive hanswers, fun buf hbuf k hk => ⟨h.getHandle_live hion hbo hbuf hk, ?_⟩,
      fun k hk => h.getHandle_none hion hbo hk⟩
    -- two buffers with an address in common are not apart
    intro other hother hcontains
    by_contra hne
    exact (h.apart_of_ne hother hbuf hne).not_contains hcontains hk

/-- Two buffers are associated, and the first one is dissociated. -/
def twoBuffers : List RpcOp :=
  [.associate ⟨0x4000, 7, 0x100, .mpucached1dtiled⟩ (some 1) true true,
    .associate ⟨0x8000, 8, 0x1000, .mpucachedVirtualShared⟩ (some 2) true true,
    .dissociate 0x4000 0x100 .mpucached1dtiled true]

theorem dvpRpcGetHandle_correct_twoBuffers :
    ((∀ o ∈ twoBuffers, o.Allocates) →
      ∃ s answers, Machine.run (rpcStep .arch32 ⟨true, false, false, false⟩)
        ⟨dvpRpcInit .arch32 ⟨4, fun _ => none⟩, []⟩ twoBuffers = .ok (s, answers)) ∧
    ∀ s answers, Machine.run (rpcStep .arch32 ⟨true, false, false, false⟩)
        ⟨dvpRpcInit .arch32 ⟨4, fun _ => none⟩, []⟩ twoBuffers = .ok (s, answers) →
      (s.live, answers) = Machine.specRun registry [] twoBuffers ∧
      (∀ buf ∈ s.live, ∀ k, buf.range.Contains k →
        dvpRpcGetHandle .arch32 ⟨true, false, false, false⟩ id s.rpc k = .ok buf.handle ∧
        ∀ other ∈ s.live, other.range.Contains k → other = buf) ∧
      ∀ k, (∀ buf ∈ s.live, ¬buf.range.Contains k) →
        dvpRpcGetHandle .arch32 ⟨true, false, false, false⟩ id s.rpc k = .ok 0 :=
  dvpRpcGetHandle_correct .arch32 ⟨true, false, false, false⟩ rfl rfl id ⟨4, fun _ => none⟩
    (fun _ hp => absurd hp (by simp [NodeMem.Alive])) twoBuffers
    (Machine.check_eq_true_iff.mp (by decide +kernel))

end DVP.Kgraph
