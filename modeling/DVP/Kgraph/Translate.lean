import DVP.Kgraph.Load
import DVP.Kgraph.Rpc.Basic
import DVP.Sosal.Fph.TwoWay
import Mathlib.Data.Finset.Image
import Mathlib.Data.Finset.Insert

/-!
# Address translation for the remote cores

`dvp_rpc_mem_xlate_fwrd`, `dvp_rpc_mem_xlate_back` and `dvp_rpc_mem_remove` of
`source/dvp/dvp_kgraph/dvp_rpc_rcm.c`, built with `DVP_USE_TILER` and not for QNX. The pointer `rpc` is not
`NULL`. Pointers are numbers.

The mapping services `MemMgr_Map` and `SysLinkMemUtils_map` are not part of the repository. A call of
`dvp_rpc_mem_xlate_fwrd` is told what they answer, and the state remembers what is mapped at present.
The kind of mapping that the services are asked for is left out.
-/

namespace DVP.Kgraph

open DVP.Sosal

/-- `DVP_CORE_REMOTE_MAX`. -/
def coreRemoteMax : Nat := 6

/-- The valid remote cores. -/
abbrev RemoteCore : Type := Fin coreRemoteMax

/-- `DVP_CORE_CPU`. -/
def coreCpu : Core := ⟨6, by decide⟩

/-- `DVP_CORE_SIMCOP` as a remote core. -/
def remoteSimcop : RemoteCore := ⟨1, by decide⟩

def RemoteCore.toCore (c : RemoteCore) : Core := ⟨c.val, Nat.lt_succ_of_lt c.isLt⟩

/-- `DVP_VALID_REMOTE_CORE`. -/
def Core.remote? (core : Core) : Option RemoteCore :=
  if h : core.val < coreRemoteMax then some ⟨core.val, h⟩ else none

/-- What the mapping services have mapped. -/
structure Mapped where
  /-- The remote addresses from `SysLinkMemUtils_map` that `ProcMgr_unmap` did not get back. -/
  remote : RemoteCore → Finset FphKey
  /-- The pointers and their addresses from `MemMgr_Map` that `MemMgr_UnMap` did not get back. -/
  tiler : Finset (FphKey × FphKey)

/-- The addresses on this side that the hashes of a remote core translate. -/
inductive AddrSpace where
  | mpu
  | tiler
  deriving DecidableEq

/-- `DVP_RPC_t`, with its lock and its hashes, and the state of the mapping services. -/
structure RcmRpc where
  locked : Bool
  /-- `mpu2rpu_hash` and `rpu2mpu_hash`, and `tiler2rpu_hash` and `rpu2tiler_hash`. -/
  rpu : AddrSpace → RemoteCore → TwoWay
  /-- `mpu2tiler_hash` and `tiler2mpu_hash`. -/
  mpuTiler : TwoWay
  mapped : Mapped

/-- What the mapping services answer to a call. An address is not `NULL`. -/
structure MapAnswers where
  /-- `MemMgr_Map`. -/
  tiler : Option FphKey
  /-- `SysLinkMemUtils_map` for each core. -/
  remote : RemoteCore → Option FphKey

namespace RcmRpc

/-- `mutex_lock` of a mutex that is not recursive. -/
def lock (rpc : RcmRpc) : Except Fault RcmRpc :=
  if rpc.locked then .error .blocked else .ok { rpc with locked := true }

/-- `mutex_unlock`. -/
def unlock (rpc : RcmRpc) : RcmRpc := { rpc with locked := false }

/-- `SysLinkMemUtils_map` has mapped an address. -/
def mapRemote (rpc : RcmRpc) (c : RemoteCore) (addr : FphKey) : RcmRpc :=
  { rpc with
    mapped.remote := Function.update rpc.mapped.remote c (insert addr (rpc.mapped.remote c)) }

/-- `ProcMgr_unmap`. -/
def unmapRemote (rpc : RcmRpc) (c : RemoteCore) (addr : Nat) : RcmRpc :=
  { rpc with
    mapped.remote :=
      Function.update rpc.mapped.remote c ((rpc.mapped.remote c).filter fun x => x.val ≠ addr) }

/-- `MemMgr_Map` has mapped a pointer. -/
def mapTiler (rpc : RcmRpc) (localAddr : Nat) (tilerAddr : FphKey) : RcmRpc :=
  if h : localAddr ≠ 0 then
    { rpc with mapped.tiler := insert (⟨localAddr, h⟩, tilerAddr) rpc.mapped.tiler }
  else rpc

/-- `MemMgr_UnMap`. -/
def unmapTiler (rpc : RcmRpc) (tilerAddr : Nat) : RcmRpc :=
  { rpc with mapped.tiler := rpc.mapped.tiler.filter fun pair => pair.2.val ≠ tilerAddr }

/-- `rpc` with other hashes of a core. -/
def setRpu (rpc : RcmRpc) (space : AddrSpace) (c : RemoteCore) (hashes : TwoWay) : RcmRpc :=
  { rpc with rpu := fun space' c' => if space' = space ∧ c' = c then hashes else rpc.rpu space' c' }

end RcmRpc

variable (a : Arch) (enabled : Core → Bool)

/-- The cores of `DVP_FOR_EACH_CORE`. -/
def remoteCores : List RemoteCore :=
  (List.finRange coreRemoteMax).filter fun c => enabled c.toCore

/-! ## Removal -/

/-- The body of the loop of `dvp_rpc_mem_remove` for a tiler address. -/
def removeTilerCore (tilerAddr : Nat) (rpc : RcmRpc) (c : RemoteCore) : Except Fault RcmRpc := do
  let hashes := rpc.rpu .tiler c
  let (found, remoteAddr) ← fphGet a hashes.forward tilerAddr
  let rpc := if found ≠ 0 then rpc.unmapRemote c remoteAddr else rpc
  let (_, forward) ← fphClr a hashes.forward tilerAddr
  let (_, backward) ← fphClr a hashes.backward remoteAddr
  return rpc.setRpu .tiler c ⟨forward, backward⟩

/-- The body of the loop of `dvp_rpc_mem_remove` for a pointer. -/
def removeLocalCore (localAddr localSize : Nat) (rpc : RcmRpc) (c : RemoteCore) :
    Except Fault RcmRpc := do
  let hashes := rpc.rpu .mpu c
  let (found, remoteAddr) ← fphGet a hashes.forward localAddr
  if found ≠ 0 then
    let rpc := if localSize ≠ 0 then rpc.unmapRemote c remoteAddr else rpc
    let (_, forward) ← fphClr a hashes.forward localAddr
    let (_, backward) ← fphClr a hashes.backward remoteAddr
    return rpc.setRpu .mpu c ⟨forward, backward⟩
  else return rpc

/-- `dvp_rpc_mem_remove`. -/
def dvpRpcMemRemove (rpc : RcmRpc) (localAddr localSize : Nat) (memType : MemType) :
    Except Fault RcmRpc := do
  let rpc ← rpc.lock
  if memType = .mpucachedVirtual then
    let (found, tilerAddr) ← fphGet a rpc.mpuTiler.forward localAddr
    if found ≠ 0 then
      let rpc ← (remoteCores enabled).foldlM (removeTilerCore a tilerAddr) rpc
      let rpc := rpc.unmapTiler tilerAddr
      let (_, backward) ← fphClr a rpc.mpuTiler.backward tilerAddr
      let (_, forward) ← fphClr a rpc.mpuTiler.forward localAddr
      return { rpc with mpuTiler := ⟨forward, backward⟩ }.unlock
    else return rpc.unlock
  else
    let rpc ← (remoteCores enabled).foldlM (removeLocalCore a localAddr localSize) rpc
    return rpc.unlock

/-! ## Forward translation -/

/-- The variables of `dvp_rpc_mem_xlate_fwrd`. -/
structure Xlate where
  rpc : RcmRpc
  remoteAddr : Nat
  unwind : Bool

/-- The bodies of the loops of `dvp_rpc_mem_xlate_fwrd` that map an address for each core: one for pointers
and one for tiler addresses. -/
def mapToCore (space : AddrSpace) (core : Core) (source : Nat) (answers : MapAnswers) (x : Xlate)
    (newCore : RemoteCore) : Except Fault Xlate :=
  match answers.remote newCore with
  | none => .ok { x with unwind := true }
  | some addr => do
    let (there, back, hashes) ← (x.rpc.rpu space newCore).install a source addr
    return {
      rpc := (x.rpc.mapRemote newCore addr).setRpu space newCore hashes
      remoteAddr := if there ∧ core = newCore.toCore then addr else x.remoteAddr
      unwind := x.unwind || !back
    }

/-- The branch of `dvp_rpc_mem_xlate_fwrd` for `DVP_MTYPE_MPUCACHED_1DTILED`. -/
def xlateTiled (rpc : RcmRpc) (core : Core) (localAddr : Nat) (answers : MapAnswers) :
    Except Fault Xlate := do
  let (found, tilerAddr) ← fphGet a rpc.mpuTiler.forward localAddr
  if found = 0 then
    match answers.tiler with
    | none => return {
        rpc := rpc
        remoteAddr := 0
        unwind := true
      }
    | some tilerAddr =>
      -- Whether these two calls have room is not looked at.
      let (_, forward) ← fphSet a rpc.mpuTiler.forward localAddr tilerAddr
      let (_, backward) ← fphSet a rpc.mpuTiler.backward tilerAddr localAddr
      (remoteCores enabled).foldlM (mapToCore a .tiler core tilerAddr answers) {
        rpc := { rpc.mapTiler localAddr tilerAddr with mpuTiler := ⟨forward, backward⟩ }
        remoteAddr := 0
        unwind := false
      }
  else
    let remoteAddr ←
      match core.remote? with
      | some c => do
        let (_, remoteAddr) ← fphGet a (rpc.rpu .tiler c).forward tilerAddr
        pure remoteAddr
      | none => pure 0
    return {
      rpc := rpc
      remoteAddr := if core = coreCpu then tilerAddr else remoteAddr
      unwind := false
    }

/-- The branch of `dvp_rpc_mem_xlate_fwrd` for all other memory types. -/
def xlateLocal (rpc : RcmRpc) (core : Core) (localAddr : Nat) (answers : MapAnswers) :
    Except Fault Xlate :=
  -- The core of the CPU stands for the first remote core that is enabled.
  let mapCore := if core = coreCpu then (remoteCores enabled).head? else core.remote?
  match mapCore with
  | none => .ok {
      rpc := rpc
      remoteAddr := if core = coreCpu then localAddr else 0
      unwind := false
    }
  | some mapCore => do
    let (found, remoteAddr) ← fphGet a (rpc.rpu .mpu mapCore).forward localAddr
    let x : Xlate := {
      rpc := rpc
      remoteAddr := remoteAddr
      unwind := false
    }
    if found = 0 then (remoteCores enabled).foldlM (mapToCore a .mpu core localAddr answers) x
    else return x

/-- `dvp_rpc_mem_xlate_fwrd`. -/
def dvpRpcMemXlateFwrd (rpc : RcmRpc) (core : Core) (localAddr localSize : Nat) (memType : MemType)
    (answers : MapAnswers) : Except Fault (Nat × RcmRpc) := do
  let rpc ← rpc.lock
  let x ←
    if enabled core then
      if memType = .mpucached1dtiled then xlateTiled a enabled rpc core localAddr answers
      else xlateLocal a enabled rpc core localAddr answers
    else pure {
      rpc := rpc
      remoteAddr := 0
      unwind := false
    }
  if x.unwind then
    let rpc ← dvpRpcMemRemove a enabled x.rpc localAddr localSize memType
    return (0, rpc.unlock)
  else return (x.remoteAddr, x.rpc.unlock)

/-! ## Backward translation -/

/-- `dvp_rpc_mem_xlate_back`. -/
def dvpRpcMemXlateBack (rpc : RcmRpc) (core : Core) (remoteAddr : Nat) (memType : MemType) :
    Except Fault Nat := do
  let rpc ← rpc.lock
  match core.remote? with
  | none => return 0
  | some c =>
    if enabled core then
      if memType = .mpucached1dtiled then
        let (_, tilerAddr) ← fphGet a (rpc.rpu .tiler c).backward remoteAddr
        let (_, localAddr) ← fphGet a rpc.mpuTiler.backward tilerAddr
        return localAddr
      else
        let (_, localAddr) ← fphGet a (rpc.rpu .mpu c).backward remoteAddr
        return localAddr
    else return 0

end DVP.Kgraph
