import DVP.Lib.Mailbox
import DVP.Lib.Run
import DVP.Sosal.Types
import Mathlib.Logic.Function.Basic

/-!
# The work queue of a kernel manager

`DVP_KernelGraphManager` in `source/dvp/dvp_kgm_cpu/dvp_kgm_cpu.c`, `dvp_kgm_dsp/dvp_kgm_dsp.c` and
`dvp_kgm_simcop/dvp_kgm_simcop.c`, called with `sync == DVP_FALSE`, the worker threads
`DVP_KernelGraphManagerThread_*`, and `DVP_KernelGraphManagerInit` and `…Deinit` as far as these use
the two queues. A caller writes its nodes to `workqueue` and reads `retqueue` until its own result
comes out; it puts back what is not its own. A worker executes what it reads from `workqueue` and
writes the result to `retqueue`.

Threads take atomic steps in any order. A blocking call on a queue is two of them: its event wait,
which does nothing as long as the event is not set, and the region between the lock and the unlock.
How many of its nodes a call executes is part of a step, so that every behaviour of the kernels is
covered. The queues are those of a `QueueCalls`: the ones of `source/sosal/queue.c`, or mailboxes.
-/

namespace DVP.Kgm

open DVP.Sosal (Arch Fault)

/-- `DVP_KGM_Thread_t`. -/
structure KgmThread (a : Arch) where
  pSubNodes : BitVec a.bits
  startNode : BitVec 32
  numNodes : BitVec 32
  numNodesExecuted : BitVec 32
  deriving DecidableEq

/-- The fields that tell a caller whether a result is its own. -/
abbrev NodesKey (a : Arch) : Type := BitVec a.bits × BitVec 32 × BitVec 32

variable {a : Arch} {Q : Type}

/-- The nodes of a work item, or of a result. -/
def KgmThread.nodes (kgmt : KgmThread a) : NodesKey a :=
  (kgmt.pSubNodes, kgmt.startNode, kgmt.numNodes)

/-- What the managers use of a queue: the two events, the regions of a blocking `queue_write` and
`queue_read` that follow the waits for them, and `queue_pop`. -/
structure QueueCalls (Q α : Type) where
  readEvent : Q → Bool
  writeEvent : Q → Bool
  write : Q → α → Except Fault (Q × Bool)
  read : Q → Except Fault (Q × Option α)
  pop : Q → Q

/-- Mailboxes as queues. -/
def mailboxCalls (α : Type) : QueueCalls (Mailbox α) α where
  readEvent := Mailbox.readable
  writeEvent := Mailbox.writable
  write := fun m x => .ok (m.put x)
  read := fun m => .ok m.take
  pop := Mailbox.close

/-- What the managers of the three cores differ in. -/
structure Manager where
  /-- The number of the threads in `workers`. -/
  numWorkers : Nat
  /-- Whether a caller that could not read `retqueue` tries again. -/
  retries : Bool

/-- The manager of `dvp_kgm_cpu.c`. -/
def Manager.cpu (targetNumCores : Nat) : Manager := ⟨targetNumCores, true⟩

/-- The manager of `dvp_kgm_dsp.c`. -/
def Manager.dsp : Manager := ⟨1, false⟩

/-- The manager of `dvp_kgm_simcop.c`. -/
def Manager.simcop : Manager := ⟨1, false⟩

/-- Where a thread is in a blocking call on a queue. -/
inductive Gate where
  /-- In the event wait. -/
  | waiting
  /-- About to take the lock. -/
  | locking
  deriving DecidableEq

/-- Where a caller is in `DVP_KernelGraphManager`. -/
inductive CallerPlace (a : Arch) where
  | outside
  /-- In the `queue_write` to `workqueue`. -/
  | issuing (kgmt : KgmThread a) (gate : Gate)
  /-- In the `queue_read` from `retqueue`. -/
  | collecting (kgmt : KgmThread a) (gate : Gate)
  /-- In the `queue_write` that puts `kgmr` back. -/
  | returning (kgmt kgmr : KgmThread a) (gate : Gate)
  deriving DecidableEq

/-- Where a worker thread is. -/
inductive WorkerPlace (a : Arch) where
  /-- In the `queue_read` from `workqueue`. -/
  | reading (gate : Gate)
  | executing (kgmt : KgmThread a)
  /-- In the `queue_write` to `retqueue`. -/
  | writing (kgmt : KgmThread a) (gate : Gate)
  | exited
  deriving DecidableEq

/-- Why a call returned. -/
inductive Outcome (a : Arch) where
  /-- The `queue_write` to `workqueue` returned `false_e`. -/
  | refused
  /-- The `queue_read` from `retqueue` returned `false_e`. -/
  | gaveUp
  /-- `kgmr` is its own. -/
  | result (kgmr : KgmThread a)
  deriving DecidableEq

/-- A call that returned. -/
structure Returned (a : Arch) where
  kgmt : KgmThread a
  outcome : Outcome a
  deriving DecidableEq

/-- The value of `DVP_KernelGraphManager`. -/
def Returned.value (r : Returned a) : BitVec 32 :=
  match r.outcome with
  | .result kgmr => kgmr.numNodesExecuted
  | _ => 0

/-- The two queues, the threads, and what has happened. -/
structure KgmSystem (Q : Type) (a : Arch) where
  workqueue : Q
  retqueue : Q
  /-- The threads with an index below it may call. -/
  numCallers : Nat
  callers : Nat → CallerPlace a
  workers : Nat → WorkerPlace a
  /-- The items that `workqueue` took. -/
  accepted : List (KgmThread a)
  /-- The results of the executions. -/
  executed : List (KgmThread a)
  /-- The results that `retqueue` refused. -/
  lost : List (KgmThread a)
  returns : List (Returned a)

/-- The atomic steps. -/
inductive KgmAct (a : Arch) where
  /-- The thread `c` calls `DVP_KernelGraphManager`. -/
  | call (c : Nat) (pSubNodes : BitVec a.bits) (startNode numNodes : BitVec 32)
  /-- The next step of a call. -/
  | caller (c : Nat)
  /-- The next step of a worker that is not executing. -/
  | worker (w : Nat)
  /-- The nodes of a worker have been executed, as many as it says. -/
  | finish (w : Nat) (processed : BitVec 32)
  /-- `queue_pop(workqueue)` in `DVP_KernelGraphManagerDeinit`. -/
  | popWork
  /-- `queue_pop(retqueue)` in `DVP_KernelGraphManagerDeinit`. -/
  | popRet

namespace KgmSystem

/-- `DVP_KernelGraphManagerInit`, with the two queues it created. -/
def init (workqueue retqueue : Q) (numCallers : Nat) : KgmSystem Q a where
  workqueue := workqueue
  retqueue := retqueue
  numCallers := numCallers
  callers := fun _ => .outside
  workers := fun _ => .reading .waiting
  accepted := []
  executed := []
  lost := []
  returns := []

variable (calls : QueueCalls Q (KgmThread a)) (s : KgmSystem Q a)

def setCaller (c : Nat) (place : CallerPlace a) : KgmSystem Q a :=
  { s with callers := Function.update s.callers c place }

def setWorker (w : Nat) (place : WorkerPlace a) : KgmSystem Q a :=
  { s with workers := Function.update s.workers w place }

/-- The call of the thread `c` returns. -/
def leave (c : Nat) (kgmt : KgmThread a) (outcome : Outcome a) : KgmSystem Q a :=
  { s.setCaller c .outside with returns := s.returns ++ [⟨kgmt, outcome⟩] }

/-- The next step of a call of `DVP_KernelGraphManager`. -/
def stepCaller (m : Manager) (c : Nat) : Except Fault (KgmSystem Q a) :=
  match s.callers c with
  | .outside => .ok s
  | .issuing kgmt .waiting =>
    .ok (if calls.writeEvent s.workqueue then s.setCaller c (.issuing kgmt .locking) else s)
  | .issuing kgmt .locking => do
    let (workqueue, ret) ← calls.write s.workqueue kgmt
    let s := { s with workqueue := workqueue }
    if ret then
      return { s.setCaller c (.collecting kgmt .waiting) with accepted := s.accepted ++ [kgmt] }
    else return s.leave c kgmt .refused
  | .collecting kgmt .waiting =>
    .ok (if calls.readEvent s.retqueue then s.setCaller c (.collecting kgmt .locking) else s)
  | .collecting kgmt .locking => do
    let (retqueue, kgmr) ← calls.read s.retqueue
    let s := { s with retqueue := retqueue }
    match kgmr with
    | some kgmr =>
      if kgmt.nodes = kgmr.nodes then return s.leave c kgmt (.result kgmr)
      else return s.setCaller c (.returning kgmt kgmr .waiting)
    | none =>
      if m.retries then return s.setCaller c (.collecting kgmt .waiting)
      else return s.leave c kgmt .gaveUp
  | .returning kgmt kgmr .waiting =>
    .ok (if calls.writeEvent s.retqueue then s.setCaller c (.returning kgmt kgmr .locking) else s)
  | .returning kgmt kgmr .locking => do
    let (retqueue, ret) ← calls.write s.retqueue kgmr
    -- what `queue_write` returns is not looked at
    return { s.setCaller c (.collecting kgmt .waiting) with
      retqueue := retqueue
      lost := if ret then s.lost else s.lost ++ [kgmr] }

/-- The next step of a worker that is not executing. -/
def stepWorker (w : Nat) : Except Fault (KgmSystem Q a) :=
  match s.workers w with
  | .reading .waiting =>
    .ok (if calls.readEvent s.workqueue then s.setWorker w (.reading .locking) else s)
  | .reading .locking => do
    let (workqueue, kgmt) ← calls.read s.workqueue
    let s := { s with workqueue := workqueue }
    match kgmt with
    | some kgmt => return s.setWorker w (.executing { kgmt with numNodesExecuted := 0 })
    | none => return s.setWorker w .exited
  | .executing _ => .ok s
  | .writing kgmt .waiting =>
    .ok (if calls.writeEvent s.retqueue then s.setWorker w (.writing kgmt .locking) else s)
  | .writing kgmt .locking => do
    let (retqueue, ret) ← calls.write s.retqueue kgmt
    return { s.setWorker w (.reading .waiting) with
      retqueue := retqueue
      lost := if ret then s.lost else s.lost ++ [kgmt] }
  | .exited => .ok s

/-- The end of an execution. -/
def finish (w : Nat) (processed : BitVec 32) : KgmSystem Q a :=
  match s.workers w with
  | .executing kgmt =>
    let kgmt := { kgmt with numNodesExecuted := processed }
    { s.setWorker w (.writing kgmt .waiting) with executed := s.executed ++ [kgmt] }
  | _ => s

/-- The start of a call: the item it makes. -/
def call (c : Nat) (pSubNodes : BitVec a.bits) (startNode numNodes : BitVec 32) : KgmSystem Q a :=
  match s.callers c with
  | .outside => s.setCaller c (.issuing ⟨pSubNodes, startNode, numNodes, 0⟩ .waiting)
  | _ => s

end KgmSystem

/-- One atomic step. A step of a thread that is not there, or is elsewhere, does nothing. -/
def kgmStep (calls : QueueCalls Q (KgmThread a)) (m : Manager) (s : KgmSystem Q a) :
    KgmAct a → Except Fault (KgmSystem Q a × Unit)
  | .call c pSubNodes startNode numNodes =>
    .ok (if c < s.numCallers then s.call c pSubNodes startNode numNodes else s, ())
  | .caller c =>
    if c < s.numCallers then do
      let s ← s.stepCaller calls m c
      return (s, ())
    else .ok (s, ())
  | .worker w =>
    if w < m.numWorkers then do
      let s ← s.stepWorker calls w
      return (s, ())
    else .ok (s, ())
  | .finish w processed => .ok (if w < m.numWorkers then s.finish w processed else s, ())
  | .popWork => .ok ({ s with workqueue := calls.pop s.workqueue }, ())
  | .popRet => .ok ({ s with retqueue := calls.pop s.retqueue }, ())

end DVP.Kgm
