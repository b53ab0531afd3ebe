import DVP.Sosal.Ring.Basic

/-!
# The message queue

The queue of `source/sosal/queue.c`: a ring of whole messages behind a mutex, with a
manual-reset event for readers and one for writers. What a call does while it holds the mutex is
a function of its own (`queueWriteLocked`, `queueReadLocked`), because other threads can act
between the event wait of a blocking call and its lock.
-/

namespace DVP.Sosal

/-- The bytes of a message of a queue with `msgSize = n`. -/
abbrev Message (n : Nat) := { bs : List UInt8 // bs.length = n }

/-- `queue_t`. The two events are manual-reset ones (`event_init(…, false_e)`), so each is its
`set` flag. -/
structure Queue where
  active : Bool
  popped : Bool
  ringb : Ring
  msgSize : Nat
  numMsgs : Nat
  msgCount : Nat
  readEvent : Bool
  writeEvent : Bool
  deriving DecidableEq, Repr

variable (a : Arch)

/-- `queue_create`, where `start` is the buffer `ring_create` allocated, if it could. -/
def queueCreate (numMsgs msgSize : Nat) (start : Option Nat) : Option Queue := do
  let ringb ← ringCreate (a.mul msgSize numMsgs) start
  return {
    active := true
    popped := false
    ringb := ringb
    msgSize := msgSize
    numMsgs := numMsgs
    msgCount := 0
    readEvent := false
    writeEvent := true }

/-- What a call has done when it unlocks the mutex. -/
structure Unlocked where
  queue : Queue
  /-- The value the call returns. -/
  ret : Bool
  /-- The bytes that went into the ring, or from the ring into the caller's buffer. -/
  moved : List UInt8
  deriving DecidableEq, Repr

/-- The part of `queue_write` from the lock to the unlock, entered with the given value of its
local variable `ret`. -/
def queueWriteLocked (q : Queue) (ret : Bool) (datum : List UInt8) : Except Fault Unlocked :=
  if q.active && !q.popped then do
    let (r, ringb) ← ringWrite a q.ringb datum
    return {
      queue := { q with
        ringb := ringb
        msgCount := if r = q.msgSize then a.add q.msgCount 1 else q.msgCount
        writeEvent := decide (ringb.numBytesFree > 0)
        readEvent := if ringb.numBytesUsed > 0 then true else q.readEvent }
      ret := decide (r = q.msgSize)
      moved := datum.take r }
  else if q.popped then .ok ⟨q, false, []⟩
  else .ok ⟨q, ret, []⟩

/-- The part of `queue_read` from the lock to the unlock, entered with the given value of its
local variable `ret`. -/
def queueReadLocked (q : Queue) (ret : Bool) : Except Fault Unlocked :=
  if q.active && !q.popped then do
    let (bs, ringb) ← ringRead a q.ringb q.msgSize
    let r := bs.length
    return {
      queue := { q with
        ringb := ringb
        msgCount := if r = q.msgSize then a.sub q.msgCount 1 else q.msgCount
        writeEvent := if ringb.numBytesFree > 0 then true else q.writeEvent
        readEvent := decide (ringb.numBytesUsed > 0) }
      ret := decide (r = q.msgSize)
      moved := bs }
  else if q.popped then .ok ⟨q, false, []⟩
  else .ok ⟨q, ret, []⟩

/-- `queue_write` in one thread: a blocking call waits for the write event, whose wait returns
`true_e`. A `datum` that is `NULL` is refused. -/
def queueWrite (q : Queue) (blocking : Bool) : Option (List UInt8) → Except Fault Unlocked
  | none => .ok ⟨q, false, []⟩
  | some datum =>
    if blocking then
      if q.writeEvent then queueWriteLocked a q true datum else .error .blocked
    else queueWriteLocked a q false datum

/-- `queue_read` in one thread, into a buffer that is there (`datum`) or `NULL`. -/
def queueRead (q : Queue) (blocking datum : Bool) : Except Fault Unlocked :=
  if datum then
    if blocking then
      if q.readEvent then queueReadLocked a q true else .error .blocked
    else queueReadLocked a q false
  else .ok ⟨q, false, []⟩

/-- `queue_enable`. -/
def queueEnable (q : Queue) : Queue :=
  if q.active then q
  else { q with
    writeEvent := if q.ringb.numBytesFree > 0 then true else q.writeEvent
    readEvent := if q.ringb.numBytesUsed > 0 then true else q.readEvent
    active := true }

/-- `queue_disable`. -/
def queueDisable (q : Queue) : Queue :=
  if q.active then { q with readEvent := false, writeEvent := false, active := false } else q

/-- `queue_pop`. -/
def queuePop (q : Queue) : Queue :=
  { q with popped := true, readEvent := true, writeEvent := true }

/-- `queue_unpop`. -/
def queueUnpop (q : Queue) : Queue :=
  { q with
    popped := false
    writeEvent := decide (q.ringb.numBytesFree > 0)
    readEvent := decide (q.ringb.numBytesUsed > 0) }

/-- `queue_reset`, where `start` is the buffer `ring_create` allocated. When it could not, the
queue is destroyed and its mutex unlocked through the pointer that was set to `NULL`. -/
def queueReset (q : Queue) (start : Option Nat) : Except Fault Queue :=
  match ringCreate (a.mul q.msgSize q.numMsgs) start with
  | none => .error .nullPointer
  | some ringb => .ok { q with
      active := true
      popped := false
      ringb := ringb
      writeEvent := true
      readEvent := false }

/-- The operations of a queue of messages of `n` bytes. -/
inductive QueueOp (n : Nat) where
  | write (blocking : Bool) (datum : Option (Message n))
  | read (blocking datum : Bool)
  | reset (start : Option Nat)
  | pop
  | unpop
  | enable
  | disable
  deriving DecidableEq

/-- One operation on a queue by a single thread. The answer is the returned flag and the bytes
that moved. -/
def queueStep {n : Nat} (q : Queue) : QueueOp n → Except Fault (Queue × Bool × List UInt8)
  | .write blocking datum => do
    let u ← queueWrite a q blocking (datum.map Subtype.val)
    return (u.queue, u.ret, u.moved)
  | .read blocking datum => do
    let u ← queueRead a q blocking datum
    return (u.queue, u.ret, u.moved)
  | .reset start => do
    let q ← queueReset a q start
    return (q, true, [])
  | .pop => .ok (queuePop q, true, [])
  | .unpop => .ok (queueUnpop q, true, [])
  | .enable => .ok (queueEnable q, true, [])
  | .disable => .ok (queueDisable q, true, [])

end DVP.Sosal
