import DVP.Lib.Overwrite
import DVP.Sosal.Types

/-!
# The ring buffer

The byte ring of `source/sosal/ring.c`. Pointers are addresses and the buffer is the list of
the bytes from `start` on, so that a `memcpy` outside the buffer shows as a fault.
-/

namespace DVP.Sosal

/-- `ring_t`, with the memory its buffer pointers point into. -/
structure Ring where
  /-- The bytes of the buffer, from `start` on. -/
  mem : List UInt8
  totalNumBytes : Nat
  numBytesUsed : Nat
  numBytesFree : Nat
  start : Nat
  /-- The address past the last byte of the buffer. -/
  endPtr : Nat
  front : Nat
  back : Nat
  deriving DecidableEq, Repr

/-- `ring_create`, where `start` is the zeroed buffer `calloc` returned, if both of its
allocations succeeded. -/
def ringCreate (totalNumBytes : Nat) : (start : Option Nat) → Option Ring
  | none => none
  | some start => some
    { mem := List.replicate totalNumBytes 0
      totalNumBytes := totalNumBytes
      numBytesUsed := 0
      numBytesFree := totalNumBytes
      start := start
      endPtr := start + totalNumBytes
      front := start
      back := start }

namespace Ring

/-- `memcpy(p, bs, |bs|)` into the buffer. -/
def store (rb : Ring) (p : Nat) (bs : List UInt8) : Except Fault Ring :=
  if rb.start ≤ p ∧ p + bs.length ≤ rb.start + rb.mem.length then
    .ok { rb with mem := rb.mem.overwrite (p - rb.start) bs }
  else .error .outOfBounds

/-- `memcpy(b, p, n)` out of the buffer. -/
def load (rb : Ring) (p n : Nat) : Except Fault (List UInt8) :=
  if rb.start ≤ p ∧ p + n ≤ rb.start + rb.mem.length then
    .ok (rb.mem.segment (p - rb.start) n)
  else .error .outOfBounds

end Ring

variable (a : Arch)

/-- The statements every write is made of: copy the bytes to `back`, move it behind them and
account for them. -/
def ringPut (rb : Ring) (bs : List UInt8) : Except Fault Ring := do
  let rb ← rb.store rb.back bs
  return { rb with
    back := rb.back + bs.length
    numBytesFree := a.sub rb.numBytesFree bs.length
    numBytesUsed := a.add rb.numBytesUsed bs.length }

/-- The statements every read is made of: copy `n` bytes from `front`, move it behind them and
account for them. -/
def ringTake (rb : Ring) (n : Nat) : Except Fault (List UInt8 × Ring) := do
  let bs ← rb.load rb.front n
  return (bs, { rb with
    front := rb.front + n
    numBytesFree := a.add rb.numBytesFree n
    numBytesUsed := a.sub rb.numBytesUsed n })

/-- The write that wraps the ring around: fill up to the end, and go on at the start. -/
def ringPutWrapped (rb : Ring) (b : List UInt8) (end_to_back : Nat) : Except Fault Ring := do
  let left_over := b.length - end_to_back
  let rb ← ringPut a rb (b.take end_to_back)
  let rb := { rb with back := rb.start }
  if left_over > 0 then ringPut a rb (b.drop end_to_back) else return rb

/-- The read that wraps the ring around: read up to the end, and go on at the start as far as
`back`. -/
def ringTakeWrapped (rb : Ring) (len end_to_front : Nat) :
    Except Fault (List UInt8 × Ring) := do
  let left_over := len - end_to_front
  let (bs, rb) ← ringTake a rb end_to_front
  let rb := { rb with front := rb.start }
  if left_over > 0 then
    let back_to_start := rb.back - rb.start
    let readLen := if left_over ≤ back_to_start then left_over else back_to_start
    if readLen > 0 then
      let (bs', rb) ← ringTake a rb readLen
      return (bs ++ bs', rb)
    else return (bs, rb)
  else return (bs, rb)

/-- `ring_write` of the `len = |b|` bytes at `b`. Returns the number of bytes written. -/
def ringWrite (rb : Ring) (b : List UInt8) : Except Fault (Nat × Ring) :=
  let len := b.length
  if len > rb.numBytesFree then .ok (0, rb)
  else if len = 1 then do
    let rb ← ringPut a rb b
    return (1, { rb with back := if rb.back = rb.endPtr then rb.start else rb.back })
  -- non-inverted (back is higher than front)
  else if rb.back > rb.front then do
    let end_to_back := rb.endPtr - rb.back
    let rb ← if end_to_back > len then ringPut a rb b else ringPutWrapped a rb b end_to_back
    return (len, rb)
  -- inverted pointers (front is higher than back)
  else if rb.front > rb.back then
    let front_to_back := rb.front - rb.back
    if len ≤ front_to_back then do
      let rb ← ringPut a rb b
      return (len, rb)
    else .error .assertion
  -- they're equal
  else if rb.numBytesFree = 0 then .error .assertion
  else if rb.numBytesUsed = 0 then
    if len > rb.totalNumBytes then .error .assertion
    else do
      let end_to_back := rb.endPtr - rb.back
      let rb ← if len < end_to_back then ringPut a rb b else ringPutWrapped a rb b end_to_back
      return (len, rb)
  else if a.add rb.numBytesFree rb.numBytesUsed = rb.totalNumBytes then .ok (0, rb)
  else .error .assertion

/-- `ring_read` of up to `len` bytes. Returns the bytes placed in the caller's buffer, of which
the code returns the number. -/
def ringRead (rb : Ring) (len : Nat) : Except Fault (List UInt8 × Ring) :=
  if rb.numBytesUsed = 0 then .ok ([], rb)
  else if len = 1 then do
    let (bs, rb) ← ringTake a rb 1
    return (bs, { rb with front := if rb.front = rb.endPtr then rb.start else rb.front })
  -- non-inverted
  else if rb.back > rb.front then
    let back_to_front := rb.back - rb.front
    ringTake a rb (if len < back_to_front then len else back_to_front)
  -- inverted case (ring wrapped)
  else if rb.front > rb.back then
    let end_to_front := rb.endPtr - rb.front
    if len < end_to_front then ringTake a rb len else ringTakeWrapped a rb len end_to_front
  -- they're equal
  else if rb.numBytesFree = 0 then
    let end_to_front := rb.endPtr - rb.front
    if len < end_to_front then ringTake a rb len else ringTakeWrapped a rb len end_to_front
  else if rb.numBytesUsed = 0 then .error .assertion
  else if a.add rb.numBytesFree rb.numBytesUsed = rb.totalNumBytes then .ok ([], rb)
  else .error .assertion

end DVP.Sosal
