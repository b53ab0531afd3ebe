import DVP.Lib.Fifo
import DVP.Sosal.Queue.Counters

/-!
# The queue of a worker

A pool makes the queue of a worker with `queue_create`, writes to it without blocking and reads it
in one thread, which blocks. Until the pool is destroyed the queue is enabled and not popped, and
then it behaves as a bounded queue of messages: `queueCreate_isFifo`, `queueWrite_isFifo` and
`queueRead_isFifo`.
-/

namespace DVP.Sosal

variable {a : Arch} {n : Nat} {q : Queue} {f : Fifo (Message n)}

/-- The queue of a worker holds the items of `f`, and its read event tells whether there are any. -/
structure IsFifo (a : Arch) (q : Queue) (f : Fifo (Message n)) : Prop where
  holds : QueueHolds a q f.items
  capacity : q.capacity a = f.capacity * n
  active : q.active = true
  popped : q.popped = false
  readEvent : q.readEvent = true ↔ f.items ≠ []

/-- The queues of a pool, if the size of the ring is a `size_t`. -/
theorem queueCreate_isFifo {numMsgs : Nat} {start : Option Nat} (hsize : n * numMsgs < a.size)
    (h : queueCreate a numMsgs n start = some q) :
    IsFifo a q (Fifo.empty numMsgs : Fifo (Message n)) := by
  have hholds := queueHolds_create (n := n) h
  cases start with
  | none => cases h
  | some start =>
    cases h
    refine ⟨hholds, ?_, rfl, rfl, iff_of_false Bool.false_ne_true (by simp)⟩
    rw [Queue.capacity, Arch.mul_of_lt hsize, Nat.mul_comm]
    rfl

/-- An open queue accepts a message exactly when its ring has room for it. -/
theorem queueWriteLocked_ret_iff (hn : 0 < n) {ms : List (Message n)} (h : QueueHolds a q ms)
    (hactive : q.active = true) (hpopped : q.popped = false) {ret : Bool} {d : Message n}
    {u : Unlocked} (hu : queueWriteLocked a q ret d.val = .ok u) :
    u.ret = true ↔ ms.length * n + n ≤ q.capacity a := by
  have hlen := d.property
  have hle := h.ring.le_total
  have hwrite := h.ring.write Queue.capacity_lt (b := d.val) (by omega)
  rw [length_flat] at hwrite hle
  rw [queueWriteLocked, if_pos (by simp [hactive, hpopped])] at hu
  split_ifs at hwrite with hroom
  · obtain ⟨rb, hwrite, -⟩ := hwrite
    rw [hwrite] at hu
    cases hu
    exact iff_of_true (by simp [hlen, h.msgSize_eq]) (by omega)
  · rw [hwrite] at hu
    cases hu
    have hzero : ¬0 = q.msgSize := by
      rw [h.msgSize_eq]
      omega
    exact iff_of_false (by simp [hzero]) (by omega)

/-- `queue_write` without blocking is a push. -/
theorem queueWrite_isFifo (hn : 0 < n) (h : IsFifo a q f) (d : Message n) :
    ∃ u, queueWrite a q false (some d.val) = .ok u ∧
      match f.push d with
      | some f' => u.ret = true ∧ IsFifo a u.queue f'
      | none => u.ret = false ∧ IsFifo a u.queue f := by
  obtain ⟨u, hu, ⟨hclosed, -⟩ | ⟨-, -, rb, hq, hrb⟩⟩ := queueWriteLocked_cases hn h.holds false d
  · exact absurd ⟨h.active, h.popped⟩ hclosed
  refine ⟨u, hu, ?_⟩
  have hret := queueWriteLocked_ret_iff hn h.holds h.active h.popped hu
  rw [h.capacity, ← Nat.add_one_mul, Nat.mul_le_mul_right_iff hn] at hret
  rcases hrb with ⟨htrue, -, hrep⟩ | ⟨hfalse, -, rfl⟩
  · obtain ⟨f', hpush⟩ := Fifo.exists_push (x := d) (hret.mp htrue)
    rw [hpush]
    refine ⟨htrue, ?_, ?_, ?_, ?_, ?_⟩
    · rw [hq, Fifo.items_of_push hpush]
      exact h.holds.of_ring rfl rfl hrep
    · rw [hq, Fifo.capacity_of_push hpush]
      exact h.capacity
    · rw [hq]
      exact h.active
    · rw [hq]
      exact h.popped
    · -- The ring holds at least the message that was written.
      have hused : rb.numBytesUsed > 0 := by
        have hlen := d.property
        rw [hrep.used_eq, flat_append_singleton, List.length_append]
        omega
      rw [hq, Fifo.items_of_push hpush]
      exact iff_of_true (if_pos hused) (by simp)
  · have hfull : f.push d = none := by
      rw [Fifo.push, dif_neg fun hroom => ?_]
      rw [hret.mpr hroom] at hfalse
      cases hfalse
    rw [hfull]
    refine ⟨hfalse, ?_, ?_, ?_, ?_, ?_⟩
    · rw [hq]
      exact h.holds.of_ring rfl rfl h.holds.ring
    · rw [hq]
      exact h.capacity
    · rw [hq]
      exact h.active
    · rw [hq]
      exact h.popped
    · rw [hq]
      dsimp only
      split_ifs with hused
      · refine iff_of_true rfl fun hnil => ?_
        rw [h.holds.used_eq, hnil] at hused
        simp at hused
      · exact h.readEvent

/-- `queue_read` that blocks is a pop, and it waits when there is nothing to pop. -/
theorem queueRead_isFifo (hn : 0 < n) (h : IsFifo a q f) :
    match f.pop with
    | some (d, f') => ∃ u, queueRead a q true true = .ok u ∧ u.ret = true ∧ u.moved = d.val ∧
        IsFifo a u.queue f'
    | none => queueRead a q true true = .error .blocked := by
  split
  · next d f' hpop =>
    have hitems := Fifo.items_of_pop hpop
    have hevent : q.readEvent = true := h.readEvent.mpr (by rw [hitems]; exact List.cons_ne_nil _ _)
    obtain ⟨u, hu, ⟨hclosed, -⟩ | ⟨-, -, rb, hq, hrb⟩⟩ := queueReadLocked_cases hn h.holds true
    · exact absurd ⟨h.active, h.popped⟩ hclosed
    rcases hrb with ⟨d', ms, hms, htrue, hmoved, hrep⟩ | ⟨hnil, -⟩
    · obtain ⟨rfl, rfl⟩ := List.cons.inj (hitems.symm.trans hms)
      refine ⟨u, ?_, htrue, hmoved, ?_, ?_, ?_, ?_, ?_⟩
      · rw [queueRead, if_pos rfl, if_pos rfl, if_pos hevent]
        exact hu
      · rw [hq]
        exact h.holds.of_ring rfl rfl hrep
      · rw [hq, Fifo.capacity_of_pop hpop]
        exact h.capacity
      · rw [hq]
        exact h.active
      · rw [hq]
        exact h.popped
      · rw [hq]
        dsimp only
        rw [decide_eq_true_iff, hrep.used_eq, length_flat, gt_iff_lt, Nat.mul_pos_iff_of_pos_right hn,
          List.length_pos_iff]
    · rw [hitems] at hnil
      cases hnil
  · next hpop =>
    have hevent : ¬q.readEvent = true := fun hset =>
      h.readEvent.mp hset (Fifo.pop_eq_none_iff.mp hpop)
    rw [queueRead, if_pos rfl, if_pos rfl, if_neg hevent]

end DVP.Sosal
