import DVP.Sosal.Queue.Basic
import DVP.Sosal.Ring.Refinement

/-!
# The message count and the events of a queue

`QueueHolds a q ms` says that the ring of the queue `q` holds the messages `ms`. The two locked
regions have one specification lemma each (`queueWriteLocked_cases`, `queueReadLocked_cases`),
and the count and the event properties follow from these:

* `queue_count_iff`: the message count agrees with the ring in all states of a run exactly when
  no `queue_reset` of the run finds a message counted, because `queue_reset` leaves `msgCount`
  as it was;
* `queue_events_iff`: the two events agree with the state of the queue in all states of a run
  exactly when the ring has a byte of room at first, no `queue_disable` finds the queue popped
  and active, and no `queue_unpop` finds it disabled.
-/

namespace DVP.Sosal

variable {a : Arch} {n : Nat} {q : Queue}

/-- The bytes of the messages, one message after the other. -/
def flat (ms : List (Message n)) : List UInt8 := (ms.map Subtype.val).flatten

theorem length_flat (ms : List (Message n)) : (flat ms).length = ms.length * n := by
  induction ms with
  | nil => simp [flat]
  | cons m ms ih =>
    have hm := m.property
    rw [flat] at ih ⊢
    rw [List.map_cons, List.flatten_cons, List.length_append, ih, hm, List.length_cons,
      Nat.add_one_mul, Nat.add_comm]

theorem flat_append_singleton (ms : List (Message n)) (m : Message n) :
    flat (ms ++ [m]) = flat ms ++ m.val := by
  simp [flat]

theorem flat_cons (m : Message n) (ms : List (Message n)) :
    flat (m :: ms) = m.val ++ flat ms := by
  simp [flat]

/-- The number of bytes of the ring of a queue, a product in `size_t`. -/
def Queue.capacity (a : Arch) (q : Queue) : Nat := a.mul q.msgSize q.numMsgs

theorem Queue.capacity_lt : q.capacity a < a.size := a.wrap_lt _

/-- The ring of the queue holds the messages `ms`, oldest first. -/
structure QueueHolds (a : Arch) (q : Queue) (ms : List (Message n)) : Prop where
  msgSize_eq : q.msgSize = n
  ring : RingRep (q.capacity a) q.ringb (flat ms)

/-- A created queue is empty. -/
theorem queueHolds_create {numMsgs : Nat} {start : Option Nat}
    (h : queueCreate a numMsgs n start = some q) : QueueHolds a q ([] : List (Message n)) := by
  cases start with
  | none => cases h
  | some start =>
    cases h
    exact ⟨rfl, ringRep_create rfl⟩

theorem QueueHolds.used_eq {ms : List (Message n)} (h : QueueHolds a q ms) :
    q.ringb.numBytesUsed = ms.length * n := by
  rw [h.ring.used_eq, length_flat]

/-- What `queue_write` does between the lock and the unlock: nothing on a queue that is disabled
or popped, and otherwise append the message whole or refuse it, and bring the events up to
date. -/
theorem queueWriteLocked_cases (hn : 0 < n) {ms : List (Message n)} (h : QueueHolds a q ms)
    (ret : Bool) (d : Message n) :
    ∃ u, queueWriteLocked a q ret d.val = .ok u ∧
      ((¬(q.active = true ∧ q.popped = false) ∧ u = ⟨q, ret && !q.popped, []⟩) ∨
        (q.active = true ∧ q.popped = false ∧ ∃ rb, u.queue = { q with
            ringb := rb
            msgCount := if u.ret then a.add q.msgCount 1 else q.msgCount
            writeEvent := decide (rb.numBytesFree > 0)
            readEvent := if rb.numBytesUsed > 0 then true else q.readEvent } ∧
          ((u.ret = true ∧ u.moved = d.val ∧ RingRep (q.capacity a) rb (flat (ms ++ [d]))) ∨
            (u.ret = false ∧ u.moved = [] ∧ rb = q.ringb)))) := by
  by_cases hopen : q.active = true ∧ q.popped = false
  · obtain ⟨hactive, hpopped⟩ := hopen
    have hlen := d.property
    have hwrite := h.ring.write Queue.capacity_lt (b := d.val) (by omega)
    rw [queueWriteLocked, if_pos (by simp [hactive, hpopped])]
    split_ifs at hwrite with hroom
    · obtain ⟨rb, hwrite, hrep⟩ := hwrite
      rw [flat_append_singleton]
      refine ⟨_, by rw [hwrite]; rfl, .inr ⟨hactive, hpopped, rb, ?_, .inl ⟨?_, ?_, hrep⟩⟩⟩
      · simp [hlen, h.msgSize_eq]
      · simp [hlen, h.msgSize_eq]
      · exact List.take_length
    · have hzero : ¬0 = q.msgSize := by
        rw [h.msgSize_eq]
        omega
      refine ⟨_, by rw [hwrite]; rfl, .inr ⟨hactive, hpopped, q.ringb, ?_, .inr ⟨?_, ?_, rfl⟩⟩⟩
      · simp [hzero]
      · simp [hzero]
      · simp
  · refine ⟨⟨q, ret && !q.popped, []⟩, ?_, .inl ⟨hopen, rfl⟩⟩
    rw [queueWriteLocked, if_neg (by simpa using hopen)]
    cases hpopped : q.popped <;> simp

/-- What `queue_read` does between the lock and the unlock: nothing on a queue that is disabled
or popped, and otherwise remove the oldest message whole, if there is one, and bring the events
up to date. -/
theorem queueReadLocked_cases (hn : 0 < n) {ms : List (Message n)} (h : QueueHolds a q ms)
    (ret : Bool) :
    ∃ u, queueReadLocked a q ret = .ok u ∧
      ((¬(q.active = true ∧ q.popped = false) ∧ u = ⟨q, ret && !q.popped, []⟩) ∨
        (q.active = true ∧ q.popped = false ∧ ∃ rb, u.queue = { q with
            ringb := rb
            msgCount := if u.ret then a.sub q.msgCount 1 else q.msgCount
            writeEvent := if rb.numBytesFree > 0 then true else q.writeEvent
            readEvent := decide (rb.numBytesUsed > 0) } ∧
          ((∃ d ms', ms = d :: ms' ∧ u.ret = true ∧ u.moved = d.val ∧
              RingRep (q.capacity a) rb (flat ms')) ∨
            (ms = [] ∧ u.ret = false ∧ u.moved = [] ∧ rb = q.ringb)))) := by
  by_cases hopen : q.active = true ∧ q.popped = false
  · obtain ⟨hactive, hpopped⟩ := hopen
    rw [queueReadLocked, if_pos (by simp [hactive, hpopped])]
    cases ms with
    | nil =>
      have hread : ringRead a q.ringb q.msgSize = .ok ([], q.ringb) := by
        rw [ringRead, if_pos (by simpa using h.used_eq)]
      -- nothing was read, and that is not the size of a message
      have hzero : ¬0 = q.msgSize := by
        rw [h.msgSize_eq]
        omega
      refine ⟨_, by rw [hread]; rfl,
        .inr ⟨hactive, hpopped, q.ringb, ?_, .inr ⟨rfl, ?_, rfl, rfl⟩⟩⟩
      · simp [hzero]
      · simp [hzero]
    | cons d ms =>
      have hlen := d.property
      obtain ⟨rb, hread, hrep⟩ := h.ring.read Queue.capacity_lt q.msgSize
      have htake : (flat (d :: ms)).take q.msgSize = d.val := by
        rw [flat_cons, h.msgSize_eq, List.take_left' hlen]
      have hdrop : (flat (d :: ms)).drop q.msgSize = flat ms := by
        rw [flat_cons, h.msgSize_eq, List.drop_left' hlen]
      rw [htake] at hread
      rw [hdrop] at hrep
      refine ⟨_, by rw [hread]; rfl,
        .inr ⟨hactive, hpopped, rb, ?_, .inl ⟨d, ms, rfl, ?_, rfl, hrep⟩⟩⟩
      · simp [hlen, h.msgSize_eq]
      · simp [hlen, h.msgSize_eq]
  · refine ⟨⟨q, ret && !q.popped, []⟩, ?_, .inl ⟨hopen, rfl⟩⟩
    rw [queueReadLocked, if_neg (by simpa using hopen)]
    cases hpopped : q.popped <;> simp

/-- A `queue_write` that returned did nothing, or went through the lock. The wait of a blocking
call left `true_e` in `ret`. -/
theorem queueStep_write {blocking : Bool} {datum : Option (Message n)} {q' : Queue}
    {r : Bool × List UInt8} (h : queueStep a q (.write blocking datum) = .ok (q', r)) :
    q' = q ∨ ∃ d : Message n, ∃ u, queueWriteLocked a q blocking d.val = .ok u ∧ q' = u.queue := by
  obtain ⟨u, hu, hret⟩ := bind_eq_ok h
  cases hret
  cases datum with
  | none =>
    cases hu
    exact .inl rfl
  | some d =>
    rw [Option.map_some, queueWrite] at hu
    split_ifs at hu with hblock
    · exact .inr ⟨d, u, hblock ▸ hu, rfl⟩
    · exact .inr ⟨d, u, (Bool.eq_false_iff.mpr hblock) ▸ hu, rfl⟩

/-- A `queue_read` that returned did nothing, or went through the lock. -/
theorem queueStep_read {blocking datum : Bool} {q' : Queue} {r : Bool × List UInt8}
    (h : queueStep a q (.read blocking datum : QueueOp n) = .ok (q', r)) :
    q' = q ∨ ∃ u, queueReadLocked a q blocking = .ok u ∧ q' = u.queue := by
  obtain ⟨u, hu, hret⟩ := bind_eq_ok h
  cases hret
  rw [queueRead] at hu
  split_ifs at hu with hdatum hblock
  · exact .inr ⟨u, hblock ▸ hu, rfl⟩
  · exact .inr ⟨u, (Bool.eq_false_iff.mpr hblock) ▸ hu, rfl⟩
  · cases hu
    exact .inl rfl

/-! ## The message count -/

/-- The count times the message size is the number of bytes in the ring, and the count is zero
exactly when there is nothing to read. -/
def CountExact (q : Queue) : Prop :=
  q.msgCount * q.msgSize = q.ringb.numBytesUsed ∧ (q.msgCount = 0 ↔ q.ringb.numBytesUsed = 0)

/-- A `queue_reset` whose allocation succeeds finds no message counted. -/
def ResetFindsNone (q : Queue) : QueueOp n → Prop
  | .reset (some _) => q.msgCount = 0
  | _ => True

/-- The ring holds as many messages as are counted. -/
def Counted (a : Arch) (n : Nat) (q : Queue) : Prop :=
  ∃ ms : List (Message n), QueueHolds a q ms ∧ q.msgCount = ms.length

theorem Counted.exact (hn : 0 < n) (h : Counted a n q) : CountExact q := by
  obtain ⟨ms, hold, hcount⟩ := h
  have hused := hold.used_eq
  refine ⟨by rw [hused, hcount, hold.msgSize_eq], ?_⟩
  rw [hused, hcount, Nat.mul_eq_zero]
  omega

/-- `queue_write` keeps the count. -/
theorem Counted.writeLocked (hn : 0 < n) (h : Counted a n q) (ret : Bool) (d : Message n) :
    ∃ u, queueWriteLocked a q ret d.val = .ok u ∧ Counted a n u.queue := by
  obtain ⟨ms, hold, hcount⟩ := h
  obtain ⟨u, hu, ⟨-, rfl⟩ | ⟨-, -, rb, hq, ⟨hret, -, hrep⟩ | ⟨hret, -, rfl⟩⟩⟩ :=
    queueWriteLocked_cases hn hold ret d
  · exact ⟨_, hu, ms, hold, hcount⟩
  · refine ⟨u, hu, ms ++ [d], ?_, ?_⟩
    · rw [hq]
      exact ⟨hold.msgSize_eq, hrep⟩
    · -- the messages fit into the ring, so the count does not wrap
      have hle := hrep.le_total
      rw [length_flat, List.length_append, List.length_singleton] at hle
      have hlt := Queue.capacity_lt (a := a) (q := q)
      have hmul : ms.length + 1 ≤ (ms.length + 1) * n := Nat.le_mul_of_pos_right _ hn
      rw [hq, if_pos hret, hcount, List.length_append, List.length_singleton]
      exact Arch.add_of_lt (by omega)
  · refine ⟨u, hu, ms, ?_, ?_⟩
    · rw [hq]
      exact ⟨hold.msgSize_eq, hold.ring⟩
    · rw [hq]
      simpa [hret] using hcount

/-- `queue_read` keeps the count. -/
theorem Counted.readLocked (hn : 0 < n) (h : Counted a n q) (ret : Bool) :
    ∃ u, queueReadLocked a q ret = .ok u ∧ Counted a n u.queue := by
  obtain ⟨ms, hold, hcount⟩ := h
  obtain ⟨u, hu, ⟨-, rfl⟩ | ⟨-, -, rb, hq, ⟨d, ms', rfl, hret, -, hrep⟩ | ⟨rfl, hret, -, rfl⟩⟩⟩ :=
    queueReadLocked_cases hn hold ret
  · exact ⟨_, hu, ms, hold, hcount⟩
  · refine ⟨u, hu, ms', ?_, ?_⟩
    · rw [hq]
      exact ⟨hold.msgSize_eq, hrep⟩
    · have hle := hold.ring.le_total
      rw [length_flat, List.length_cons] at hle
      have hlt := Queue.capacity_lt (a := a) (q := q)
      have hmul : ms'.length + 1 ≤ (ms'.length + 1) * n := Nat.le_mul_of_pos_right _ hn
      rw [hq, if_pos hret, hcount, List.length_cons]
      exact Arch.sub_of_le (by omega) (by omega)
  · refine ⟨u, hu, [], ?_, ?_⟩
    · rw [hq]
      exact ⟨hold.msgSize_eq, hold.ring⟩
    · rw [hq]
      simpa [hret] using hcount

/-- The operations other than reads, writes and resets leave the ring and the count alone. -/
theorem Counted.of_eq {q' : Queue} (h : Counted a n q) (hring : q'.ringb = q.ringb)
    (hsize : q'.msgSize = q.msgSize) (hnum : q'.numMsgs = q.numMsgs)
    (hcount : q'.msgCount = q.msgCount) : Counted a n q' := by
  obtain ⟨ms, hold, hcounted⟩ := h
  refine ⟨ms, ⟨hsize.trans hold.msgSize_eq, ?_⟩, hcount.trans hcounted⟩
  rw [hring, Queue.capacity, hsize, hnum]
  exact hold.ring

/-- Every operation keeps the count, a reset provided it finds no message counted. -/
theorem Counted.step (hn : 0 < n) {op : QueueOp n} {q' : Queue} {r : Bool × List UInt8}
    (h : Counted a n q) (hop : ResetFindsNone q op) (hstep : queueStep a q op = .ok (q', r)) :
    Counted a n q' := by
  cases op with
  | write blocking datum =>
    obtain rfl | ⟨d, u, hu, rfl⟩ := queueStep_write hstep
    · exact h
    · obtain ⟨u', hu', hcount⟩ := h.writeLocked hn blocking d
      cases hu.symm.trans hu'
      exact hcount
  | read blocking datum =>
    obtain rfl | ⟨u, hu, rfl⟩ := queueStep_read hstep
    · exact h
    · obtain ⟨u', hu', hcount⟩ := h.readLocked hn blocking
      cases hu.symm.trans hu'
      exact hcount
  | reset start =>
    cases start with
    | none => cases hstep
    | some start =>
      obtain ⟨ms, hold, -⟩ := h
      cases hstep
      exact ⟨[], ⟨hold.msgSize_eq, ringRep_create rfl⟩, hop⟩
  | pop =>
    cases hstep
    exact h.of_eq rfl rfl rfl rfl
  | unpop =>
    cases hstep
    exact h.of_eq rfl rfl rfl rfl
  | enable =>
    cases hstep
    by_cases hactive : q.active
    · rwa [queueEnable, if_pos hactive]
    · rw [queueEnable, if_neg hactive]
      exact h.of_eq rfl rfl rfl rfl
  | disable =>
    cases hstep
    rw [queueDisable]
    split_ifs
    · exact h.of_eq rfl rfl rfl rfl
    · exact h

/-- A reset that finds messages counted leaves them counted and the ring empty. -/
theorem CountExact.broken_by_reset {op : QueueOp n} (hop : ¬ResetFindsNone q op) :
    ∃ q' r, queueStep a q op = .ok (q', r) ∧ ¬CountExact q' := by
  cases op with
  | reset start =>
    cases start with
    | none => exact absurd trivial hop
    | some start =>
      refine ⟨_, _, rfl, fun hexact => hop ?_⟩
      exact hexact.2.mpr rfl
  | _ => exact absurd trivial hop

/-- The message count of a queue agrees with its ring in all states of a run of operations
exactly when no `queue_reset` of the run finds a message counted. -/
theorem queue_count_iff {numMsgs : Nat} {start : Option Nat} {q₀ : Queue} (hmsg : 0 < n)
    (hcreate : queueCreate a numMsgs n start = some q₀) (ops : List (QueueOp n)) :
    Machine.Always (queueStep a) CountExact q₀ ops ↔
      Machine.Meets (queueStep a) ResetFindsNone q₀ ops := by
  have hcounted : Counted a n q₀ := by
    refine ⟨[], queueHolds_create hcreate, ?_⟩
    cases start with
    | none => cases hcreate
    | some start =>
      cases hcreate
      rfl
  exact Machine.always_iff_meets (I := Counted a n) (fun q h => h.exact hmsg)
    (fun q op q' r h hop hstep => h.step hmsg hop hstep)
    (fun q op _ hop => CountExact.broken_by_reset hop) hcounted

/-- A queue of two messages of one byte, written to, read and reset when it is empty. -/
theorem queue_count_iff_two :
    Machine.Always (queueStep .arch32) CountExact
        ⟨true, false, ⟨[0, 0], 2, 0, 2, 4096, 4098, 4096, 4096⟩, 1, 2, 0, false, true⟩
        [.write false (some ⟨[7], rfl⟩), .read true true, .reset (some 8192)] ↔
      Machine.Meets (queueStep .arch32) ResetFindsNone
        ⟨true, false, ⟨[0, 0], 2, 0, 2, 4096, 4098, 4096, 4096⟩, 1, 2, 0, false, true⟩
        [.write false (some ⟨[7], rfl⟩), .read true true, .reset (some 8192)] :=
  @queue_count_iff .arch32 1 2 (some 4096) _ (by decide) rfl
    [.write false (some ⟨[7], rfl⟩), .read true true, .reset (some 8192)]

/-- A message is written and the queue reset: one message is counted, and the ring is empty. -/
theorem queue_reset_keeps_count :
    ∃ q₀ q answers, queueCreate .arch32 2 1 (some 4096) = some q₀ ∧
      Machine.run (queueStep .arch32) q₀
        [.write false (some (⟨[7], rfl⟩ : Message 1)), .reset (some 8192)] = .ok (q, answers) ∧
      q.msgCount = 1 ∧ q.ringb.numBytesUsed = 0 ∧ ¬CountExact q :=
  ⟨_, _, _, rfl, rfl, rfl, rfl, fun h => absurd (h.2.mpr rfl) (by decide)⟩

/-! ## The events -/

/-- On an active queue that is not popped the read event is set exactly when the ring holds
data and the write event exactly when it has room, on a popped one both are set, and on one that
is disabled and not popped both are reset. -/
structure EventsSound (q : Queue) : Prop where
  open_read : q.active = true → q.popped = false → (q.readEvent = true ↔ 0 < q.ringb.numBytesUsed)
  open_write : q.active = true → q.popped = false →
    (q.writeEvent = true ↔ 0 < q.ringb.numBytesFree)
  popped_read : q.popped = true → q.readEvent = true
  popped_write : q.popped = true → q.writeEvent = true
  disabled_read : q.active = false → q.popped = false → q.readEvent = false
  disabled_write : q.active = false → q.popped = false → q.writeEvent = false

/-- A `queue_disable` does not find the queue active and popped, and a `queue_unpop` finds it
active. -/
def FlagsAgree (q : Queue) : QueueOp n → Prop
  | .disable => ¬(q.active = true ∧ q.popped = true)
  | .unpop => q.active = true
  | _ => True

/-- A queue with room for a byte whose events are sound. -/
def Signalled (a : Arch) (n : Nat) (q : Queue) : Prop :=
  EventsSound q ∧ 0 < q.capacity a ∧ ∃ ms : List (Message n), QueueHolds a q ms

theorem QueueHolds.of_ring {q' : Queue} {ms ms' : List (Message n)} (h : QueueHolds a q ms)
    (hsize : q'.msgSize = q.msgSize) (hnum : q'.numMsgs = q.numMsgs)
    (hring : RingRep (q.capacity a) q'.ringb (flat ms')) : QueueHolds a q' ms' := by
  refine ⟨hsize.trans h.msgSize_eq, ?_⟩
  rwa [Queue.capacity, hsize, hnum]

/-- A ring with room for a byte is not full and empty at once. -/
theorem QueueHolds.used_or_free {ms : List (Message n)} (h : QueueHolds a q ms)
    (hcap : 0 < q.capacity a) : 0 < q.ringb.numBytesUsed ∨ 0 < q.ringb.numBytesFree := by
  have hle := h.ring.le_total
  rw [h.ring.used_eq, h.ring.free_eq]
  omega

/-- `queue_write` keeps the events sound. -/
theorem Signalled.writeLocked (hn : 0 < n) (h : Signalled a n q) (ret : Bool) (d : Message n) :
    ∃ u, queueWriteLocked a q ret d.val = .ok u ∧ Signalled a n u.queue := by
  obtain ⟨hev, hcap, ms, hold⟩ := h
  obtain ⟨u, hu, ⟨-, rfl⟩ | ⟨hactive, hpopped, rb, hq, hrb⟩⟩ := queueWriteLocked_cases hn hold ret d
  · exact ⟨_, hu, hev, hcap, ms, hold⟩
  refine ⟨u, hu, ?_⟩
  -- either way the read event is set exactly when the ring holds data
  have hread : (if rb.numBytesUsed > 0 then true else q.readEvent) = true ↔
      0 < rb.numBytesUsed := by
    rcases hrb with ⟨-, -, hrep⟩ | ⟨-, -, rfl⟩
    · have hlen := d.property
      have hused : 0 < rb.numBytesUsed := by
        rw [hrep.used_eq, flat_append_singleton, List.length_append]
        omega
      simp [hused]
    · have := hev.open_read hactive hpopped
      by_cases hused : q.ringb.numBytesUsed > 0 <;> simp_all
  have hcap' : 0 < u.queue.capacity a := by
    rw [hq]
    exact hcap
  refine ⟨?_, hcap', ?_⟩
  · rw [hq]
    constructor <;> simp_all
  · rcases hrb with ⟨-, -, hrep⟩ | ⟨-, -, rfl⟩
    · exact ⟨ms ++ [d], by rw [hq]; exact hold.of_ring rfl rfl hrep⟩
    · exact ⟨ms, by rw [hq]; exact hold.of_ring rfl rfl hold.ring⟩

/-- `queue_read` keeps the events sound. -/
theorem Signalled.readLocked (hn : 0 < n) (h : Signalled a n q) (ret : Bool) :
    ∃ u, queueReadLocked a q ret = .ok u ∧ Signalled a n u.queue := by
  obtain ⟨hev, hcap, ms, hold⟩ := h
  obtain ⟨u, hu, ⟨-, rfl⟩ | ⟨hactive, hpopped, rb, hq, hrb⟩⟩ := queueReadLocked_cases hn hold ret
  · exact ⟨_, hu, hev, hcap, ms, hold⟩
  refine ⟨u, hu, ?_⟩
  -- a queue that was read from has room, whether or not there was a message
  have hfree : 0 < rb.numBytesFree := by
    rcases hrb with ⟨d, ms', rfl, -, -, hrep⟩ | ⟨rfl, -, -, rfl⟩
    · have hle := hold.ring.le_total
      have hlen := d.property
      rw [flat_cons, List.length_append] at hle
      rw [hrep.free_eq]
      omega
    · rw [hold.ring.free_eq]
      simpa [flat] using hcap
  have hcap' : 0 < u.queue.capacity a := by
    rw [hq]
    exact hcap
  refine ⟨?_, hcap', ?_⟩
  · rw [hq]
    constructor <;> simp_all
  · rcases hrb with ⟨d, ms', rfl, -, -, hrep⟩ | ⟨rfl, -, -, rfl⟩
    · exact ⟨ms', by rw [hq]; exact hold.of_ring rfl rfl hrep⟩
    · exact ⟨[], by rw [hq]; exact hold.of_ring rfl rfl hold.ring⟩

/-- Every operation keeps the events sound, if the two flags agree where it rewrites them. -/
theorem Signalled.step (hn : 0 < n) {op : QueueOp n} {q' : Queue} {r : Bool × List UInt8}
    (h : Signalled a n q) (hop : FlagsAgree q op) (hstep : queueStep a q op = .ok (q', r)) :
    Signalled a n q' := by
  cases op with
  | write blocking datum =>
    obtain rfl | ⟨d, u, hu, rfl⟩ := queueStep_write hstep
    · exact h
    · obtain ⟨u', hu', hsig⟩ := h.writeLocked hn blocking d
      cases hu.symm.trans hu'
      exact hsig
  | read blocking datum =>
    obtain rfl | ⟨u, hu, rfl⟩ := queueStep_read hstep
    · exact h
    · obtain ⟨u', hu', hsig⟩ := h.readLocked hn blocking
      cases hu.symm.trans hu'
      exact hsig
  | reset start =>
    cases start with
    | none => cases hstep
    | some start =>
      obtain ⟨-, hcap, ms, hold⟩ := h
      cases hstep
      refine ⟨?_, hcap, [], hold.msgSize_eq, ringRep_create rfl⟩
      constructor <;> simp
      exact hcap
  -- `queue_pop` signals both events, for all that wait
  | pop =>
    obtain ⟨-, hcap, ms, hold⟩ := h
    cases hstep
    refine ⟨?_, hcap, ms, hold.of_ring rfl rfl hold.ring⟩
    constructor <;> simp [queuePop]
  | unpop =>
    obtain ⟨-, hcap, ms, hold⟩ := h
    cases hstep
    refine ⟨?_, hcap, ms, hold.of_ring rfl rfl hold.ring⟩
    have hactive : q.active = true := hop
    constructor <;> simp [queueUnpop, hactive]
  | enable =>
    cases hstep
    -- enabling an enabled queue does nothing
    by_cases hactive : q.active = true
    · rwa [queueEnable, if_pos hactive]
    obtain ⟨hev, hcap, ms, hold⟩ := h
    have hdis : q.active = false := by simpa using hactive
    rw [queueEnable, if_neg hactive]
    refine ⟨?_, hcap, ms, hold.of_ring rfl rfl hold.ring⟩
    constructor
    · intro _ hpopped
      have := hev.disabled_read hdis hpopped
      by_cases hused : q.ringb.numBytesUsed > 0 <;> simp_all
    · intro _ hpopped
      have := hev.disabled_write hdis hpopped
      by_cases hfree : q.ringb.numBytesFree > 0 <;> simp_all
    · intro hpopped
      have := hev.popped_read hpopped
      by_cases hused : q.ringb.numBytesUsed > 0 <;> simp_all
    · intro hpopped
      have := hev.popped_write hpopped
      by_cases hfree : q.ringb.numBytesFree > 0 <;> simp_all
    · intro h
      cases h
    · intro h
      cases h
  | disable =>
    cases hstep
    by_cases hactive : q.active = true
    · obtain ⟨hev, hcap, ms, hold⟩ := h
      have hpopped : q.popped = false := by simpa [FlagsAgree, hactive] using hop
      rw [queueDisable, if_pos hactive]
      refine ⟨?_, hcap, ms, hold.of_ring rfl rfl hold.ring⟩
      constructor <;> simp [hpopped]
    · rwa [queueDisable, if_neg hactive]

/-- Where the flags do not agree, the operation leaves the events unsound: a `queue_disable`
resets the events of a popped queue, and a `queue_unpop` sets one of a disabled queue. -/
theorem Signalled.broken (h : Signalled a n q) {op : QueueOp n} (hop : ¬FlagsAgree q op) :
    ∃ q' r, queueStep a q op = .ok (q', r) ∧ ¬EventsSound q' := by
  obtain ⟨-, hcap, ms, hold⟩ := h
  cases op with
  | disable =>
    obtain ⟨hactive, hpopped⟩ := not_not.mp hop
    refine ⟨_, _, rfl, fun hev => ?_⟩
    rw [queueDisable, if_pos hactive] at hev
    exact Bool.false_ne_true (hev.popped_read hpopped)
  | unpop =>
    have hdis : q.active = false := by simpa [FlagsAgree] using hop
    refine ⟨_, _, rfl, fun hev => ?_⟩
    have hread := hev.disabled_read hdis rfl
    have hwrite := hev.disabled_write hdis rfl
    simp only [queueUnpop, decide_eq_false_iff_not] at hread hwrite
    rcases hold.used_or_free hcap with hused | hfree
    · exact hread hused
    · exact hwrite hfree
  | _ => exact absurd trivial hop

/-- The events of a queue agree with its flags and its ring in all states of a run of operations
exactly when the ring was given a byte of room, no `queue_disable` of the run finds the queue
active and popped, and every `queue_unpop` finds it active. -/
theorem queue_events_iff {numMsgs : Nat} {start : Option Nat} {q₀ : Queue} (hmsg : 0 < n)
    (hcreate : queueCreate a numMsgs n start = some q₀) (ops : List (QueueOp n)) :
    Machine.Always (queueStep a) EventsSound q₀ ops ↔
      0 < a.mul n numMsgs ∧ Machine.Meets (queueStep a) FlagsAgree q₀ ops := by
  have hold : QueueHolds a q₀ ([] : List (Message n)) := queueHolds_create hcreate
  have hcap : q₀.capacity a = a.mul n numMsgs := by
    cases start with
    | none => cases hcreate
    | some start =>
      cases hcreate
      rfl
  have hopen : q₀.active = true ∧ q₀.popped = false ∧ q₀.writeEvent = true ∧
      q₀.readEvent = false := by
    cases start with
    | none => cases hcreate
    | some start =>
      cases hcreate
      exact ⟨rfl, rfl, rfl, rfl⟩
  obtain ⟨hactive, hpopped, hwrite, hread⟩ := hopen
  -- with room in the ring the queue starts well, and each step decides whether it stays so
  have hiff : 0 < q₀.capacity a → (Machine.Always (queueStep a) EventsSound q₀ ops ↔
      Machine.Meets (queueStep a) FlagsAgree q₀ ops) := by
    intro hpos
    have hfree : 0 < q₀.ringb.numBytesFree := by
      rw [hold.ring.free_eq]
      simpa [flat] using hpos
    have hused : q₀.ringb.numBytesUsed = 0 := by simpa using hold.used_eq
    have hsig : Signalled a n q₀ := by
      refine ⟨?_, hpos, [], hold⟩
      constructor <;> simp [hactive, hpopped, hwrite, hread, hfree, hused]
    exact Machine.always_iff_meets (I := Signalled a n) (fun q h => h.1)
      (fun q op q' r h hop hstep => h.step hmsg hop hstep) (fun q op h hop => h.broken hop) hsig
  rw [hcap] at hiff
  constructor
  · intro h
    have hfree := (h.head.open_write hactive hpopped).mp hwrite
    rw [hold.ring.free_eq, hcap] at hfree
    have hpos : 0 < a.mul n numMsgs := Nat.lt_of_lt_of_le hfree (Nat.sub_le _ _)
    exact ⟨hpos, (hiff hpos).mp h⟩
  · rintro ⟨hpos, h⟩
    exact (hiff hpos).mpr h

/-- A queue of two messages of one byte that is written to, popped and unpopped. -/
theorem queue_events_iff_two :
    Machine.Always (queueStep .arch32) EventsSound
        ⟨true, false, ⟨[0, 0], 2, 0, 2, 4096, 4098, 4096, 4096⟩, 1, 2, 0, false, true⟩
        [.write false (some ⟨[7], rfl⟩), .pop, .unpop] ↔
      0 < Arch.arch32.mul 1 2 ∧ Machine.Meets (queueStep .arch32) FlagsAgree
        ⟨true, false, ⟨[0, 0], 2, 0, 2, 4096, 4098, 4096, 4096⟩, 1, 2, 0, false, true⟩
        [.write false (some ⟨[7], rfl⟩), .pop, .unpop] :=
  @queue_events_iff .arch32 1 2 (some 4096) _ (by decide) rfl
    [.write false (some ⟨[7], rfl⟩), .pop, .unpop]

/-- A queue that is disabled and then unpopped has its write event set, and one that is popped
and then disabled has its read event reset. -/
theorem queue_flags_disagree :
    ∃ q₀, queueCreate .arch32 2 1 (some 4096) = some q₀ ∧
      (∃ q answers, Machine.run (queueStep .arch32) q₀ [(.disable : QueueOp 1), .unpop]
          = .ok (q, answers) ∧
        q.active = false ∧ q.popped = false ∧ q.writeEvent = true ∧ ¬EventsSound q) ∧
      ∃ q answers, Machine.run (queueStep .arch32) q₀ [(.pop : QueueOp 1), .disable]
          = .ok (q, answers) ∧
        q.popped = true ∧ q.readEvent = false ∧ ¬EventsSound q :=
  ⟨_, rfl,
    ⟨_, _, rfl, rfl, rfl, rfl, fun h => absurd (h.disabled_write rfl rfl) (by decide)⟩,
    ⟨_, _, rfl, rfl, rfl, fun h => absurd (h.popped_read rfl) (by decide)⟩⟩

end DVP.Sosal
