import DVP.Lib.Run
import DVP.Sosal.Queue.Counters

/-!
# A queue shared by threads

Any number of threads call the queue. A call is at most three atomic steps: the call itself, the
event wait of a blocking call, which does nothing while the event is not set, and the region
between the lock and the unlock. The record of the calls that went through says which bytes each
of them moved, and in which order.

* `queueSystem_fifo`: over every interleaving the messages delivered to readers are the first of
  the messages accepted from writers, in order, whole and once;
* `queue_transfers_iff`: in all states of an interleaving every `queue_write` that has returned
  returned `true_e` exactly when its message was appended, and every `queue_read` exactly when a
  message was delivered, if and only if no blocking call takes the lock of a queue that is
  disabled and not popped.
-/

namespace DVP.Sosal

/-- A call on the queue. A `datum` that is absent is a `NULL` pointer. -/
inductive QueueCall (n : Nat) where
  | write (blocking : Bool) (datum : Option (Message n))
  | read (blocking datum : Bool)
  | enable
  | disable
  | pop
  | unpop
  deriving DecidableEq

/-- Where a thread is. -/
inductive QueuePhase (n : Nat) where
  | idle
  /-- In the event wait of a blocking call. -/
  | waiting (c : QueueCall n)
  /-- About to take the lock, with this value of the local variable `ret`. -/
  | locking (c : QueueCall n) (ret : Bool)

/-- A call that returned: its value, and the bytes it moved into or out of the ring. -/
structure QueueReturn (n : Nat) where
  call : QueueCall n
  ret : Bool
  moved : List UInt8

/-- A queue, its threads, and the calls that have returned, in the order of their locks. -/
structure QueueSystem (n : Nat) where
  queue : Queue
  phase : Nat → QueuePhase n
  returns : List (QueueReturn n)

/-- The atomic steps of the thread `t`. -/
inductive QueueAct (n : Nat) where
  | call (t : Nat) (c : QueueCall n)
  | wait (t : Nat)
  | lock (t : Nat)

/-- Where a call starts: one with a `NULL` datum returns at once, a blocking one waits first. -/
def QueueCall.start {n : Nat} (c : QueueCall n) : Option (QueuePhase n) :=
  match c with
  | .write _ none => none
  | .read _ false => none
  | .write blocking (some _) => some (if blocking then .waiting c else .locking c false)
  | .read blocking true => some (if blocking then .waiting c else .locking c false)
  | _ => some (.locking c false)

namespace QueueSystem

variable {n : Nat}

/-- The queue before any thread calls it. -/
def initial (q : Queue) : QueueSystem n := ⟨q, fun _ => .idle, []⟩

def setPhase (s : QueueSystem n) (t : Nat) (p : QueuePhase n) : QueueSystem n :=
  { s with phase := Function.update s.phase t p }

/-- The messages writers put into the ring, in order. -/
def accepted (s : QueueSystem n) : List (List UInt8) :=
  s.returns.filterMap fun r => match r.call with
    | .write _ _ => if r.moved = [] then none else some r.moved
    | _ => none

/-- The messages readers got from the ring, in order. -/
def delivered (s : QueueSystem n) : List (List UInt8) :=
  s.returns.filterMap fun r => match r.call with
    | .read _ _ => if r.moved = [] then none else some r.moved
    | _ => none

/-- The start of a call. -/
def enter (s : QueueSystem n) (t : Nat) (c : QueueCall n) : QueueSystem n :=
  match c.start with
  | none => { s with returns := s.returns ++ [⟨c, false, []⟩] }
  | some p => s.setPhase t p

end QueueSystem

/-- The event a blocking call waits for. -/
def QueueCall.event {n : Nat} (q : Queue) : QueueCall n → Bool
  | .write _ _ => q.writeEvent
  | .read _ _ => q.readEvent
  | _ => true

variable (a : Arch)

/-- The region of a call between the lock and the unlock. -/
def queueLocked {n : Nat} (q : Queue) (ret : Bool) : QueueCall n → Except Fault Unlocked
  | .write _ (some d) => queueWriteLocked a q ret d.val
  | .write _ none => .ok ⟨q, false, []⟩
  | .read _ _ => queueReadLocked a q ret
  | .enable => .ok ⟨queueEnable q, ret, []⟩
  | .disable => .ok ⟨queueDisable q, ret, []⟩
  | .pop => .ok ⟨queuePop q, ret, []⟩
  | .unpop => .ok ⟨queueUnpop q, ret, []⟩

/-- One atomic step. A step its thread is not at does nothing. -/
def queueSystemStep {n : Nat} (s : QueueSystem n) :
    QueueAct n → Except Fault (QueueSystem n × Unit)
  | .call t c =>
    match s.phase t with
    | .idle => .ok (s.enter t c, ())
    | _ => .ok (s, ())
  | .wait t =>
    match s.phase t with
    | .waiting c => .ok (if c.event s.queue then s.setPhase t (.locking c true) else s, ())
    | _ => .ok (s, ())
  | .lock t =>
    match s.phase t with
    | .locking c ret => do
      let u ← queueLocked a s.queue ret c
      return ({ s.setPhase t .idle with
        queue := u.queue
        returns := s.returns ++ [⟨c, u.ret, u.moved⟩] }, ())
    | _ => .ok (s, ())

/-- A call told its caller the truth: a write that returned true appended its message, and one
that returned false appended nothing; likewise a read and the message it delivered. -/
def QueueReturn.Truthful {n : Nat} (r : QueueReturn n) : Prop :=
  match r.call with
  | .write _ (some d) => (r.ret = true ↔ r.moved = d.val) ∧ (r.ret = false ↔ r.moved = [])
  | .write _ none => r.ret = false ∧ r.moved = []
  | .read _ _ => (r.ret = true ↔ r.moved.length = n) ∧ (r.ret = false ↔ r.moved = [])
  | _ => True

/-- What was delivered is what was accepted first, and every call that returned was truthful. -/
structure TransfersSound {n : Nat} (s : QueueSystem n) : Prop where
  fifo : s.delivered <+: s.accepted
  truthful : ∀ r ∈ s.returns, r.Truthful

/-- A blocking call does not take the lock while the queue is disabled and not popped. -/
def LockFindsOpen {n : Nat} (s : QueueSystem n) : QueueAct n → Prop
  | .lock t =>
    match s.phase t with
    | .locking (.write _ (some _)) true | .locking (.read _ _) true =>
      s.queue.active = true ∨ s.queue.popped = true
    | _ => True
  | _ => True

/-- The ring holds the accepted messages that were not delivered yet. -/
def HoldsUndelivered (a : Arch) {n : Nat} (s : QueueSystem n) : Prop :=
  ∃ ms : List (Message n), QueueHolds a s.queue ms ∧
    s.accepted = s.delivered ++ ms.map Subtype.val

variable {a} {n : Nat} {s : QueueSystem n}

theorem HoldsUndelivered.fifo (h : HoldsUndelivered a s) : s.delivered <+: s.accepted := by
  obtain ⟨ms, -, heq⟩ := h
  exact ⟨_, heq.symm⟩

/-- A call that moved nothing adds to neither history. -/
theorem histories_of_moved_nil (s' : QueueSystem n) {r : QueueReturn n} (hr : r.moved = [])
    (hreturns : s'.returns = s.returns ++ [r]) :
    s'.accepted = s.accepted ∧ s'.delivered = s.delivered := by
  obtain ⟨c, ret, moved⟩ := r
  subst hr
  rw [QueueSystem.accepted, QueueSystem.accepted, QueueSystem.delivered, QueueSystem.delivered,
    hreturns, List.filterMap_append, List.filterMap_append]
  cases c <;> simp

/-- A message of a queue with `msgSize > 0` has a byte. -/
theorem message_ne_nil (hn : 0 < n) (d : Message n) : d.val ≠ [] := by
  have hlen := d.property
  intro hnil
  rw [hnil, List.length_nil] at hlen
  omega

/-- A call that finds the queue disabled or popped returns false if it does not come with true, or
the queue is popped. -/
theorem closed_ret_false {q : Queue} {ret : Bool} (hclosed : ¬(q.active = true ∧ q.popped = false))
    (hopen : ret = true → q.active = true ∨ q.popped = true) : (ret && !q.popped) = false := by
  cases ret with
  | false => rfl
  | true =>
    rcases hopen rfl with hactive | hpopped
    · have hpopped : q.popped = true := by simpa [hactive] using hclosed
      simp [hpopped]
    · simp [hpopped]

/-- The region of a call, entered with `ret`: which bytes it moves, and what it returns. -/
theorem queueLocked_spec (hn : 0 < n) {ms : List (Message n)} (h : QueueHolds a s.queue ms)
    (heq : s.accepted = s.delivered ++ ms.map Subtype.val) (ret : Bool) (c : QueueCall n) :
    ∃ u, queueLocked a s.queue ret c = .ok u ∧
      (∀ s' : QueueSystem n, s'.queue = u.queue → s'.returns = s.returns ++ [⟨c, u.ret, u.moved⟩] →
        HoldsUndelivered a s') ∧
      (((ret = true → s.queue.active = true ∨ s.queue.popped = true) →
        (⟨c, u.ret, u.moved⟩ : QueueReturn n).Truthful)) := by
  -- a call that moves no message leaves both histories as they are
  have hquiet : ∀ (q : Queue) (r : QueueReturn n), r.moved = [] → QueueHolds a q ms →
      ∀ s' : QueueSystem n, s'.queue = q → s'.returns = s.returns ++ [r] →
        HoldsUndelivered a s' := by
    intro q r hr hq s' hqueue hreturns
    obtain ⟨hacc, hdel⟩ := histories_of_moved_nil s' hr hreturns
    exact ⟨ms, hqueue ▸ hq, by rw [hacc, hdel, heq]⟩
  cases c with
  | write blocking datum =>
    cases datum with
    | none => exact ⟨_, rfl, hquiet _ _ rfl h, fun _ => ⟨rfl, rfl⟩⟩
    | some d =>
      have hd := message_ne_nil hn d
      obtain ⟨u, hu, ⟨hclosed, rfl⟩ | ⟨-, -, rb, hq, ⟨hret, hmoved, hrep⟩ | ⟨hret, hmoved, rfl⟩⟩⟩ :=
        queueWriteLocked_cases hn h ret d
      · refine ⟨_, hu, hquiet _ _ rfl h, fun hopen => ?_⟩
        simp [QueueReturn.Truthful, closed_ret_false hclosed hopen, hd.symm]
      · refine ⟨u, hu, fun s' hqueue hreturns => ⟨ms ++ [d], ?_, ?_⟩, fun _ => ?_⟩
        · rw [hqueue, hq]
          exact h.of_ring rfl rfl hrep
        · rw [QueueSystem.accepted, QueueSystem.delivered] at heq ⊢
          rw [hreturns, List.filterMap_append, List.filterMap_append, heq]
          simp [hmoved, hd]
        · simp [QueueReturn.Truthful, hret, hmoved, hd]
      · refine ⟨u, hu, hquiet _ _ hmoved ?_, fun _ => ?_⟩
        · rw [hq]
          exact h.of_ring rfl rfl h.ring
        · simp [QueueReturn.Truthful, hret, hmoved, hd.symm]
  | read blocking datum =>
    obtain ⟨u, hu, ⟨hclosed, rfl⟩ |
        ⟨-, -, rb, hq, ⟨d, ms', rfl, hret, hmoved, hrep⟩ | ⟨rfl, hret, hmoved, rfl⟩⟩⟩ :=
      queueReadLocked_cases hn h ret
    · refine ⟨_, hu, hquiet _ _ rfl h, fun hopen => ?_⟩
      simp [QueueReturn.Truthful, closed_ret_false hclosed hopen, hn.ne]
    · have hd := message_ne_nil hn d
      refine ⟨u, hu, fun s' hqueue hreturns => ⟨ms', ?_, ?_⟩, fun _ => ?_⟩
      · rw [hqueue, hq]
        exact h.of_ring rfl rfl hrep
      · rw [QueueSystem.accepted, QueueSystem.delivered] at heq ⊢
        rw [hreturns, List.filterMap_append, List.filterMap_append, heq]
        simp [hmoved, hd]
      · simp [QueueReturn.Truthful, hret, hmoved, hd, d.property]
    · refine ⟨u, hu, hquiet _ _ hmoved ?_, fun _ => ?_⟩
      · rw [hq]
        exact h.of_ring rfl rfl h.ring
      · simp [QueueReturn.Truthful, hret, hmoved, hn.ne]
  | enable =>
    refine ⟨_, rfl, hquiet _ _ rfl ?_, fun _ => trivial⟩
    by_cases hactive : s.queue.active = true
    · rwa [queueEnable, if_pos hactive]
    · rw [queueEnable, if_neg hactive]
      exact h.of_ring rfl rfl h.ring
  | disable =>
    refine ⟨_, rfl, hquiet _ _ rfl ?_, fun _ => trivial⟩
    by_cases hactive : s.queue.active = true
    · rw [queueDisable, if_pos hactive]
      exact h.of_ring rfl rfl h.ring
    · rwa [queueDisable, if_neg hactive]
  | pop => exact ⟨_, rfl, hquiet _ _ rfl (h.of_ring rfl rfl h.ring), fun _ => trivial⟩
  | unpop => exact ⟨_, rfl, hquiet _ _ rfl (h.of_ring rfl rfl h.ring), fun _ => trivial⟩

/-- A call that has not locked the queue yet moved nothing. -/
theorem HoldsUndelivered.enter (h : HoldsUndelivered a s) (t : Nat) (c : QueueCall n) :
    HoldsUndelivered a (s.enter t c) := by
  obtain ⟨ms, hold, heq⟩ := h
  have hquiet : HoldsUndelivered a { s with returns := s.returns ++ [⟨c, false, []⟩] } := by
    obtain ⟨hacc, hdel⟩ := histories_of_moved_nil
      { s with returns := s.returns ++ [⟨c, false, []⟩] } rfl rfl
    exact ⟨ms, hold, by rw [hacc, hdel, heq]⟩
  rw [QueueSystem.enter]
  cases c.start with
  | none => exact hquiet
  | some p => exact ⟨ms, hold, heq⟩

theorem truthful_enter (hn : 0 < n) (h : ∀ r ∈ s.returns, r.Truthful) (t : Nat)
    (c : QueueCall n) : ∀ r ∈ (s.enter t c).returns, r.Truthful := by
  rw [QueueSystem.enter]
  cases hstart : c.start with
  | some p => exact h
  | none =>
    intro r hr
    rcases List.mem_append.mp hr with hr | hr
    · exact h r hr
    · rw [List.mem_singleton.mp hr]
      -- only the calls with a `NULL` datum return at once
      cases c with
      | write blocking datum =>
        cases datum with
        | none => exact ⟨rfl, rfl⟩
        | some d => cases hstart
      | read blocking datum => simp [QueueReturn.Truthful, hn.ne]
      | _ => trivial

/-- Every step goes through, keeps the messages of the ring, and keeps the calls truthful unless
it is the lock of a blocking call on a disabled queue. -/
theorem HoldsUndelivered.step (hn : 0 < n) (h : HoldsUndelivered a s) (act : QueueAct n) :
    ∃ s', queueSystemStep a s act = .ok (s', ()) ∧ HoldsUndelivered a s' ∧
      ((∀ r ∈ s.returns, r.Truthful) → LockFindsOpen s act → ∀ r ∈ s'.returns, r.Truthful) := by
  cases act with
  | call t c =>
    cases hphase : s.phase t with
    | idle =>
      exact ⟨s.enter t c, by simp [queueSystemStep, hphase], h.enter t c,
        fun htrue _ => truthful_enter hn htrue t c⟩
    | waiting c' => exact ⟨s, by simp [queueSystemStep, hphase], h, fun htrue _ => htrue⟩
    | locking c' ret => exact ⟨s, by simp [queueSystemStep, hphase], h, fun htrue _ => htrue⟩
  | wait t =>
    cases hphase : s.phase t with
    | idle => exact ⟨s, by simp [queueSystemStep, hphase], h, fun htrue _ => htrue⟩
    | waiting c =>
      refine ⟨_, by simp only [queueSystemStep, hphase]; rfl, ?_, ?_⟩
      · split_ifs
        · exact h
        · exact h
      · split_ifs
        · exact fun htrue _ => htrue
        · exact fun htrue _ => htrue
    | locking c ret => exact ⟨s, by simp [queueSystemStep, hphase], h, fun htrue _ => htrue⟩
  | lock t =>
    cases hphase : s.phase t with
    | idle => exact ⟨s, by simp [queueSystemStep, hphase], h, fun htrue _ => htrue⟩
    | waiting c => exact ⟨s, by simp [queueSystemStep, hphase], h, fun htrue _ => htrue⟩
    | locking c ret =>
      obtain ⟨ms, hold, heq⟩ := h
      -- only the region with the lock changes the ring
      obtain ⟨u, hu, hkeep, htruth⟩ := queueLocked_spec hn hold heq ret c
      refine ⟨_, by simp only [queueSystemStep, hphase, hu]; rfl, hkeep _ rfl rfl, ?_⟩
      intro htrue hopen r hr
      rcases List.mem_append.mp hr with hr | hr
      · exact htrue r hr
      · rw [List.mem_singleton.mp hr]
        cases c with
        | write blocking datum =>
          cases datum with
          | none =>
            cases hu
            exact ⟨rfl, rfl⟩
          | some d =>
            refine htruth fun hret => ?_
            subst hret
            simpa [LockFindsOpen, hphase] using hopen
        | read blocking datum =>
          refine htruth fun hret => ?_
          subst hret
          simpa [LockFindsOpen, hphase] using hopen
        | _ => trivial

/-- A blocking call that takes the lock of a queue that is disabled and not popped returns true
and moves nothing. -/
theorem truthful_broken (hn : 0 < n) {act : QueueAct n} (hlock : ¬LockFindsOpen s act) :
    ∃ s' r, queueSystemStep a s act = .ok (s', r) ∧ ¬TransfersSound s' := by
  cases act with
  | call t c => exact absurd trivial hlock
  | wait t => exact absurd trivial hlock
  | lock t =>
    cases hphase : s.phase t with
    | idle => simp [LockFindsOpen, hphase] at hlock
    | waiting c => simp [LockFindsOpen, hphase] at hlock
    | locking c ret =>
      have hclosed : (∃ blocking d, c = .write blocking (some d)) ∨ (∃ blocking datum,
          c = .read blocking datum) := by
        cases c with
        | write blocking datum =>
          cases datum with
          | none => simp [LockFindsOpen, hphase] at hlock
          | some d => exact .inl ⟨_, _, rfl⟩
        | read blocking datum => exact .inr ⟨_, _, rfl⟩
        | _ => simp [LockFindsOpen, hphase] at hlock
      -- a call whose wait has failed answers `false` by itself
      have hret : ret = true := by
        cases ret with
        | true => rfl
        | false => simp [LockFindsOpen, hphase] at hlock
      subst hret
      rcases hclosed with ⟨blocking, d, rfl⟩ | ⟨blocking, datum, rfl⟩
      · simp only [LockFindsOpen, hphase, not_or, Bool.not_eq_true] at hlock
        have hd := message_ne_nil hn d
        have hu : queueLocked a s.queue true (.write blocking (some d)) =
            .ok ⟨s.queue, true, []⟩ := by
          simp [queueLocked, queueWriteLocked, hlock]
        refine ⟨_, _, by simp only [queueSystemStep, hphase, hu]; rfl, fun hsound => ?_⟩
        have htruth := hsound.truthful ⟨.write blocking (some d), true, []⟩ (by simp)
        exact hd (htruth.1.mp rfl).symm
      · simp only [LockFindsOpen, hphase, not_or, Bool.not_eq_true] at hlock
        have hu : queueLocked a s.queue true (.read blocking datum : QueueCall n) =
            .ok ⟨s.queue, true, []⟩ := by
          simp [queueLocked, queueReadLocked, hlock]
        refine ⟨_, _, by simp only [queueSystemStep, hphase, hu]; rfl, fun hsound => ?_⟩
        have htruth := hsound.truthful ⟨.read blocking datum, true, []⟩ (by simp)
        exact hn.ne (htruth.1.mp rfl)

/-- Over every interleaving, no step faults, and the messages delivered to readers are the first
of the messages accepted from writers. -/
theorem queueSystem_fifo (hn : 0 < n) (h : HoldsUndelivered a s) (acts : List (QueueAct n)) :
    ∃ s' answers, Machine.run (queueSystemStep a) s acts = .ok (s', answers) ∧
      s'.delivered <+: s'.accepted := by
  have hall : Machine.Meets (queueSystemStep a) (fun _ _ => True) s acts :=
    Machine.meets_of_forall fun _ _ _ => trivial
  obtain ⟨s', answers, hrun, hinv⟩ := Machine.run_invariant
    (I := HoldsUndelivered a) (fun s act h _ => by
      obtain ⟨s', hstep, hkeep, -⟩ := h.step hn act
      exact ⟨s', (), hstep, hkeep⟩) h hall
  exact ⟨s', answers, hrun, hinv.fifo⟩

/-- In all states of an interleaving of calls on a created queue the readers got the accepted
messages in order, whole and once, and every call that returned was truthful, exactly when no
blocking call of it takes the lock while the queue is disabled and not popped. -/
theorem queue_transfers_iff {numMsgs : Nat} {start : Option Nat} {q₀ : Queue} (hmsg : 0 < n)
    (hcreate : queueCreate a numMsgs n start = some q₀) (acts : List (QueueAct n)) :
    Machine.Always (queueSystemStep a) TransfersSound (QueueSystem.initial q₀) acts ↔
      Machine.Meets (queueSystemStep a) LockFindsOpen (QueueSystem.initial q₀) acts := by
  have hinit : HoldsUndelivered a (QueueSystem.initial q₀ : QueueSystem n) :=
    ⟨[], queueHolds_create hcreate, rfl⟩
  refine Machine.always_iff_meets (I := fun s => HoldsUndelivered a s ∧ TransfersSound s)
    (fun s h => h.2) ?_ (fun s act _ hlock => truthful_broken hmsg hlock)
    ⟨hinit, hinit.fifo, by simp [QueueSystem.initial]⟩
  intro s act s' r h hlock hstep
  obtain ⟨s₁, hstep₁, hkeep, htruth⟩ := h.1.step hmsg act
  cases hstep.symm.trans hstep₁
  exact ⟨hkeep, hkeep.fifo, htruth h.2.truthful hlock⟩

/-- A writer and a reader on a queue of two messages of one byte. -/
theorem queue_transfers_iff_two :
    Machine.Always (queueSystemStep .arch32) TransfersSound
        (QueueSystem.initial
          ⟨true, false, ⟨[0, 0], 2, 0, 2, 4096, 4098, 4096, 4096⟩, 1, 2, 0, false, true⟩)
        [.call 0 (.write true (some ⟨[7], rfl⟩)), .call 1 (.read true true), .wait 1, .wait 0,
          .lock 0, .wait 1, .lock 1] ↔
      Machine.Meets (queueSystemStep .arch32) LockFindsOpen
        (QueueSystem.initial
          ⟨true, false, ⟨[0, 0], 2, 0, 2, 4096, 4098, 4096, 4096⟩, 1, 2, 0, false, true⟩)
        [.call 0 (.write true (some ⟨[7], rfl⟩)), .call 1 (.read true true), .wait 1, .wait 0,
          .lock 0, .wait 1, .lock 1] :=
  @queue_transfers_iff .arch32 1 2 (some 4096) _ (by decide) rfl
    [.call 0 (.write true (some ⟨[7], rfl⟩)), .call 1 (.read true true), .wait 1, .wait 0,
      .lock 0, .wait 1, .lock 1]

/-- A writer waits for room, which there is; before it takes the lock another thread disables
the queue; the write returns true and no message was appended. -/
theorem queue_write_reports_lost_message :
    ∃ q₀ s answers, queueCreate .arch32 2 1 (some 4096) = some q₀ ∧
      Machine.run (queueSystemStep .arch32) (QueueSystem.initial q₀)
        [.call 0 (.write true (some (⟨[7], rfl⟩ : Message 1))), .wait 0, .call 1 .disable,
          .lock 1, .lock 0] = .ok (s, answers) ∧
      ⟨.write true (some ⟨[7], rfl⟩), true, []⟩ ∈ s.returns ∧ s.accepted = [] ∧
      ¬TransfersSound s := by
  refine ⟨_, _, _, rfl, rfl, ?_, rfl, fun hsound => ?_⟩
  · simp
  · have htruth := hsound.truthful ⟨.write true (some ⟨[7], rfl⟩), true, []⟩ (by simp)
    exact absurd (htruth.1.mp rfl) (by decide)

end DVP.Sosal
