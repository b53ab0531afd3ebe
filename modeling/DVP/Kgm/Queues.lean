import DVP.Kgm.Answered
import DVP.Lib.Bytes
import DVP.Sosal.Threadpool.Queue

/-!
# The queues of a manager

The managers use the queues of `source/sosal/queue.c`, which hold the bytes of work items. Such a
queue behaves as a mailbox (`Mirrors`), also between the event wait of a call and its lock, and so a
manager over queues goes in lockstep with a manager over mailboxes (`kgm_lockstep`). What holds of
every run over mailboxes therefore holds of the managers: `kgm_sound_iff`.
-/

namespace DVP.Kgm

open DVP.Sosal Bytes

variable {a : Arch} {m : Manager}

/-- `sizeof(DVP_KGM_Thread_t)`. -/
def sizeofKgmThread : Arch → Nat
  | .arch32 => 16
  | .arch64 => 24

/-- The bytes of a `DVP_KGM_Thread_t`. The padding at its end, where the architecture has any, is
made of zeros here. -/
def KgmThread.bytes (kgmt : KgmThread a) : List UInt8 :=
  unitBytes kgmt.pSubNodes ++ (unitBytes kgmt.startNode ++ (unitBytes kgmt.numNodes ++
    (unitBytes kgmt.numNodesExecuted ++ List.replicate (sizeofKgmThread a - (a.ptrSize + 12)) 0)))

/-- The `DVP_KGM_Thread_t` with these bytes. -/
def KgmThread.ofBytes (a : Arch) (bs : List UInt8) : KgmThread a where
  pSubNodes := unitOf a.bits (bs.take a.ptrSize)
  startNode := unitOf 32 ((bs.drop a.ptrSize).take 4)
  numNodes := unitOf 32 (((bs.drop a.ptrSize).drop 4).take 4)
  numNodesExecuted := unitOf 32 ((((bs.drop a.ptrSize).drop 4).drop 4).take 4)

/-- The queues of `source/sosal/queue.c`. The wait of a blocking call left `true_e` in its variable
`ret`. -/
def sosalCalls (a : Arch) : QueueCalls Queue (KgmThread a) where
  readEvent := Queue.readEvent
  writeEvent := Queue.writeEvent
  write := fun q kgmt => do
    let u ← queueWriteLocked a q true kgmt.bytes
    return (u.queue, u.ret)
  read := fun q => do
    let u ← queueReadLocked a q true
    return (u.queue, if u.ret then some (.ofBytes a u.moved) else none)
  pop := queuePop

theorem ptrSize_eq : a.bits / 8 = a.ptrSize := by cases a <;> rfl

theorem sizeofKgmThread_pos : 0 < sizeofKgmThread a := by cases a <;> decide

theorem KgmThread.length_bytes (kgmt : KgmThread a) : kgmt.bytes.length = sizeofKgmThread a := by
  rw [bytes, List.length_append, List.length_append, List.length_append, List.length_append,
    length_unitBytes, length_unitBytes, length_unitBytes, length_unitBytes, List.length_replicate,
    ptrSize_eq]
  cases a <;> rfl

/-- The bytes of a work item give it back. -/
theorem KgmThread.ofBytes_bytes (kgmt : KgmThread a) : ofBytes a kgmt.bytes = kgmt := by
  have hptr : (unitBytes kgmt.pSubNodes).length = a.ptrSize := by
    rw [length_unitBytes, ptrSize_eq]
  have hfour : ∀ x : BitVec 32, (unitBytes x).length = 4 := fun x => length_unitBytes
  have hbits : 8 ∣ a.bits := by cases a <;> decide
  have h32 : 8 ∣ 32 := by decide
  simp only [ofBytes, bytes, List.take_left' hptr, List.drop_left' hptr,
    List.take_left' (hfour _), List.drop_left' (hfour _), unitOf_unitBytes hbits,
    unitOf_unitBytes h32]

/-- A work item as a message. -/
def KgmThread.message (kgmt : KgmThread a) : Message (sizeofKgmThread a) :=
  ⟨kgmt.bytes, kgmt.length_bytes⟩

variable {q : Queue} {box : Mailbox (KgmThread a)}

/-- The queue behaves as the mailbox. -/
structure Mirrors (a : Arch) (q : Queue) (box : Mailbox (KgmThread a)) : Prop where
  holds : QueueHolds a q (box.items.map KgmThread.message)
  capacity : q.capacity a = box.fifo.capacity * sizeofKgmThread a
  active : q.active = true
  popped : q.popped = box.closed
  readEvent : q.readEvent = box.readable
  writeEvent : q.writeEvent = box.writable

namespace Mirrors

/-- What the ring of a queue says about its events, as what the items of a mailbox say. -/
theorem used_pos_iff {ms : List (Message (sizeofKgmThread a))} (h : QueueHolds a q ms) :
    0 < q.ringb.numBytesUsed ↔ ms ≠ [] := by
  rw [h.used_eq, Nat.mul_pos_iff_of_pos_right sizeofKgmThread_pos, List.length_pos_iff]

theorem free_pos_iff {ms : List (Message (sizeofKgmThread a))} (h : QueueHolds a q ms) {k : Nat}
    (hcap : q.capacity a = k * sizeofKgmThread a) : 0 < q.ringb.numBytesFree ↔ ms.length < k := by
  rw [h.ring.free_eq, length_flat, hcap, Nat.sub_pos_iff_lt,
    Nat.mul_lt_mul_right sizeofKgmThread_pos]

/-- The queue of an empty mailbox holds nothing. -/
theorem used_eq_zero (h : Mirrors a q box) (hempty : box.items = []) : q.ringb.numBytesUsed = 0 := by
  rw [h.holds.used_eq, hempty, List.map_nil, List.length_nil, Nat.zero_mul]

/-- An open queue whose events agree with its ring. -/
theorem of_holds {box' : Mailbox (KgmThread a)}
    (hholds : QueueHolds a q (box'.items.map KgmThread.message))
    (hcap : q.capacity a = box'.fifo.capacity * sizeofKgmThread a) (hactive : q.active = true)
    (hpopped : q.popped = false) (hclosed : box'.closed = false)
    (hread : q.readEvent = true ↔ 0 < q.ringb.numBytesUsed)
    (hwrite : q.writeEvent = true ↔ 0 < q.ringb.numBytesFree) : Mirrors a q box' := by
  refine ⟨hholds, hcap, hactive, hpopped.trans hclosed.symm, ?_, ?_⟩
  · rw [Bool.eq_iff_iff, hread, used_pos_iff hholds, Mailbox.readable_iff hclosed, ne_eq,
      List.map_eq_nil_iff]
  · rw [Bool.eq_iff_iff, hwrite, free_pos_iff hholds hcap, Mailbox.writable_iff hclosed,
      List.length_map]

/-- The events of an open queue agree with its ring. -/
theorem events (h : Mirrors a q box) (hclosed : box.closed = false) :
    (q.readEvent = true ↔ 0 < q.ringb.numBytesUsed) ∧
      (q.writeEvent = true ↔ 0 < q.ringb.numBytesFree) := by
  constructor
  · rw [h.readEvent, Mailbox.readable_iff hclosed, used_pos_iff h.holds, ne_eq, ne_eq,
      List.map_eq_nil_iff]
  · rw [h.writeEvent, Mailbox.writable_iff hclosed, free_pos_iff h.holds h.capacity, List.length_map]

/-- A queue that was just created is the empty mailbox. -/
theorem create {numMsgs : Nat} {start : Option Nat} (hpos : 0 < numMsgs)
    (hsize : sizeofKgmThread a * numMsgs < a.size)
    (h : queueCreate a numMsgs (sizeofKgmThread a) start = some q) :
    Mirrors a q (.create numMsgs) := by
  have hholds := queueHolds_create (n := sizeofKgmThread a) h
  have hcap : q.capacity a = numMsgs * sizeofKgmThread a := by
    cases start with
    | none => cases h
    | some start =>
      cases h
      rw [Queue.capacity, Arch.mul_of_lt hsize, Nat.mul_comm]
  have hflags : q.active = true ∧ q.popped = false ∧ q.readEvent = false ∧ q.writeEvent = true := by
    cases start with
    | none => cases h
    | some start =>
      cases h
      exact ⟨rfl, rfl, rfl, rfl⟩
  obtain ⟨hactive, hpopped, hread, hwrite⟩ := hflags
  refine of_holds hholds hcap hactive hpopped rfl ?_ ?_
  · rw [hread, used_pos_iff hholds]
    exact iff_of_false Bool.false_ne_true (fun hne => hne rfl)
  · rw [hwrite, free_pos_iff hholds hcap]
    exact iff_of_true rfl hpos

/-- `queue_pop` closes the mailbox. -/
theorem pop (h : Mirrors a q box) : Mirrors a (queuePop q) box.close :=
  ⟨h.holds.of_ring rfl rfl h.holds.ring, h.capacity, h.active, rfl, rfl, rfl⟩

/-- What `queue_write` does after its wait is the attempt to put the item in. -/
theorem write (h : Mirrors a q box) (kgmt : KgmThread a) :
    ∃ q', (sosalCalls a).write q kgmt = .ok (q', (box.put kgmt).2) ∧
      Mirrors a q' (box.put kgmt).1 := by
  obtain ⟨u, hu, ⟨hclosed, rfl⟩ | ⟨-, hpopped, rb, hq, hrb⟩⟩ :=
    queueWriteLocked_cases sizeofKgmThread_pos h.holds true kgmt.message
  · -- the queue was popped
    have hpopped : q.popped = true := by simpa [h.active] using hclosed
    have hput : box.put kgmt = (box, false) := if_pos (h.popped.symm.trans hpopped)
    refine ⟨q, ?_, by rwa [hput]⟩
    change queueWriteLocked a q true kgmt.bytes = _ at hu
    simp only [sosalCalls, hu, hput, hpopped]
    rfl
  · have hclosed : box.closed = false := h.popped.symm.trans hpopped
    have hret := queueWriteLocked_ret_iff sizeofKgmThread_pos h.holds h.active hpopped hu
    rw [h.capacity, ← Nat.add_one_mul, Nat.mul_le_mul_right_iff sizeofKgmThread_pos,
      List.length_map] at hret
    have hstep : (sosalCalls a).write q kgmt = .ok (u.queue, u.ret) := by
      change queueWriteLocked a q true kgmt.bytes = _ at hu
      simp only [sosalCalls, hu]
      rfl
    obtain ⟨hread, -⟩ := h.events hclosed
    -- the ring has room for an item exactly when the mailbox has
    rcases box.put_cases kgmt with ⟨-, hroom, box', hput, hitems, hopen, hcap⟩ | ⟨hfull, hput⟩
    · rcases hrb with ⟨htrue, -, hrep⟩ | ⟨hfalse, -⟩
      · refine ⟨u.queue, by rw [hstep, htrue, hput], ?_⟩
        rw [hput, hq]
        have hholds : QueueHolds a u.queue (box'.items.map KgmThread.message) := by
          rw [hitems, List.map_append, hq]
          exact h.holds.of_ring rfl rfl hrep
        have hused : 0 < rb.numBytesUsed := by
          rw [hq] at hholds
          refine (used_pos_iff hholds).mpr ?_
          rw [hitems, List.map_append]
          exact List.append_ne_nil_of_right_ne_nil _ (List.cons_ne_nil _ _)
        refine of_holds (hq ▸ hholds) ?_ h.active hpopped hopen ?_ ?_
        · rw [hcap]
          exact h.capacity
        · exact iff_of_true (if_pos hused) hused
        · exact decide_eq_true_iff
      · rw [hret.mpr hroom] at hfalse
        cases hfalse
    · rcases hrb with ⟨htrue, -, -⟩ | ⟨hfalse, -, rfl⟩
      · rcases hfull with hclosed' | hfull
        · rw [hclosed] at hclosed'
          cases hclosed'
        · exact absurd (hret.mp htrue) (Nat.not_lt.mpr hfull)
      · refine ⟨u.queue, by rw [hstep, hfalse, hput], ?_⟩
        rw [hput, hq]
        refine of_holds (h.holds.of_ring rfl rfl h.holds.ring) h.capacity h.active hpopped hclosed
          ?_ decide_eq_true_iff
        dsimp only
        split_ifs with hused
        · exact iff_of_true rfl hused
        · exact hread

/-- What `queue_read` does after its wait is the attempt to take an item. -/
theorem read (h : Mirrors a q box) :
    ∃ q', (sosalCalls a).read q = .ok (q', box.take.2) ∧ Mirrors a q' box.take.1 := by
  obtain ⟨u, hu, ⟨hclosed, rfl⟩ | ⟨-, hpopped, rb, hq, hrb⟩⟩ :=
    queueReadLocked_cases sizeofKgmThread_pos h.holds true
  · -- the queue was popped
    have hpopped : q.popped = true := by simpa [h.active] using hclosed
    have htake : box.take = (box, none) := if_pos (h.popped.symm.trans hpopped)
    refine ⟨q, ?_, by rwa [htake]⟩
    simp only [sosalCalls, hu, htake, hpopped]
    rfl
  · have hclosed : box.closed = false := h.popped.symm.trans hpopped
    have hstep : (sosalCalls a).read q =
        .ok (u.queue, if u.ret then some (.ofBytes a u.moved) else none) := by
      simp only [sosalCalls, hu]
      rfl
    obtain ⟨-, hwrite⟩ := h.events hclosed
    -- the ring has a message exactly when the mailbox has an item
    rcases box.take_cases with ⟨-, kgmt, box', htake, hitems, hopen, hcap⟩ | ⟨hempty, htake⟩
    · rcases hrb with ⟨d, ms, hms, htrue, hmoved, hrep⟩ | ⟨hnil, -⟩
      · rw [hitems, List.map_cons] at hms
        obtain ⟨rfl, rfl⟩ := List.cons.inj hms
        have hvalue : KgmThread.ofBytes a u.moved = kgmt := by
          rw [hmoved]
          exact kgmt.ofBytes_bytes
        refine ⟨u.queue, by rw [hstep, htrue, if_pos rfl, hvalue, htake], ?_⟩
        rw [htake, hq]
        have hholds : QueueHolds a u.queue (box'.items.map KgmThread.message) := by
          rw [hq]
          exact h.holds.of_ring rfl rfl hrep
        have hle := h.holds.ring.le_total
        have hfree : 0 < rb.numBytesFree := by
          rw [hitems, length_flat, List.length_map, List.length_cons, h.capacity] at hle
          rw [hrep.free_eq, h.capacity, length_flat, List.length_map, Nat.sub_pos_iff_lt]
          refine Nat.lt_of_lt_of_le ?_ hle
          exact Nat.mul_lt_mul_of_pos_right (Nat.lt_succ_self _) sizeofKgmThread_pos
        refine of_holds (hq ▸ hholds) ?_ h.active hpopped hopen ?_ ?_
        · rw [hcap]
          exact h.capacity
        · exact decide_eq_true_iff
        · exact iff_of_true (if_pos hfree) hfree
      · rw [hitems] at hnil
        cases hnil
    · rcases hrb with ⟨d, ms, hms, -⟩ | ⟨-, hfalse, -, rfl⟩
      · rcases hempty with hclosed' | hempty
        · rw [hclosed] at hclosed'
          cases hclosed'
        · rw [hempty] at hms
          cases hms
      · refine ⟨u.queue, by rw [hstep, hfalse, htake]; rfl, ?_⟩
        rw [htake, hq]
        refine of_holds (h.holds.of_ring rfl rfl h.holds.ring) h.capacity h.active hpopped hclosed
          decide_eq_true_iff ?_
        dsimp only
        split_ifs with hfree
        · exact iff_of_true rfl hfree
        · exact hwrite

end Mirrors

/-! ## Lockstep -/

/-- The same manager with other queues. -/
def KgmSystem.withQueues {Q Q' : Type} (s : KgmSystem Q a) (workqueue retqueue : Q') :
    KgmSystem Q' a where
  workqueue := workqueue
  retqueue := retqueue
  numCallers := s.numCallers
  callers := s.callers
  workers := s.workers
  accepted := s.accepted
  executed := s.executed
  lost := s.lost
  returns := s.returns

/-- A manager over queues, and the one over the mailboxes these behave as. -/
def SameManager (s : KgmSystem Queue a) (t : MailSystem a) : Prop :=
  ∃ work ret, Mirrors a s.workqueue work ∧ Mirrors a s.retqueue ret ∧ t = s.withQueues work ret

section Lockstep

variable {s : KgmSystem Queue a} {t : MailSystem a}

/-- The end of an event wait. -/
theorem SameManager.wait {s₁ : KgmSystem Queue a} {t₁ : MailSystem a} {event event' : Bool}
    (hevent : event = event') (h₁ : SameManager s₁ t₁) (h : SameManager s t) :
    SameManager (if event then s₁ else s) (if event' then t₁ else t) := by
  subst hevent
  split_ifs
  · exact h₁
  · exact h

/-- A step of a caller. -/
theorem SameManager.stepCaller (h : SameManager s t) (m : Manager) (c : Nat) :
    ∃ s' t', s.stepCaller (sosalCalls a) m c = .ok s' ∧
      t.stepCaller (mailboxCalls _) m c = .ok t' ∧ SameManager s' t' := by
  obtain ⟨work, ret, hwork, hret, rfl⟩ := h
  unfold KgmSystem.stepCaller
  rw [show (s.withQueues work ret).callers c = s.callers c from rfl]
  cases s.callers c with
  | outside => exact ⟨_, _, rfl, rfl, work, ret, hwork, hret, rfl⟩
  | issuing kgmt gate =>
    cases gate with
    | waiting =>
      exact ⟨_, _, rfl, rfl, .wait hwork.writeEvent ⟨work, ret, hwork, hret, rfl⟩
        ⟨work, ret, hwork, hret, rfl⟩⟩
    | locking =>
      obtain ⟨q', hwrite, hmirrors⟩ := hwork.write kgmt
      have hput : (mailboxCalls _).write (s.withQueues work ret).workqueue kgmt =
          .ok (work.put kgmt) := rfl
      rcases hbox : work.put kgmt with ⟨work', taken⟩
      rw [hbox] at hwrite hmirrors hput
      dsimp only
      rw [hwrite, hput]
      cases taken with
      | true => exact ⟨_, _, rfl, rfl, work', ret, hmirrors, hret, rfl⟩
      | false => exact ⟨_, _, rfl, rfl, work', ret, hmirrors, hret, rfl⟩
  | collecting kgmt gate =>
    cases gate with
    | waiting =>
      exact ⟨_, _, rfl, rfl, .wait hret.readEvent ⟨work, ret, hwork, hret, rfl⟩
        ⟨work, ret, hwork, hret, rfl⟩⟩
    | locking =>
      obtain ⟨q', hread, hmirrors⟩ := hret.read
      have htake : (mailboxCalls _).read (s.withQueues work ret).retqueue = .ok ret.take := rfl
      rcases hbox : ret.take with ⟨ret', found⟩
      rw [hbox] at hread hmirrors htake
      dsimp only
      rw [hread, htake]
      cases found with
      | some kgmr =>
        by_cases hown : kgmt.nodes = kgmr.nodes
        · refine ⟨_, _, by rw [ok_bind]; exact if_pos hown, by rw [ok_bind]; exact if_pos hown, ?_⟩
          exact ⟨work, ret', hwork, hmirrors, rfl⟩
        · refine ⟨_, _, by rw [ok_bind]; exact if_neg hown, by rw [ok_bind]; exact if_neg hown, ?_⟩
          exact ⟨work, ret', hwork, hmirrors, rfl⟩
      | none =>
        cases hretries : m.retries with
        | true => exact ⟨_, _, rfl, rfl, work, ret', hwork, hmirrors, rfl⟩
        | false => exact ⟨_, _, rfl, rfl, work, ret', hwork, hmirrors, rfl⟩
  | returning kgmt kgmr gate =>
    cases gate with
    | waiting =>
      exact ⟨_, _, rfl, rfl, .wait hret.writeEvent ⟨work, ret, hwork, hret, rfl⟩
        ⟨work, ret, hwork, hret, rfl⟩⟩
    | locking =>
      obtain ⟨q', hwrite, hmirrors⟩ := hret.write kgmr
      have hput : (mailboxCalls _).write (s.withQueues work ret).retqueue kgmr =
          .ok (ret.put kgmr) := rfl
      rcases hbox : ret.put kgmr with ⟨ret', taken⟩
      rw [hbox] at hwrite hmirrors hput
      dsimp only
      rw [hwrite, hput]
      exact ⟨_, _, rfl, rfl, work, ret', hwork, hmirrors, rfl⟩

/-- A step of a worker. -/
theorem SameManager.stepWorker (h : SameManager s t) (w : Nat) :
    ∃ s' t', s.stepWorker (sosalCalls a) w = .ok s' ∧
      t.stepWorker (mailboxCalls _) w = .ok t' ∧ SameManager s' t' := by
  obtain ⟨work, ret, hwork, hret, rfl⟩ := h
  unfold KgmSystem.stepWorker
  rw [show (s.withQueues work ret).workers w = s.workers w from rfl]
  cases s.workers w with
  | reading gate =>
    cases gate with
    | waiting =>
      exact ⟨_, _, rfl, rfl, .wait hwork.readEvent ⟨work, ret, hwork, hret, rfl⟩
        ⟨work, ret, hwork, hret, rfl⟩⟩
    | locking =>
      obtain ⟨q', hread, hmirrors⟩ := hwork.read
      have htake : (mailboxCalls _).read (s.withQueues work ret).workqueue = .ok work.take := rfl
      rcases hbox : work.take with ⟨work', found⟩
      rw [hbox] at hread hmirrors htake
      dsimp only
      rw [hread, htake]
      cases found with
      | some kgmt => exact ⟨_, _, rfl, rfl, work', ret, hmirrors, hret, rfl⟩
      | none => exact ⟨_, _, rfl, rfl, work', ret, hmirrors, hret, rfl⟩
  | executing kgmt => exact ⟨_, _, rfl, rfl, work, ret, hwork, hret, rfl⟩
  | writing kgmt gate =>
    cases gate with
    | waiting =>
      exact ⟨_, _, rfl, rfl, .wait hret.writeEvent ⟨work, ret, hwork, hret, rfl⟩
        ⟨work, ret, hwork, hret, rfl⟩⟩
    | locking =>
      obtain ⟨q', hwrite, hmirrors⟩ := hret.write kgmt
      have hput : (mailboxCalls _).write (s.withQueues work ret).retqueue kgmt =
          .ok (ret.put kgmt) := rfl
      rcases hbox : ret.put kgmt with ⟨ret', taken⟩
      rw [hbox] at hwrite hmirrors hput
      dsimp only
      rw [hwrite, hput]
      exact ⟨_, _, rfl, rfl, work, ret', hwork, hmirrors, rfl⟩
  | exited => exact ⟨_, _, rfl, rfl, work, ret, hwork, hret, rfl⟩

/-- A manager over queues and one over mailboxes do the same. -/
theorem kgm_lockstep (m : Manager) :
    Machine.Lockstep (kgmStep (sosalCalls a) m) (kgmStep (mailboxCalls _) m) SameManager := by
  intro s t act h
  have hnum : t.numCallers = s.numCallers := by
    obtain ⟨work, ret, -, -, rfl⟩ := h
    rfl
  cases act with
  | call c pSubNodes startNode numNodes =>
    obtain ⟨work, ret, hwork, hret, rfl⟩ := h
    refine ⟨_, _, (), rfl, rfl, ?_⟩
    rw [hnum]
    split_ifs
    · unfold KgmSystem.call
      rw [show (s.withQueues work ret).callers c = s.callers c from rfl]
      cases s.callers c with
      | _ => exact ⟨work, ret, hwork, hret, rfl⟩
    · exact ⟨work, ret, hwork, hret, rfl⟩
  | caller c =>
    by_cases hc : c < s.numCallers
    · obtain ⟨s', t', hs, ht, hsame⟩ := h.stepCaller m c
      exact ⟨s', t', (), by rw [kgmStep, if_pos hc, hs]; rfl,
        by rw [kgmStep, if_pos (hnum ▸ hc), ht]; rfl, hsame⟩
    · exact ⟨s, t, (), by rw [kgmStep, if_neg hc], by rw [kgmStep, if_neg (hnum ▸ hc)], h⟩
  | worker w =>
    by_cases hw : w < m.numWorkers
    · obtain ⟨s', t', hs, ht, hsame⟩ := h.stepWorker w
      exact ⟨s', t', (), by rw [kgmStep, if_pos hw, hs]; rfl,
        by rw [kgmStep, if_pos hw, ht]; rfl, hsame⟩
    · exact ⟨s, t, (), by rw [kgmStep, if_neg hw], by rw [kgmStep, if_neg hw], h⟩
  | finish w processed =>
    obtain ⟨work, ret, hwork, hret, rfl⟩ := h
    refine ⟨_, _, (), rfl, rfl, ?_⟩
    split_ifs
    · unfold KgmSystem.finish
      rw [show (s.withQueues work ret).workers w = s.workers w from rfl]
      cases s.workers w with
      | _ => exact ⟨work, ret, hwork, hret, rfl⟩
    · exact ⟨work, ret, hwork, hret, rfl⟩
  | popWork =>
    obtain ⟨work, ret, hwork, hret, rfl⟩ := h
    exact ⟨_, _, (), rfl, rfl, work.close, ret, hwork.pop, hret, rfl⟩
  | popRet =>
    obtain ⟨work, ret, hwork, hret, rfl⟩ := h
    exact ⟨_, _, (), rfl, rfl, work, ret.close, hwork, hret.pop, rfl⟩

/-- What callers rely on does not depend on the kind of the queues. -/
theorem SameManager.sound_iff (h : SameManager s t) : KgmSound m s ↔ KgmSound m t := by
  obtain ⟨work, ret, -, -, rfl⟩ := h
  constructor
  · rintro ⟨hanswered, honce, hasked, hkept, hcomplete, hstaffed⟩
    exact ⟨hanswered, honce, hasked, hkept, hcomplete, hstaffed⟩
  · rintro ⟨hanswered, honce, hasked, hkept, hcomplete, hstaffed⟩
    exact ⟨hanswered, honce, hasked, hkept, hcomplete, hstaffed⟩

/-- Neither does the condition on the runs. -/
theorem SameManager.quiet_iff {capacity : Nat} (h : SameManager s t) (act : KgmAct a) :
    Quiet capacity s act ↔ Quiet capacity t act := by
  obtain ⟨work, ret, -, -, rfl⟩ := h
  cases act with
  | _ => exact Iff.rfl

/-- Queues and mailboxes let the same readers in. -/
theorem SameManager.findsResult_iff (h : SameManager s t) (act : KgmAct a) :
    FindsResult (sosalCalls a) m s act ↔ FindsResult (mailboxCalls _) m t act := by
  obtain ⟨work, ret, -, hret, rfl⟩ := h
  cases act with
  | caller c =>
    have hevent : (sosalCalls a).readEvent s.retqueue = ret.readable := hret.readEvent
    simp only [FindsResult, hevent]
    rfl
  | _ => exact Iff.rfl

end Lockstep

/-- `DVP_KernelGraphManagerInit` has created both queues with room for ten items. -/
structure CreatesQueues (a : Arch) (workqueue retqueue : Queue) : Prop where
  work : ∃ start, queueCreate a 10 (sizeofKgmThread a) start = some workqueue
  ret : ∃ start, queueCreate a 10 (sizeofKgmThread a) start = some retqueue

theorem CreatesQueues.same {workqueue retqueue : Queue} (h : CreatesQueues a workqueue retqueue)
    (numCallers : Nat) :
    SameManager (.init workqueue retqueue numCallers : KgmSystem Queue a)
      (.init (.create 10) (.create 10) numCallers) := by
  have hsize : sizeofKgmThread a * 10 < a.size := by cases a <;> decide
  obtain ⟨start, hwork⟩ := h.work
  obtain ⟨start', hret⟩ := h.ret
  exact ⟨_, _, .create (by decide) hsize hwork, .create (by decide) hsize hret, rfl⟩

/-- With fewer callers than the queues have room for, every run without pops is quiet. -/
theorem CreatesQueues.quiet_of_few {workqueue retqueue : Queue}
    (h : CreatesQueues a workqueue retqueue) {numCallers capacity : Nat} (hfew : numCallers < capacity)
    {acts : List (KgmAct a)} (hopen : ∀ act ∈ acts, act ≠ .popWork ∧ act ≠ .popRet) :
    Machine.Meets (kgmStep (sosalCalls a) m) (Quiet capacity)
      (.init workqueue retqueue numCallers) acts := by
  rw [(kgm_lockstep m).meets_iff (D := Quiet capacity) (fun s t act h => h.quiet_iff act)
    (h.same numCallers)]
  refine Machine.Meets.of_invariant (I := fun t : MailSystem a => t.numCallers = numCallers)
    (C := fun _ act => act ≠ .popWork ∧ act ≠ .popRet) ?_ ?_ rfl (Machine.meets_of_forall fun _ => hopen)
  · intro t act t' r hnum _ hstep
    obtain ⟨t₁, hstep₁, hmoves⟩ := kgmStep_moves m t act
    cases hstep.symm.trans hstep₁
    exact hmoves.numCallers.trans hnum
  · intro t act hnum hact
    cases act with
    | call => exact t.active_le.trans_lt (hnum ▸ hfew)
    | popWork => exact hact.1 rfl
    | popRet => exact hact.2 rfl
    | _ => trivial

/-- In a run without pops, with at most ten calls at a time, the callers of a kernel manager get what
they rely on in all states if and only if no caller that gives up takes the lock of an empty
`retqueue`. -/
theorem kgm_sound_iff {workqueue retqueue : Queue} (hcreate : CreatesQueues a workqueue retqueue)
    (hworkers : 0 < m.numWorkers) {numCallers : Nat} {acts : List (KgmAct a)}
    (hquiet : Machine.Meets (kgmStep (sosalCalls a) m) (Quiet 10)
      (.init workqueue retqueue numCallers) acts) :
    Machine.Always (kgmStep (sosalCalls a) m) (KgmSound m)
        (.init workqueue retqueue numCallers) acts ↔
      Machine.Meets (kgmStep (sosalCalls a) m) (FindsResult (sosalCalls a) m)
        (.init workqueue retqueue numCallers) acts := by
  have hsame := hcreate.same numCallers
  have hlock := kgm_lockstep (a := a) m
  rw [hlock.meets_iff (D := Quiet 10) (fun s t act h => h.quiet_iff act) hsame] at hquiet
  rw [hlock.always_iff (fun s t h => h.sound_iff) hsame,
    hlock.meets_iff (D := FindsResult (mailboxCalls _) m) (fun s t act h => h.findsResult_iff act)
      hsame]
  exact mail_sound_iff hworkers hquiet

/-- A call of the DSP manager from its start to its end: the caller writes three nodes to `workqueue`, the
worker executes them and writes the result to `retqueue`, and the caller reads it. -/
def dspCall : List (KgmAct .arch32) :=
  [.call 0 4096 0 3, .caller 0, .caller 0, .worker 0, .worker 0, .finish 0 3, .worker 0, .worker 0,
    .caller 0, .caller 0]

theorem kgm_sound_iff_one :
    ∃ workqueue retqueue, CreatesQueues .arch32 workqueue retqueue ∧
      (Machine.Always (kgmStep (sosalCalls .arch32) .dsp) (KgmSound .dsp)
          (.init workqueue retqueue 1) dspCall ↔
        Machine.Meets (kgmStep (sosalCalls .arch32) .dsp) (FindsResult (sosalCalls .arch32) .dsp)
          (.init workqueue retqueue 1) dspCall) := by
  refine ⟨_, _, ⟨⟨some 4096, rfl⟩, ⟨some 8192, rfl⟩⟩, ?_⟩
  refine kgm_sound_iff ⟨⟨some 4096, rfl⟩, ⟨some 8192, rfl⟩⟩ Nat.one_pos ?_
  exact CreatesQueues.quiet_of_few ⟨⟨some 4096, rfl⟩, ⟨some 8192, rfl⟩⟩ (by decide) (by simp [dspCall])

end DVP.Kgm
