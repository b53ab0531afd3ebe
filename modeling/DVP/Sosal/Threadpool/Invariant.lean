import DVP.Lib.Threads
import DVP.Sosal.Threadpool.Basic

/-!
# Where the items of a pool are

`Placed` holds in every state: an accepted item waits in a queue, is in a worker's hands or has been
executed, and it is in one of these places once. What one step does to it is one lemma for each
operation (`Placed.offer`, `Placed.leave`, `Placed.stepWorker`, …), and `Placed.step` is the whole.
-/

namespace DVP.Sosal

variable {α : Type}

/-- Whether a worker has executed an item that it has not recorded. -/
def ThreadpoolWorker.unrecorded (worker : ThreadpoolWorker α) : Nat :=
  match worker.phase with
  | .recording _ => 1
  | _ => 0

/-- The sum of `f` over the workers. -/
def Threadpool.total (pool : Threadpool α) (f : ThreadpoolWorker α → Nat) : Nat :=
  Threads.total pool.numWorkers pool.workers f

/-- A change of one worker changes its summand. -/
theorem Threadpool.total_update {pool pool' : Threadpool α} {f : ThreadpoolWorker α → Nat} {w : Nat}
    {worker : ThreadpoolWorker α} (h : w < pool.numWorkers)
    (hnum : pool'.numWorkers = pool.numWorkers)
    (hworkers : pool'.workers = Function.update pool.workers w worker) :
    pool'.total f + f (pool.workers w) = pool.total f + f worker := by
  rw [total, total, hnum, hworkers]
  exact Threads.total_update pool.workers f h worker

/-! ## The items of a worker -/

theorem itemsOf_append (items items' : List (Nat × α)) (w : Nat) :
    itemsOf (items ++ items') w = itemsOf items w ++ itemsOf items' w :=
  List.filterMap_append

theorem itemsOf_map_self (w : Nat) (items : List α) : itemsOf (items.map (Prod.mk w)) w = items := by
  simp [itemsOf, List.filterMap_map]

theorem itemsOf_map_of_ne {v w : Nat} (h : v ≠ w) (items : List α) :
    itemsOf (items.map (Prod.mk w)) v = [] := by
  simp [itemsOf, List.filterMap_map, h.symm]

/-! ## The counter -/

theorem ofNat_add_one (m : Nat) : BitVec.ofNat 32 m + 1 = BitVec.ofNat 32 (m + 1) :=
  (BitVec.ofNat_add m 1).symm

theorem ofNat_sub_one {m : Nat} (h : 0 < m) : BitVec.ofNat 32 m - 1 = BitVec.ofNat 32 (m - 1) := by
  obtain ⟨m, rfl⟩ := Nat.exists_eq_succ_of_ne_zero (Nat.ne_of_gt h)
  rw [Nat.succ_eq_add_one, ← ofNat_add_one, BitVec.add_sub_cancel, Nat.add_sub_cancel]

/-- An `int32_t` counter is right up to the largest value of its type. -/
theorem toInt_ofNat_eq_iff {m : Nat} : (BitVec.ofNat 32 m).toInt = (m : Int) ↔ m < 2 ^ 31 := by
  have hlt := BitVec.toInt_lt (x := BitVec.ofNat 32 m)
  constructor
  · intro h
    omega
  · intro h
    rw [BitVec.toInt_eq_toNat_of_lt (by rw [BitVec.toNat_ofNat]; omega), BitVec.toNat_ofNat]
    omega

theorem toInt_zero : (0 : BitVec 32).toInt = 0 := rfl

theorem ofNat_eq_zero_iff {m : Nat} (h : m < 2 ^ 31) : BitVec.ofNat 32 m = 0 ↔ m = 0 := by
  constructor
  · intro hzero
    have hint := toInt_ofNat_eq_iff.mpr h
    rw [hzero, toInt_zero] at hint
    omega
  · rintro rfl
    rfl

theorem ofNat_sle_zero_iff {m : Nat} (h : m < 2 ^ 31) :
    (BitVec.ofNat 32 m).sle 0 = true ↔ m = 0 := by
  rw [BitVec.sle_iff_toInt_le, toInt_ofNat_eq_iff.mpr h, toInt_zero]
  omega

/-! ## The invariant -/

/-- What is known of a call of `threadpool_issue` between its steps. -/
structure IssueCall.Ok (call : IssueCall α) : Prop where
  le_length : call.i ≤ call.workitems.length
  accepted : call.accepted = call.workitems.take call.i
  wrote : call.i = call.workitems.length → call.wrote = true

/-- Every accepted item is in one place, and the counter counts those that are not recorded. -/
structure Placed (s : ThreadpoolSystem α) : Prop where
  next : s.pool.nextWorkerIndex < s.pool.numWorkers
  inPool : ∀ x ∈ s.accepted, x.1 < s.pool.numWorkers
  placed : ∀ w, itemsOf s.accepted w = itemsOf s.executed w ++ (s.pool.workers w).pending
  executed_add : s.executed.length + s.pool.total (fun worker => worker.pending.length) =
    s.accepted.length
  recorded_add : s.recorded + s.pool.total ThreadpoolWorker.unrecorded = s.executed.length
  counter : s.pool.numCurrentItems = BitVec.ofNat 32 (s.accepted.length - s.recorded)
  call : ∀ call, s.issuer = some call → call.Ok
  issues : ∀ r ∈ s.issues, r.ret = true ↔ r.accepted = r.workitems

namespace Placed

variable {s : ThreadpoolSystem α} {w : Nat}

theorem recorded_le (h : Placed s) : s.recorded ≤ s.executed.length := by
  have := h.recorded_add
  omega

theorem executed_le (h : Placed s) : s.executed.length ≤ s.accepted.length := by
  have := h.executed_add
  omega

/-- When all accepted items are recorded they have all finished executing. -/
theorem finished_of_recorded (h : Placed s) (hrec : s.accepted.length = s.recorded) :
    s.finished = true := by
  have hle := h.recorded_le
  have hle' := h.executed_le
  rw [ThreadpoolSystem.finished, beq_iff_eq]
  omega

/-- The accepted items have all finished executing exactly when no worker has one to execute. -/
theorem finished_iff (h : Placed s) :
    s.finished = true ↔ ∀ w < s.pool.numWorkers, (s.pool.workers w).pending = [] := by
  have hadd := h.executed_add
  have hzero : s.finished = true ↔ s.pool.total (fun worker => worker.pending.length) = 0 := by
    rw [ThreadpoolSystem.finished, beq_iff_eq]
    omega
  rw [hzero, Threadpool.total, Threads.total_eq_zero_iff]
  simp only [List.length_eq_zero_iff]

theorem initial {numThreads numWorkItems : Nat} (hworkers : 0 < numThreads) :
    Placed (.initial (threadpoolCreate numThreads numWorkItems : Threadpool α)) where
  next := hworkers
  inPool _ h := nomatch h
  placed _ := rfl
  executed_add := (Nat.zero_add _).trans (Threads.total_eq_zero_of_forall fun _ => rfl)
  recorded_add := (Nat.zero_add _).trans (Threads.total_eq_zero_of_forall fun _ => rfl)
  counter := rfl
  call _ h := nomatch h
  issues _ h := nomatch h

/-- The invariant is not about the calls of `threadpool_complete`. -/
theorem of_eq {s' : ThreadpoolSystem α} (h : Placed s) (hpool : s'.pool = s.pool)
    (hissuer : s'.issuer = s.issuer) (haccepted : s'.accepted = s.accepted)
    (hexecuted : s'.executed = s.executed) (hrecorded : s'.recorded = s.recorded)
    (hissues : s'.issues = s.issues) : Placed s' := by
  obtain ⟨pool, issuer, waiting, accepted, executed, recorded, issues, completes⟩ := s'
  subst hpool hissuer haccepted hexecuted hrecorded hissues
  exact ⟨h.next, h.inPool, h.placed, h.executed_add, h.recorded_add, h.counter, h.call, h.issues⟩

theorem observe (h : Placed s) : Placed s.observe := h.of_eq rfl rfl rfl rfl rfl rfl

/-- What a step of one worker, or for one, keeps: the worker gets the items `new`, and has executed
the items `done` of those it had. -/
theorem update {s' : ThreadpoolSystem α} {worker : ThreadpoolWorker α} (h : Placed s)
    (new done : List α) (hw : w < s.pool.numWorkers) (hnum : s'.pool.numWorkers = s.pool.numWorkers)
    (hworkers : s'.pool.workers = Function.update s.pool.workers w worker)
    (haccepted : s'.accepted = s.accepted ++ new.map (Prod.mk w))
    (hexecuted : s'.executed = s.executed ++ done.map (Prod.mk w))
    (hpending : (s.pool.workers w).pending ++ new = done ++ worker.pending)
    (hrecorded : s'.recorded + worker.unrecorded =
      s.recorded + (s.pool.workers w).unrecorded + done.length)
    (hnext : s'.pool.nextWorkerIndex < s.pool.numWorkers)
    (hcounter : s'.pool.numCurrentItems = BitVec.ofNat 32 (s'.accepted.length - s'.recorded))
    (hcall : ∀ call, s'.issuer = some call → call.Ok) (hissues : s'.issues = s.issues) :
    Placed s' where
  next := hnum ▸ hnext
  inPool x hx := by
    rw [haccepted] at hx
    rw [hnum]
    rcases List.mem_append.mp hx with hx | hx
    · exact h.inPool x hx
    · obtain ⟨y, -, rfl⟩ := List.mem_map.mp hx
      exact hw
  placed v := by
    rw [haccepted, hexecuted, hworkers, itemsOf_append, itemsOf_append, h.placed]
    -- the items of the other workers are where they were
    by_cases hv : v = w
    · subst hv
      rw [itemsOf_map_self, itemsOf_map_self, Function.update_self, List.append_assoc, hpending,
        List.append_assoc]
    · rw [itemsOf_map_of_ne hv, itemsOf_map_of_ne hv, Function.update_of_ne hv, List.append_nil,
        List.append_nil]
  executed_add := by
    have hadd := h.executed_add
    have htotal := Threadpool.total_update (f := fun worker => worker.pending.length) hw hnum hworkers
    have hlen := congrArg List.length hpending
    rw [List.length_append, List.length_append] at hlen
    rw [haccepted, hexecuted, List.length_append, List.length_append, List.length_map,
      List.length_map]
    omega
  recorded_add := by
    have hadd := h.recorded_add
    have htotal := Threadpool.total_update (f := ThreadpoolWorker.unrecorded) hw hnum hworkers
    rw [hexecuted, List.length_append, List.length_map]
    omega
  counter := hcounter
  call := hcall
  issues := hissues ▸ h.issues

/-- A worker has executed an item that it has to record. -/
theorem recorded_lt (h : Placed s) {data : α} (hw : w < s.pool.numWorkers)
    (hphase : (s.pool.workers w).phase = .recording data) : s.recorded < s.executed.length := by
  have hadd := h.recorded_add
  have hone : (s.pool.workers w).unrecorded ≤ s.pool.total ThreadpoolWorker.unrecorded :=
    Threads.le_total _ _ hw
  rw [ThreadpoolWorker.unrecorded, hphase] at hone
  dsimp only at hone
  omega

/-! ## What a step keeps -/

/-- The semaphore is taken. -/
theorem issue (h : Placed s) (workitems : List α) (hne : workitems ≠ []) :
    Placed (s.issue workitems) := by
  rw [ThreadpoolSystem.issue]
  split
  · exact h
  · have hok : (⟨workitems, 0, 0, false, []⟩ : IssueCall α).Ok :=
      ⟨Nat.zero_le _, rfl, fun hzero => absurd (List.length_eq_zero_iff.mp hzero.symm) hne⟩
    refine ⟨h.next, h.inPool, h.placed, h.executed_add, h.recorded_add, h.counter, ?_, h.issues⟩
    rintro call ⟨⟩
    exact hok

/-- An item is offered to the next worker. -/
theorem offer (h : Placed s) {call : IssueCall α} {item : α} (hok : call.Ok)
    (hitem : call.workitems[call.i]? = some item) : Placed (s.offer call item) := by
  obtain ⟨hi, hget⟩ := List.getElem?_eq_some_iff.mp hitem
  have hnext : (s.pool.nextWorkerIndex + 1) % s.pool.numWorkers < s.pool.numWorkers :=
    Nat.mod_lt _ (Nat.zero_lt_of_lt h.next)
  have hle := h.recorded_le
  have hle' := h.executed_le
  rw [ThreadpoolSystem.offer]
  dsimp only
  split
  · -- The queue of the worker takes the item.
    next queue hpush =>
    refine h.update [item] [] h.next rfl rfl rfl (List.append_nil _).symm ?_ rfl
      hnext ?_ ?_ rfl
    · rw [ThreadpoolWorker.pending, ThreadpoolWorker.pending, Fifo.items_of_push hpush,
        List.append_assoc]
      rfl
    · have hsucc : s.accepted.length + 1 - s.recorded = s.accepted.length - s.recorded + 1 := by omega
      dsimp only [Threadpool.setWorker]
      rw [h.counter, ofNat_add_one, List.length_append, List.length_singleton, hsucc]
    · rintro _ ⟨⟩
      exact ⟨hi, by rw [hok.accepted, List.take_add_one, hitem]; rfl, fun _ => rfl⟩
  · -- The queue is full.
    refine ⟨hnext, h.inPool, h.placed, h.executed_add, h.recorded_add, ?_, ?_, h.issues⟩
    · rw [BitVec.add_sub_cancel, h.counter]
    · rintro _ ⟨⟩
      exact ⟨hok.le_length, hok.accepted, fun hlen => absurd hlen (Nat.ne_of_lt hi)⟩

/-- The semaphore is posted by `threadpool_issue`. -/
theorem leave (h : Placed s) {call : IssueCall α} (hok : call.Ok)
    (hover : call.over s.pool.numWorkers = true) : Placed (s.leave call) := by
  refine ⟨h.next, h.inPool, h.placed, h.executed_add, h.recorded_add, h.counter, nofun, ?_⟩
  intro r hr
  rcases List.mem_append.mp hr with hr | hr
  · exact h.issues r hr
  · obtain rfl := List.mem_singleton.mp hr
    dsimp only
    rw [hok.accepted]
    rw [IssueCall.over, Bool.or_eq_true, beq_iff_eq] at hover
    rcases hover with hlen | hfull
    · exact iff_of_true (hok.wrote hlen) (by rw [hlen, List.take_length])
    · -- No worker took the item `i`, which is then one of the list.
      have hwrote : call.wrote = false := by
        rw [Bool.and_eq_true, Bool.not_eq_true'] at hfull
        exact hfull.1
      have hne : call.i ≠ call.workitems.length := fun hlen => by
        rw [hok.wrote hlen] at hwrote
        cases hwrote
      refine iff_of_false (by simp [hwrote]) fun htake => hne ?_
      have hlen := congrArg List.length htake
      rw [List.length_take_of_le hok.le_length] at hlen
      exact hlen

/-- The call that has the semaphore makes a step. -/
theorem stepIssuer (h : Placed s) : Placed s.stepIssuer := by
  rw [ThreadpoolSystem.stepIssuer]
  split
  · exact h
  · next call hcall =>
    have hok := h.call call hcall
    split
    · next hover => exact h.leave hok hover
    · split
      · exact h
      · next item hitem => exact h.offer hok hitem

/-- A worker records that an item is done. -/
theorem record (h : Placed s) {data : α} (hw : w < s.pool.numWorkers)
    (hphase : (s.pool.workers w).phase = .recording data) : Placed (s.record w) := by
  have hlt := h.recorded_lt hw hphase
  have hle := h.executed_le
  refine h.update [] [] hw rfl rfl (List.append_nil _).symm
    (List.append_nil _).symm ?_ ?_ h.next ?_ h.call rfl
  · rw [ThreadpoolWorker.pending, ThreadpoolWorker.pending, hphase, List.append_nil]
    rfl
  · rw [ThreadpoolWorker.unrecorded, ThreadpoolWorker.unrecorded, hphase]
    rfl
  · dsimp only [ThreadpoolSystem.record, Threadpool.setWorker]
    rw [h.counter, ofNat_sub_one (by omega), Nat.sub_sub]

/-- A worker makes a step. -/
theorem stepWorker (h : Placed s) (hw : w < s.pool.numWorkers) : Placed (s.stepWorker w) := by
  rw [ThreadpoolSystem.stepWorker]
  split
  · next hphase =>
    split
    · exact h
    · next data queue hpop =>
      refine h.update [] [] hw rfl rfl (List.append_nil _).symm
        (List.append_nil _).symm ?_ ?_ h.next h.counter h.call rfl
      · rw [ThreadpoolWorker.pending, ThreadpoolWorker.pending, hphase, Fifo.items_of_pop hpop,
          List.append_nil]
        rfl
      · rw [ThreadpoolWorker.unrecorded, ThreadpoolWorker.unrecorded, hphase]
        rfl
  · next data hphase =>
    refine h.update [] [data] hw rfl rfl (List.append_nil _).symm rfl ?_ ?_ h.next
      h.counter h.call rfl
    · rw [ThreadpoolWorker.pending, ThreadpoolWorker.pending, hphase, List.append_nil]
      rfl
    · rw [ThreadpoolWorker.unrecorded, ThreadpoolWorker.unrecorded, hphase]
      rfl
  · next data hphase =>
    split
    · exact h
    · exact h.record hw hphase

/-- A call of `threadpool_complete` begins. -/
theorem complete (h : Placed s) (t : Nat) (blocking : Bool) : Placed (s.complete t blocking) := by
  rw [ThreadpoolSystem.complete]
  split
  · exact h
  · split_ifs
    · exact h.of_eq rfl rfl rfl rfl rfl rfl
    · exact h.of_eq rfl rfl rfl rfl rfl rfl
    · exact h.of_eq rfl rfl rfl rfl rfl rfl

/-- An event wait is over. -/
theorem wake (h : Placed s) (t : Nat) : Placed (s.wake t) := by
  rw [ThreadpoolSystem.wake]
  split
  · exact h
  · exact h.of_eq rfl rfl rfl rfl rfl rfl

/-- Every step keeps the invariant. -/
theorem step (h : Placed s) (act : ThreadpoolAct α) : Placed (threadpoolStep s act) := by
  refine observe ?_
  cases act with
  | issue item items => exact h.issue (item :: items) (List.cons_ne_nil _ _)
  | issuer => exact h.stepIssuer
  | worker w =>
    rw [ThreadpoolSystem.perform]
    split_ifs with hw
    · exact h.stepWorker hw
    · exact h
  | complete t blocking => exact h.complete t blocking
  | wake t => exact h.wake t

end Placed

end DVP.Sosal
