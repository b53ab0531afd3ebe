import DVP.Sosal.Threadpool.Runs
import Mathlib.Data.Nat.ModEq

/-!
# Batches of work

One thread issues items to a pool that is idle, no more than one for each worker, and waits in a
blocking `threadpool_complete` if they were all taken. Nobody else uses the pool meanwhile.

* `Batch.executes`: then the workers have executed these items and nothing else, in some order, and
  the pool is idle again.
* `exists_batch`: there is such a run.
-/

namespace DVP.Sosal

variable {α : Type}

/-- A step of the call of `threadpool_issue` or of a worker. -/
def ThreadpoolAct.Serves : ThreadpoolAct α → Prop
  | .issuer => True
  | .worker _ => True
  | _ => False

/-- The items are issued, and then steps are made. -/
def issued (s : ThreadpoolSystem α) (item : α) (items : List α) (acts : List (ThreadpoolAct α)) :
    ThreadpoolSystem α :=
  acts.foldl threadpoolStep (threadpoolStep s (.issue item items))

/-- `threadpool_issue` has returned, with this value. -/
def Returned (s : ThreadpoolSystem α) (ret : Bool) : Prop :=
  s.issuer = none ∧ ∃ r, s.issues.getLast? = some r ∧ r.ret = ret

/-- The states in which the caller goes on after `threadpool_issue` and `threadpool_complete`. -/
inductive Batch (s : ThreadpoolSystem α) (item : α) (items : List α) :
    ThreadpoolSystem α → Prop where
  /-- Not all items were taken, and the caller does not wait. -/
  | refused {acts : List (ThreadpoolAct α)} (hserve : ∀ act ∈ acts, act.Serves)
      (hreturned : Returned (issued s item items acts) false) :
      Batch s item items (issued s item items acts)
  /-- The event is set when the caller tests it. -/
  | found {acts : List (ThreadpoolAct α)} (hserve : ∀ act ∈ acts, act.Serves)
      (hreturned : Returned (issued s item items acts) true)
      (hset : (issued s item items acts).pool.completed = true) :
      Batch s item items (threadpoolStep (issued s item items acts) (.complete 0 true))
  /-- The caller waits, and the event is set when it wakes. -/
  | woken {acts acts' : List (ThreadpoolAct α)} (hserve : ∀ act ∈ acts, act.Serves)
      (hreturned : Returned (issued s item items acts) true) (hserve' : ∀ act ∈ acts', act.Serves)
      (hset : (acts'.foldl threadpoolStep
        (threadpoolStep (issued s item items acts) (.complete 0 true))).pool.completed = true) :
      Batch s item items (threadpoolStep (acts'.foldl threadpoolStep
        (threadpoolStep (issued s item items acts) (.complete 0 true))) (.wake 0))

/-- All items that were issued are recorded, and nobody uses the pool. -/
structure PoolIdle (n : Nat) (s : ThreadpoolSystem α) : Prop extends Tracked s where
  numWorkers : s.pool.numWorkers = n
  capacity : ∀ w, (s.pool.workers w).queue.capacity = 1
  free : s.issuer = none
  recorded_eq : s.accepted.length = s.recorded

/-- The items of a list, each with the index of the worker that takes it: they are dealt out in
turns. -/
def dealt (start n : Nat) (items : List α) : List (Nat × α) :=
  items.zipIdx.map fun x => ((start + x.2) % n, x.1)

section Dealt

variable {start n w i : Nat} {items : List α} {x : α}

theorem mem_itemsOf {given : List (Nat × α)} : x ∈ itemsOf given w ↔ (w, x) ∈ given := by
  simp only [itemsOf, List.mem_filterMap]
  constructor
  · rintro ⟨⟨v, y⟩, hmem, hy⟩
    split at hy
    case isTrue hv =>
      cases hy
      subst hv
      exact hmem
    case isFalse => cases hy
  · exact fun h => ⟨(w, x), h, if_pos rfl⟩

theorem length_dealt : (dealt start n items).length = items.length := by
  simp [dealt]

theorem map_snd_dealt (start n : Nat) (items : List α) :
    (dealt start n items).map Prod.snd = items := by
  rw [dealt, List.map_map]
  exact List.zipIdx_map_fst 0 items

theorem dealt_append_singleton :
    dealt start n (items ++ [x]) = dealt start n items ++ [((start + items.length) % n, x)] := by
  simp [dealt, List.zipIdx_append]

/-- The worker whose turn it is has been given nothing, if there are more workers than items. -/
theorem itemsOf_dealt_next (start : Nat) (hlt : items.length < n) :
    itemsOf (dealt start n items) ((start + items.length) % n) = [] := by
  rw [List.eq_nil_iff_forall_not_mem]
  intro y hy
  rw [mem_itemsOf, dealt, List.mem_map] at hy
  obtain ⟨⟨z, j⟩, hz, hpair⟩ := hy
  have hj : j < items.length := by simpa using (List.mem_zipIdx' hz).1
  have hmod : (start + j) % n = (start + items.length) % n := congrArg Prod.fst hpair
  have hdvd := (Nat.modEq_iff_dvd' (show start + j ≤ start + items.length by omega)).mp hmod
  rw [Nat.add_sub_add_left] at hdvd
  have hle := Nat.le_of_dvd (by omega) hdvd
  omega

end Dealt

/-! ## The items are all taken -/

/-- What a step of a worker keeps. -/
structure WorkerStep (s s' : ThreadpoolSystem α) : Prop where
  numWorkers : s'.pool.numWorkers = s.pool.numWorkers
  next : s'.pool.nextWorkerIndex = s.pool.nextWorkerIndex
  capacity : ∀ w, (s'.pool.workers w).queue.capacity = (s.pool.workers w).queue.capacity
  issuer : s'.issuer = s.issuer
  accepted : s'.accepted = s.accepted
  issues : s'.issues = s.issues
  executed : s.executed <+: s'.executed
  recorded : s.recorded ≤ s'.recorded

section Steps

variable {s s' : ThreadpoolSystem α} {w : Nat}

theorem WorkerStep.refl (s : ThreadpoolSystem α) : WorkerStep s s :=
  ⟨rfl, rfl, fun _ => rfl, rfl, rfl, rfl, List.prefix_rfl, Nat.le_refl _⟩

/-- A worker whose queue keeps its size. -/
theorem capacity_setWorker {worker : ThreadpoolWorker α}
    (h : worker.queue.capacity = (s.pool.workers w).queue.capacity) (v : Nat) :
    ((s.pool.setWorker w worker).workers v).queue.capacity =
      (s.pool.workers v).queue.capacity := by
  by_cases hv : v = w
  · subst hv
    show (Function.update s.pool.workers v worker v).queue.capacity = _
    rw [Function.update_self, h]
  · show (Function.update s.pool.workers w worker v).queue.capacity = _
    rw [Function.update_of_ne hv]

theorem workerStep (s : ThreadpoolSystem α) (w : Nat) : WorkerStep s (s.stepWorker w) := by
  cases hphase : (s.pool.workers w).phase with
  | reading =>
    cases hpop : (s.pool.workers w).queue.pop with
    | none =>
      simp only [ThreadpoolSystem.stepWorker, hphase, hpop]
      exact .refl s
    | some next =>
      obtain ⟨data, queue⟩ := next
      simp only [ThreadpoolSystem.stepWorker, hphase, hpop]
      exact ⟨rfl, rfl, capacity_setWorker (Fifo.capacity_of_pop hpop), rfl, rfl, rfl,
        List.prefix_rfl, Nat.le_refl _⟩
  | working data =>
    simp only [ThreadpoolSystem.stepWorker, hphase]
    exact ⟨rfl, rfl, capacity_setWorker rfl, rfl, rfl, rfl, List.prefix_append _ _, Nat.le_refl _⟩
  | recording data =>
    cases hissuer : s.issuer with
    | some call =>
      simp only [ThreadpoolSystem.stepWorker, hphase, hissuer]
      exact .refl s
    | none =>
      simp only [ThreadpoolSystem.stepWorker, hphase, hissuer]
      exact ⟨rfl, rfl, capacity_setWorker rfl, rfl, rfl, rfl, List.prefix_rfl, Nat.le_succ _⟩

end Steps

/-- The state of a pool of `n` workers after `workitems` were issued in the idle state `s₀`: the
first `i` of them are dealt out, and none was refused. -/
structure Issuing (n : Nat) (s₀ : ThreadpoolSystem α) (workitems : List α) (i : Nat)
    (s : ThreadpoolSystem α) : Prop extends Tracked s where
  numWorkers : s.pool.numWorkers = n
  capacity : ∀ w, (s.pool.workers w).queue.capacity = 1
  executed : s₀.executed <+: s.executed
  recorded : s₀.recorded ≤ s.recorded
  le : i ≤ workitems.length
  turn : s.pool.nextWorkerIndex = (s₀.pool.nextWorkerIndex + i) % n
  accepted : s.accepted = s₀.accepted ++ dealt s₀.pool.nextWorkerIndex n (workitems.take i)
  issuing : ∀ call, s.issuer = some call →
    call.workitems = workitems ∧ call.i = i ∧ call.count = 0
  returned : s.issuer = none →
    i = workitems.length ∧ ∃ r, s.issues.getLast? = some r ∧ r.ret = true

section Issuing

variable {n i w : Nat} {s₀ s : ThreadpoolSystem α} {workitems : List α} {item : α} {items : List α}

/-- The workers of an idle pool have nothing to do. -/
theorem PoolIdle.executed_eq (h : PoolIdle n s₀) (w : Nat) :
    itemsOf s₀.executed w = itemsOf s₀.accepted w := by
  have hfinished := (h.finished_iff).mp (h.finished_of_recorded h.recorded_eq)
  rw [h.placed w]
  by_cases hw : w < s₀.pool.numWorkers
  · rw [hfinished w hw, List.append_nil]
  · have hnone : itemsOf s₀.accepted w = [] := by
      rw [List.eq_nil_iff_forall_not_mem]
      intro x hx
      exact hw (h.inPool _ (mem_itemsOf.mp hx))
    rw [h.placed w, List.append_eq_nil_iff] at hnone
    rw [hnone.2, List.append_nil]

theorem PoolIdle.issue (h : PoolIdle n s₀) (hstep : s = threadpoolStep s₀ (.issue item items)) :
    Issuing n s₀ (item :: items) 0 s := by
  have htracked : Tracked s := hstep ▸ h.toTracked.step trivial
  have hissue : s₀.issue (item :: items) =
      { s₀ with
        pool := { s₀.pool with completed := false }
        issuer := some ⟨item :: items, 0, 0, false, []⟩ } := by
    rw [ThreadpoolSystem.issue, h.free]
  rw [threadpoolStep, ThreadpoolSystem.perform, hissue] at hstep
  subst hstep
  refine ⟨htracked, h.numWorkers, h.capacity, List.prefix_rfl, Nat.le_refl _, Nat.zero_le _, ?_, ?_,
    ?_, (by rintro ⟨⟩)⟩
  · rw [Nat.add_zero, Nat.mod_eq_of_lt (h.numWorkers ▸ h.toTracked.toPlaced.next)]
    rfl
  · exact (List.append_nil _).symm
  · rintro call hcall
    cases hcall
    exact ⟨rfl, rfl, rfl⟩

/-- The worker whose turn it is has an empty queue. -/
theorem Issuing.queue_empty (h : Issuing n s₀ workitems i s) (hidle : PoolIdle n s₀) (hi : i < n)
    (hlen : i < workitems.length) :
    (s.pool.workers s.pool.nextWorkerIndex).queue.items = [] := by
  have hplaced := congrArg List.length (h.placed s.pool.nextWorkerIndex)
  obtain ⟨rest, hrest⟩ := h.executed
  -- the call has handed it nothing so far, and what it had before is executed
  have htake : (workitems.take i).length = i := List.length_take_of_le hlen.le
  have hnone : itemsOf (dealt s₀.pool.nextWorkerIndex n (workitems.take i))
      s.pool.nextWorkerIndex = [] := by
    have hnext := itemsOf_dealt_next s₀.pool.nextWorkerIndex
      (show (workitems.take i).length < n by omega)
    rwa [htake, ← h.turn] at hnext
  rw [h.accepted, itemsOf_append, hnone, ← hrest, itemsOf_append, hidle.executed_eq,
    ThreadpoolWorker.pending] at hplaced
  simp only [List.length_append, List.length_nil] at hplaced
  exact List.length_eq_zero_iff.mp (by omega)

/-- The state after an item that the next worker takes. -/
def ThreadpoolSystem.taken (s : ThreadpoolSystem α) (call : IssueCall α) (item : α)
    (queue : Fifo α) : ThreadpoolSystem α :=
  { s with
    pool := Threadpool.setWorker { s.pool with
        nextWorkerIndex := (s.pool.nextWorkerIndex + 1) % s.pool.numWorkers
        numCurrentItems := s.pool.numCurrentItems + 1 } s.pool.nextWorkerIndex
      { s.pool.workers s.pool.nextWorkerIndex with queue := queue }
    issuer := some { call with
      i := call.i + 1
      count := 0
      wrote := true
      accepted := call.accepted ++ [item] }
    accepted := s.accepted ++ [(s.pool.nextWorkerIndex, item)] }

/-- The loops of the call are over when all items are dealt out. -/
theorem Issuing.over_iff (h : Issuing n s₀ workitems i s) {call : IssueCall α}
    (hcall : s.issuer = some call) (hn : 0 < n) :
    call.over s.pool.numWorkers = true ↔ i = workitems.length := by
  obtain ⟨hitems, hi, hcount⟩ := h.issuing call hcall
  rw [IssueCall.over, hitems, hi, hcount, h.numWorkers]
  simp [Nat.not_le.mpr hn]

/-- The next step of a call that has dealt out all items. -/
theorem Issuing.step_leave (h : Issuing n s₀ workitems i s) {call : IssueCall α}
    (hcall : s.issuer = some call) (hn : 0 < n) (hlast : i = workitems.length) :
    threadpoolStep s .issuer = (s.leave call).observe := by
  rw [threadpoolStep, ThreadpoolSystem.perform, ThreadpoolSystem.stepIssuer, hcall]
  exact congrArg _ (if_pos ((h.over_iff hcall hn).mpr hlast))

/-- The next step of a call that has more items: the worker whose turn it is takes one. -/
theorem Issuing.step_taken (h : Issuing n s₀ workitems i s) (hidle : PoolIdle n s₀)
    (hfit : workitems.length ≤ n) {call : IssueCall α} (hcall : s.issuer = some call)
    (hlt : i < workitems.length) :
    ∃ queue, (s.pool.workers s.pool.nextWorkerIndex).queue.push workitems[i] = some queue ∧
      s.offer call workitems[i] = s.taken call workitems[i] queue ∧
      threadpoolStep s .issuer = (s.taken call workitems[i] queue).observe := by
  obtain ⟨hitems, hi, hcount⟩ := h.issuing call hcall
  have hempty := h.queue_empty hidle (by omega) hlt
  obtain ⟨queue, hqueue⟩ := Fifo.exists_push (x := workitems[i])
    (q := (s.pool.workers s.pool.nextWorkerIndex).queue) (by
      rw [hempty, h.capacity]
      exact Nat.one_pos)
  have hoffer : s.offer call workitems[i] = s.taken call workitems[i] queue := by
    simp only [ThreadpoolSystem.offer, hqueue, ThreadpoolSystem.taken]
  have hitem : call.workitems[call.i]? = some workitems[i] := by
    rw [hitems, hi, List.getElem?_eq_getElem hlt]
  have hover : ¬call.over s.pool.numWorkers = true := fun hover =>
    absurd ((h.over_iff hcall (by omega)).mp hover) (Nat.ne_of_lt hlt)
  refine ⟨queue, hqueue, hoffer, ?_⟩
  rw [threadpoolStep, ThreadpoolSystem.perform, ThreadpoolSystem.stepIssuer, hcall]
  simp only [hitem, if_neg hover, hoffer]

/-- The next step of `threadpool_issue` deals out an item, or the call returns `true_e`. -/
theorem Issuing.stepIssuer (h : Issuing n s₀ workitems i s) (hidle : PoolIdle n s₀)
    (hfit : workitems.length ≤ n) (hlen : workitems.length < 2 ^ 31) (hne : workitems ≠ []) :
    ∃ j, Issuing n s₀ workitems j (threadpoolStep s .issuer) := by
  have hn : 0 < n := Nat.lt_of_lt_of_le (List.length_pos_of_ne_nil hne) hfit
  cases hissuer : s.issuer with
  | none =>
    have hstep : threadpoolStep s .issuer = s.observe := by
      rw [threadpoolStep, ThreadpoolSystem.perform, ThreadpoolSystem.stepIssuer, hissuer]
    rw [hstep]
    exact ⟨i, h.toTracked.observe, h.numWorkers, h.capacity, h.executed, h.recorded, h.le, h.turn,
      h.accepted, h.issuing, h.returned⟩
  | some call =>
    obtain ⟨hitems, hi, -⟩ := h.issuing call hissuer
    by_cases hlast : i = workitems.length
    -- what is not recorded is of this call, so that the count is no negative number
    · have hfits : s.accepted.length - s.recorded < 2 ^ 31 := by
        have hrecorded := h.recorded
        rw [h.accepted, List.length_append, length_dealt, List.length_take_of_le h.le,
          hidle.recorded_eq]
        omega
      have htracked := h.toTracked.leave hissuer ((h.over_iff hissuer hn).mpr hlast) hfits
      have hwrote : call.wrote = true := (h.call call hissuer).wrote (by rw [hitems, hi, hlast])
      rw [h.step_leave hissuer hn hlast]
      refine ⟨i, htracked.observe, h.numWorkers, h.capacity, h.executed, h.recorded, h.le, h.turn,
        h.accepted, (by rintro _ ⟨⟩), fun _ => ⟨hlast, ?_⟩⟩
      exact ⟨_, List.getLast?_concat, hwrote⟩
    · have hlt : i < workitems.length := Nat.lt_of_le_of_ne h.le hlast
      have hitem : call.workitems[call.i]? = some workitems[i] := by
        rw [hitems, hi, List.getElem?_eq_getElem hlt]
      obtain ⟨queue, hqueue, hoffer, hstep⟩ := h.step_taken hidle hfit hissuer hlt
      have htracked := h.toTracked.offer hissuer hitem
      rw [hstep]
      rw [hoffer] at htracked
      refine ⟨i + 1, htracked.observe, h.numWorkers, fun w => ?_, h.executed, h.recorded, hlt, ?_,
        ?_, ?_, (by rintro ⟨⟩)⟩
      · exact (capacity_setWorker (Fifo.capacity_of_push hqueue) w).trans (h.capacity w)
      · show (s.pool.nextWorkerIndex + 1) % s.pool.numWorkers = _
        rw [h.numWorkers, h.turn, Nat.mod_add_mod, Nat.add_assoc]
      · show s.accepted ++ [(s.pool.nextWorkerIndex, workitems[i])] = _
        rw [List.take_add_one, List.getElem?_eq_getElem hlt, Option.toList_some,
          dealt_append_singleton, h.accepted, h.turn, List.length_take_of_le h.le,
          List.append_assoc]
      · rintro _ ⟨⟩
        exact ⟨hitems, congrArg (· + 1) hi, rfl⟩

theorem Issuing.stepWorker (h : Issuing n s₀ workitems i s) (w : Nat) :
    Issuing n s₀ workitems i (threadpoolStep s (.worker w)) := by
  have htracked := h.toTracked.step (show CountFits s (.worker w) from trivial)
  rw [threadpoolStep, ThreadpoolSystem.perform] at htracked ⊢
  split at htracked
  case isTrue hw =>
    rw [if_pos hw]
    have hkeep := workerStep s w
    exact ⟨htracked, hkeep.numWorkers.trans h.numWorkers,
      fun v => (hkeep.capacity v).trans (h.capacity v), h.executed.trans hkeep.executed,
      h.recorded.trans hkeep.recorded, h.le, hkeep.next.trans h.turn,
      hkeep.accepted.trans h.accepted, fun call hcall => h.issuing call (hkeep.issuer ▸ hcall),
      fun hnone => hkeep.issues ▸ h.returned (hkeep.issuer ▸ hnone)⟩
  case isFalse hw =>
    rw [if_neg hw]
    exact ⟨htracked, h.numWorkers, h.capacity, h.executed, h.recorded, h.le, h.turn, h.accepted,
      h.issuing, h.returned⟩

/-- Steps of the call and of the workers keep the invariant. -/
theorem Issuing.serve (h : Issuing n s₀ workitems i s) (hidle : PoolIdle n s₀)
    (hfit : workitems.length ≤ n) (hlen : workitems.length < 2 ^ 31) (hne : workitems ≠ [])
    {acts : List (ThreadpoolAct α)} (hserve : ∀ act ∈ acts, act.Serves) :
    ∃ j, Issuing n s₀ workitems j (acts.foldl threadpoolStep s) := by
  induction acts generalizing s i with
  | nil => exact ⟨i, h⟩
  | cons act acts ih =>
    obtain ⟨hact, hrest⟩ := List.forall_mem_cons.mp hserve
    cases act with
    | issuer =>
      obtain ⟨j, hj⟩ := h.stepIssuer hidle hfit hlen hne
      exact ih hj hrest
    | worker w => exact ih (h.stepWorker w) hrest
    | issue _ _ => exact absurd hact id
    | complete _ _ => exact absurd hact id
    | wake _ => exact absurd hact id

/-- The call has returned and the event is set. -/
def Done (s : ThreadpoolSystem α) : Prop := s.issuer = none ∧ s.pool.completed = true

/-- When the event is set the pool is idle and has executed the items. -/
theorem Issuing.done (h : Issuing n s₀ workitems i s) (hidle : PoolIdle n s₀) (hdone : Done s) :
    PoolIdle n s ∧ ∃ done, s.executed = s₀.executed ++ done ∧
      ∀ x, x ∈ done.map Prod.snd ↔ x ∈ workitems := by
  -- while the event is set there is nothing left to record
  have hidle' : PoolIdle n s :=
    ⟨h.toTracked, h.numWorkers, h.capacity, hdone.1, h.quiet hdone.2⟩
  obtain ⟨rest, hrest⟩ := h.executed
  refine ⟨hidle', rest, hrest.symm, fun x => ?_⟩
  have hitems : workitems.take i = workitems := by rw [(h.returned hdone.1).1, List.take_length]
  have hdealt : ∀ w, itemsOf rest w = itemsOf (dealt s₀.pool.nextWorkerIndex n workitems) w := by
    intro w
    have heq := hidle'.executed_eq w
    rw [h.accepted, hitems, ← hrest, itemsOf_append, itemsOf_append, hidle.executed_eq] at heq
    exact List.append_cancel_left heq
  have hmap := map_snd_dealt s₀.pool.nextWorkerIndex n workitems
  conv_rhs => rw [← hmap]
  simp only [List.mem_map, Prod.exists, exists_eq_right]
  constructor
  · rintro ⟨w, hmem⟩
    exact ⟨w, mem_itemsOf.mp (hdealt w ▸ mem_itemsOf.mpr hmem)⟩
  · rintro ⟨w, hmem⟩
    exact ⟨w, mem_itemsOf.mp (hdealt w ▸ mem_itemsOf.mpr hmem)⟩

end Issuing

/-! ## The steps end -/

/-- How many steps a worker has to make for the items it has. -/
def ThreadpoolWorker.steps (worker : ThreadpoolWorker α) : Nat :=
  3 * worker.queue.items.length +
    match worker.phase with
    | .reading => 0
    | .working _ => 2
    | .recording _ => 1

/-- A bound for the number of steps until all is done. -/
def ThreadpoolSystem.potential (s : ThreadpoolSystem α) : Nat :=
  (match s.issuer with
    | some call => 4 * (call.workitems.length + 1 - call.i)
    | none => 0) + s.pool.total ThreadpoolWorker.steps

section Potential

variable {n i w : Nat} {s₀ s : ThreadpoolSystem α} {workitems : List α}

/-- A worker that has something to do has less of it after a step. -/
theorem exists_stepWorker_steps (hfree : s.issuer = none)
    (hsteps : (s.pool.workers w).steps ≠ 0) :
    ∃ worker, (s.stepWorker w).issuer = none ∧
      (s.stepWorker w).pool.numWorkers = s.pool.numWorkers ∧
      (s.stepWorker w).pool.workers = Function.update s.pool.workers w worker ∧
      worker.steps < (s.pool.workers w).steps := by
  cases hphase : (s.pool.workers w).phase with
  | reading =>
    cases hpop : (s.pool.workers w).queue.pop with
    | none =>
      rw [ThreadpoolWorker.steps, hphase, Fifo.pop_eq_none_iff.mp hpop] at hsteps
      exact absurd rfl hsteps
    | some next =>
      obtain ⟨data, queue⟩ := next
      refine ⟨⟨queue, .working data⟩, ?_⟩
      simp only [ThreadpoolSystem.stepWorker, hphase, hpop]
      refine ⟨hfree, rfl, rfl, ?_⟩
      simp only [ThreadpoolWorker.steps, hphase, Fifo.items_of_pop hpop, List.length_cons]
      omega
  | working data =>
    refine ⟨{ s.pool.workers w with phase := .recording data }, ?_⟩
    simp only [ThreadpoolSystem.stepWorker, hphase]
    refine ⟨hfree, rfl, rfl, ?_⟩
    simp only [ThreadpoolWorker.steps, hphase]
    omega
  | recording data =>
    refine ⟨{ s.pool.workers w with phase := .reading }, ?_⟩
    simp only [ThreadpoolSystem.stepWorker, hphase, hfree]
    refine ⟨hfree, rfl, rfl, ?_⟩
    simp only [ThreadpoolWorker.steps, hphase]
    omega

theorem stepWorker_potential (hw : w < s.pool.numWorkers) (hfree : s.issuer = none)
    (hsteps : (s.pool.workers w).steps ≠ 0) :
    (threadpoolStep s (.worker w)).potential < s.potential := by
  obtain ⟨worker, hissuer, hnum, hworkers, hlt⟩ := exists_stepWorker_steps hfree hsteps
  have htotal := Threadpool.total_update (f := ThreadpoolWorker.steps) hw hnum hworkers
  rw [threadpoolStep, ThreadpoolSystem.perform, if_pos hw]
  show (match (s.stepWorker w).issuer with
    | some call => 4 * (call.workitems.length + 1 - call.i)
    | none => 0) + (s.stepWorker w).pool.total ThreadpoolWorker.steps < s.potential
  rw [ThreadpoolSystem.potential, hissuer, hfree]
  omega

/-- A worker without a step to make has nothing to execute, and nothing to record. -/
theorem ThreadpoolWorker.idle_of_steps_eq_zero {worker : ThreadpoolWorker α}
    (h : worker.steps = 0) : worker.pending.length + worker.unrecorded = 0 := by
  rw [ThreadpoolWorker.steps] at h
  cases hphase : worker.phase with
  | reading =>
    simp only [hphase] at h
    simp only [ThreadpoolWorker.pending, ThreadpoolWorker.unrecorded, hphase, WorkerPhase.hand,
      List.nil_append]
    omega
  | working data =>
    simp only [hphase] at h
    omega
  | recording data =>
    simp only [hphase] at h
    omega

/-- As long as an item is not recorded some worker has a step to make. -/
theorem Tracked.exists_steps_ne_zero (h : Tracked s) (hne : s.accepted.length ≠ s.recorded) :
    ∃ w < s.pool.numWorkers, (s.pool.workers w).steps ≠ 0 := by
  by_contra hnone
  push Not at hnone
  have hzero : s.pool.total (fun worker => worker.pending.length + worker.unrecorded) = 0 :=
    Threads.total_eq_zero_iff.mpr fun w hw => ThreadpoolWorker.idle_of_steps_eq_zero (hnone w hw)
  rw [Threadpool.total, Threads.total_add] at hzero
  have hexecuted := h.executed_add
  have hrecorded := h.recorded_add
  rw [Threadpool.total] at hexecuted hrecorded
  omega

/-- An item that is taken is one less to deal out, which is worth more than its three steps. -/
theorem potential_taken {call : IssueCall α} {item : α} {queue : Fifo α} (hissuer : s.issuer = some call)
    (hnext : s.pool.nextWorkerIndex < s.pool.numWorkers) (hlt : call.i < call.workitems.length)
    (hqueue : (s.pool.workers s.pool.nextWorkerIndex).queue.push item = some queue) :
    (s.taken call item queue).potential < s.potential := by
  have hnum : (s.taken call item queue).pool.numWorkers = s.pool.numWorkers := rfl
  have htotal := Threadpool.total_update (f := ThreadpoolWorker.steps) hnext hnum rfl
  simp only [ThreadpoolWorker.steps, Fifo.items_of_push hqueue, List.length_append,
    List.length_singleton] at htotal
  show 4 * (call.workitems.length + 1 - (call.i + 1)) +
    (s.taken call item queue).pool.total ThreadpoolWorker.steps < s.potential
  rw [ThreadpoolSystem.potential, hissuer]
  dsimp only
  omega

/-- As long as not all is done, some step comes nearer to it. -/
theorem Issuing.exists_step (h : Issuing n s₀ workitems i s) (hidle : PoolIdle n s₀)
    (hfit : workitems.length ≤ n) (hne : workitems ≠ []) (hdone : ¬Done s) :
    ∃ act : ThreadpoolAct α, act.Serves ∧ (threadpoolStep s act).potential < s.potential := by
  cases hissuer : s.issuer with
  | some call =>
    refine ⟨.issuer, trivial, ?_⟩
    obtain ⟨hitems, hi, -⟩ := h.issuing call hissuer
    by_cases hlast : i = workitems.length
    · have hn : 0 < n := Nat.lt_of_lt_of_le (List.length_pos_of_ne_nil hne) hfit
      rw [h.step_leave hissuer hn hlast]
      show 0 + s.pool.total ThreadpoolWorker.steps < s.potential
      rw [ThreadpoolSystem.potential, hissuer]
      simp only [hitems, hi]
      omega
    · have hlt : i < workitems.length := Nat.lt_of_le_of_ne h.le hlast
      obtain ⟨queue, hqueue, -, hstep⟩ := h.step_taken hidle hfit hissuer hlt
      rw [hstep]
      exact potential_taken hissuer h.toTracked.toPlaced.next (hitems ▸ hi ▸ hlt) hqueue
  | none =>
    have hissues : s.issues ≠ [] := by
      obtain ⟨-, r, hr, -⟩ := h.returned hissuer
      exact List.ne_nil_of_mem (List.mem_of_getLast? hr)
    have hne : s.accepted.length ≠ s.recorded := fun heq =>
      hdone ⟨hissuer, h.signalled hissuer hissues heq⟩
    obtain ⟨w, hw, hsteps⟩ := h.toTracked.exists_steps_ne_zero hne
    exact ⟨.worker w, trivial, stepWorker_potential hw hissuer hsteps⟩

/-- Some steps lead to a state in which all is done. -/
theorem Issuing.exists_done (h : Issuing n s₀ workitems i s) (hidle : PoolIdle n s₀)
    (hfit : workitems.length ≤ n) (hlen : workitems.length < 2 ^ 31) (hne : workitems ≠ []) :
    ∃ acts : List (ThreadpoolAct α), (∀ act ∈ acts, act.Serves) ∧
      Done (acts.foldl threadpoolStep s) := by
  induction hpotential : s.potential using Nat.strong_induction_on generalizing s i with
  | _ p ih =>
    subst hpotential
    by_cases hdone : Done s
    · exact ⟨[], fun _ hact => absurd hact List.not_mem_nil, hdone⟩
    · obtain ⟨act, hact, hlt⟩ := h.exists_step hidle hfit hne hdone
      have hserve : ∀ b ∈ [act], b.Serves := fun b hb => List.mem_singleton.mp hb ▸ hact
      obtain ⟨j, hj⟩ := h.serve hidle hfit hlen hne hserve
      obtain ⟨acts, hrest, hend⟩ := ih _ hlt hj rfl
      exact ⟨act :: acts, List.forall_mem_cons.mpr ⟨hact, hrest⟩, hend⟩

end Potential

/-! ## A batch -/

section Batch

variable {n : Nat} {s s' : ThreadpoolSystem α} {item : α} {items : List α}

/-- The steps of a caller of `threadpool_complete` change its own record only. -/
theorem perform_ask (s : ThreadpoolSystem α) {act : ThreadpoolAct α}
    (hact : act = .complete 0 true ∨ act = .wake 0) :
    ∃ waiting completes, s.perform act = { s with waiting := waiting, completes := completes } := by
  rcases hact with rfl | rfl
  · simp only [ThreadpoolSystem.perform, ThreadpoolSystem.complete]
    split
    · exact ⟨_, _, rfl⟩
    · simp only [if_true]
      split
      · exact ⟨_, _, rfl⟩
      · exact ⟨_, _, rfl⟩
  · simp only [ThreadpoolSystem.perform, ThreadpoolSystem.wake]
    split
    · exact ⟨_, _, rfl⟩
    · exact ⟨_, _, rfl⟩

theorem Issuing.ask {n i : Nat} {s₀ s : ThreadpoolSystem α} {workitems : List α}
    (h : Issuing n s₀ workitems i s) {act : ThreadpoolAct α}
    (hact : act = .complete 0 true ∨ act = .wake 0) :
    Issuing n s₀ workitems i (threadpoolStep s act) ∧ (Done s → Done (threadpoolStep s act)) := by
  obtain ⟨waiting, completes, hperform⟩ := perform_ask s hact
  have hfits : CountFits s act := by rcases hact with rfl | rfl <;> trivial
  have htracked := h.toTracked.step hfits
  rw [threadpoolStep, hperform] at htracked ⊢
  exact ⟨⟨htracked, h.numWorkers, h.capacity, h.executed, h.recorded, h.le, h.turn, h.accepted,
    h.issuing, h.returned⟩, id⟩

/-- After a batch the workers have executed its items, and the pool is idle. -/
theorem Batch.executes (hbatch : Batch s item items s') (hidle : PoolIdle n s)
    (hfit : (item :: items).length ≤ n) (hlen : (item :: items).length < 2 ^ 31) :
    PoolIdle n s' ∧ ∃ done, s'.executed = s.executed ++ done ∧
      ∀ x, x ∈ done.map Prod.snd ↔ x ∈ item :: items := by
  have hne : item :: items ≠ [] := List.cons_ne_nil _ _
  cases hbatch with
  | refused hserve hreturned =>
    -- no item is refused
    obtain ⟨j, hj⟩ := (hidle.issue rfl).serve hidle hfit hlen hne hserve
    obtain ⟨-, r, hr, htrue⟩ := hj.returned hreturned.1
    obtain ⟨r', hr', hfalse⟩ := hreturned.2
    rw [issued, hr] at hr'
    cases hr'
    exact absurd (htrue.symm.trans hfalse) (by decide)
  | found hserve hreturned hset =>
    obtain ⟨j, hj⟩ := (hidle.issue rfl).serve hidle hfit hlen hne hserve
    obtain ⟨hask, hdone⟩ := hj.ask (.inl rfl)
    exact hask.done hidle (hdone ⟨hreturned.1, hset⟩)
  | woken hserve hreturned hserve' hset =>
    obtain ⟨j, hj⟩ := (hidle.issue rfl).serve hidle hfit hlen hne hserve
    obtain ⟨j', hj'⟩ := (hj.ask (.inl rfl)).1.serve hidle hfit hlen hne hserve'
    obtain ⟨hask, hdone⟩ := hj'.ask (.inr rfl)
    -- the event is reset while the call has the semaphore
    have hfree := Option.eq_none_iff_forall_ne_some.mpr fun call hcall =>
      Bool.noConfusion (hset.symm.trans (hj'.reset call hcall))
    exact hask.done hidle (hdone ⟨hfree, hset⟩)

/-- There is a batch. -/
theorem exists_batch (hidle : PoolIdle n s) (hfit : (item :: items).length ≤ n)
    (hlen : (item :: items).length < 2 ^ 31) : ∃ s', Batch s item items s' := by
  obtain ⟨acts, hserve, hdone⟩ :=
    (hidle.issue rfl).exists_done hidle hfit hlen (List.cons_ne_nil _ _)
  obtain ⟨j, hj⟩ := (hidle.issue rfl).serve hidle hfit hlen (List.cons_ne_nil _ _) hserve
  obtain ⟨-, r, hr, hret⟩ := hj.returned hdone.1
  exact ⟨_, .found hserve ⟨hdone.1, r, hr, hret⟩ hdone.2⟩

end Batch

end DVP.Sosal
