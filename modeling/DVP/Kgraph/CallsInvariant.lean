import DVP.Kgraph.Calls
import DVP.Sosal.Threadpool.Runs

/-!
# What calls that share the thread pool keep

`CallsInv` holds as long as no caller assigns to an entry of `collectors` that another one has filled
and not yet issued, the pool takes all items of a batch, and `event_wait` returns with the event set
(`stepApart`). It has three parts:

* what a caller has put into `collectors` is there until it is written to a queue (`Slots`);
* each section that a call meant to run is still to be issued, in a queue, in a worker's hands, or has
  run, and in one of these places (`balance`), and so for the callbacks (`reported`);
* no item of a caller is left in the pool unless the caller is between `threadpool_issue` and the end
  of `threadpool_complete` (`settled`).
-/

namespace DVP.Kgraph

open DVP.Sosal

/-! ## The conditions -/

/-- The caller has assigned to the entry `g` of `collectors` and still has to write it to a queue. -/
def CallLocation.uses (issuer : Option (IssueCall Collector)) : CallLocation → Nat → Bool
  | .fill ppSections g step, j => decide (j < ppSections.length ∧ (j < g ∨ j = g ∧ step ≠ .dvp))
  | .issue ppSections, j => decide (j < ppSections.length)
  | .issuing ppSections, j =>
    decide (j < ppSections.length) && issuer.all fun call => decide (call.i ≤ j)
  | _, _ => false

/-- No other caller uses the entry of `collectors` that the caller assigns to, a call of
`threadpool_issue` ends with all its items written, and an event wait ends with the event set. -/
def stepApart (env : CallEnv) (s : CallSystem) : CallAct → Bool
  | .caller c =>
    match (s.callers c).location with
    | .fill ppSections g _ =>
      decide (ppSections.length ≤ g) || (List.range env.numCallers).all fun c' =>
        c' == c || !(s.callers c').location.uses s.pool.issuer g
    | .issuing _ =>
      s.pool.issuer.all fun call => !call.over s.pool.pool.numWorkers || call.wrote
    | .waiting _ => s.pool.pool.completed
    | _ => true
  | _ => true

/-! ## What is in the entries -/

/-- The pointer to the nodes tells the section `i` from the others of the graph. -/
def CallEnv.Distinct (env : CallEnv) (c i : Nat) : Prop :=
  ∀ j < (env.graphs c).sections.length, env.pNodes c j = env.pNodes c i → j = i

/-- An item that the caller `c` means to run for its section `i`. -/
structure IsFor (env : CallEnv) (c i : Nat) (x : Collector) : Prop where
  dvp : x.dvp = some (env.handles c)
  graph : x.graph = some c
  graphSection : x.graphSection = some (c, i)
  index : env.Distinct c i → x.index = i
  cookie : x.cookie = env.cookies c
  callback : x.callback = env.callbacks c

/-- An entry that the caller `c` has filled for its section `i` up to a step. -/
def Partly (env : CallEnv) (c i : Nat) : FillStep → Collector → Prop
  | .dvp, _ => True
  | .graph, x => x.dvp = some (env.handles c)
  | .graphSection, x => x.dvp = some (env.handles c) ∧ x.graph = some c
  | .index s, x =>
    (x.dvp = some (env.handles c) ∧ x.graph = some c ∧ x.graphSection = some (c, i)) ∧
      (env.Distinct c i → i < s → x.index = i)
  | .cookie, x =>
    (x.dvp = some (env.handles c) ∧ x.graph = some c ∧ x.graphSection = some (c, i)) ∧
      (env.Distinct c i → x.index = i)
  | .callback, x =>
    (x.dvp = some (env.handles c) ∧ x.graph = some c ∧ x.graphSection = some (c, i)) ∧
      (env.Distinct c i → x.index = i) ∧ x.cookie = env.cookies c

section Entry

variable {env : CallEnv} {c i : Nat} {x : Collector}

/-- The item of a caller is for it. -/
theorem isFor_item (env : CallEnv) (c i : Nat) : IsFor env c i (env.item c i) :=
  ⟨rfl, rfl, rfl, fun _ => rfl, rfl, rfl⟩

/-- An assignment fills an entry further. -/
theorem fillEntry_spec {step : FillStep} (hi : i < (env.graphs c).sections.length)
    (h : Partly env c i step x) :
    match (env.fillEntry c i x step).2 with
    | some step' => step' ≠ .dvp ∧ Partly env c i step' (env.fillEntry c i x step).1
    | none => IsFor env c i (env.fillEntry c i x step).1 := by
  cases step with
  | dvp => exact ⟨nofun, rfl⟩
  | graph => exact ⟨nofun, h, rfl⟩
  | graphSection => exact ⟨nofun, ⟨h.1, h.2, rfl⟩, fun _ hlt => absurd hlt (Nat.not_lt_zero _)⟩
  | index s =>
    obtain ⟨hfilled, hindex⟩ := h
    rw [CallEnv.fillEntry]
    split_ifs with hs hnodes
    · refine ⟨nofun, hfilled, fun hdistinct _ => hdistinct s hs ?_⟩
      rw [hfilled.2.2] at hnodes
      exact (Option.some.inj hnodes).symm
    · refine ⟨nofun, hfilled, fun hdistinct hlt => hindex hdistinct ?_⟩
      -- The section `i` itself has its nodes.
      have hne : i ≠ s := by
        rintro rfl
        exact hnodes (by rw [hfilled.2.2]; rfl)
      omega
    · exact ⟨nofun, hfilled, fun hdistinct => hindex hdistinct (by omega)⟩
  | cookie => exact ⟨nofun, h.1, h.2, rfl⟩
  | callback => exact ⟨h.1.1, h.1.2.1, h.1.2.2, h.2.1, h.2.2, rfl⟩

end Entry

/-- What a caller has put into `collectors` and not yet written to a queue. -/
def Slots (env : CallEnv) (collectors : Nat → Collector) (issuer : Option (IssueCall Collector))
    (c : Nat) : CallLocation → Prop
  | .fill ppSections g step =>
    (∀ j < g, ∀ i, ppSections[j]? = some i → IsFor env c i (collectors j)) ∧
      ∀ i, ppSections[g]? = some i → Partly env c i step (collectors g)
  | .issue ppSections => ∀ j i, ppSections[j]? = some i → IsFor env c i (collectors j)
  | .issuing ppSections =>
    ∃ call, issuer = some call ∧ call.workitems.length = ppSections.length ∧
      ∀ j i, ppSections[j]? = some i →
        ∃ x, call.workitems[j]? = some x ∧ IsFor env c i x ∧ (call.i ≤ j → collectors j = x)
  | _ => True

/-- The caller has the semaphore of the pool. -/
def CallLocation.isIssuing : CallLocation → Bool
  | .issuing _ => true
  | _ => false

section Slots

variable {env : CallEnv} {collectors collectors' : Nat → Collector}
  {issuer issuer' : Option (IssueCall Collector)} {c : Nat} {location : CallLocation}

/-- Before the first assignment an entry may be anything. -/
theorem Partly.of_dvp {i : Nat} {x : Collector} : Partly env c i .dvp x := trivial

/-- Entries that the caller does not use may change. -/
theorem Slots.frame (h : Slots env collectors issuer c location)
    (heq : ∀ g, collectors' g = collectors g ∨ location.uses issuer g = false) :
    Slots env collectors' issuer c location := by
  cases location with
  | fill ppSections g step =>
    -- a slot that was filled is used, and so has not changed
    have huses : ∀ j i, ppSections[j]? = some i → (j < g ∨ j = g ∧ step ≠ .dvp) →
        collectors' j = collectors j := fun j i hj hused => by
      refine (heq j).resolve_right fun hno => ?_
      rw [CallLocation.uses, decide_eq_false_iff_not] at hno
      exact hno ⟨(List.getElem?_eq_some_iff.mp hj).1, hused⟩
    refine ⟨fun j hlt i hj => ?_, fun i hg => ?_⟩
    · rw [huses j i hj (.inl hlt)]
      exact h.1 j hlt i hj
    · by_cases hstep : step = .dvp
      · subst hstep
        exact .of_dvp
      · rw [huses g i hg (.inr ⟨rfl, hstep⟩)]
        exact h.2 i hg
  | issue ppSections =>
    intro j i hj
    have hcollectors : collectors' j = collectors j := by
      refine (heq j).resolve_right fun hno => ?_
      rw [CallLocation.uses, decide_eq_false_iff_not] at hno
      exact hno (List.getElem?_eq_some_iff.mp hj).1
    rw [hcollectors]
    exact h j i hj
  | issuing ppSections =>
    obtain ⟨call, rfl, hlen, hitems⟩ := h
    refine ⟨call, rfl, hlen, fun j i hj => ?_⟩
    obtain ⟨x, hx, hfor, hcollector⟩ := hitems j i hj
    refine ⟨x, hx, hfor, fun hle => ?_⟩
    have hcollectors : collectors' j = collectors j := by
      refine (heq j).resolve_right fun hno => ?_
      rw [CallLocation.uses, Option.all_some, Bool.and_eq_false_iff, decide_eq_false_iff_not,
        decide_eq_false_iff_not] at hno
      exact hno.elim (fun hno => hno (List.getElem?_eq_some_iff.mp hj).1) fun hno => hno hle
    rw [hcollectors]
    exact hcollector hle
  | _ => trivial

/-- Only the caller with the semaphore cares about its call. -/
theorem Slots.of_not_issuing (h : Slots env collectors issuer c location)
    (hnot : location.isIssuing = false) : Slots env collectors issuer' c location := by
  cases location with
  | issuing ppSections => cases hnot
  | fill ppSections g step => exact h
  | issue ppSections => exact h
  | _ => trivial

end Slots

/-! ## The pool -/

/-- The pool of `DVP_KernelGraph_Init`. -/
structure PoolOk (pool : ThreadpoolSystem Collector) : Prop extends Tracked pool where
  numWorkers : pool.pool.numWorkers = maxSections
  capacity : ∀ w, (pool.pool.workers w).queue.capacity = maxQueueDepth

namespace PoolOk

variable {pool : ThreadpoolSystem Collector} {call : IssueCall Collector} {item : Collector}

/-- The pool is all right at the start. -/
theorem initial : PoolOk (.initial (threadpoolCreate maxSections maxQueueDepth)) where
  toTracked := .initial (by decide)
  numWorkers := rfl
  capacity _ := rfl

/-- The workers hold few items. -/
theorem few (h : PoolOk pool) : pool.accepted.length - pool.recorded < 2 ^ 31 := by
  have hpending : pool.pool.total (fun worker => worker.pending.length) ≤
      pool.pool.numWorkers * (maxQueueDepth + 1) := by
    refine Threads.total_le fun w _ => ?_
    have hbound := (pool.pool.workers w).queue.bound
    rw [h.capacity] at hbound
    have hhand : (pool.pool.workers w).phase.hand.length ≤ 1 := by
      cases (pool.pool.workers w).phase <;> simp [WorkerPhase.hand]
    rw [ThreadpoolWorker.pending, List.length_append]
    omega
  have hunrecorded : pool.pool.total ThreadpoolWorker.unrecorded ≤ pool.pool.numWorkers * 1 := by
    refine Threads.total_le fun w _ => ?_
    rw [ThreadpoolWorker.unrecorded]
    split <;> omega
  have hexecuted := h.executed_add
  have hrecorded := h.recorded_add
  rw [h.numWorkers] at hpending hunrecorded
  have hsmall : maxSections * (maxQueueDepth + 1) + maxSections * 1 = 16 := rfl
  omega

/-- When the event is set no worker has an item left. -/
theorem pending_eq_nil (h : PoolOk pool) (hset : pool.pool.completed = true) {w : Nat}
    (hw : w < maxSections) : (pool.pool.workers w).pending = [] :=
  h.toPlaced.finished_iff.mp (h.toPlaced.finished_of_recorded (h.quiet hset)) w
    (h.numWorkers.symm ▸ hw)

/-- The pool stays all right when items are issued. -/
theorem issue (h : PoolOk pool) (hfree : pool.issuer = none) {items : List Collector}
    (hne : items ≠ []) : PoolOk (pool.issue items).observe := by
  have htracked := (h.toTracked.issue items hne).observe
  rw [ThreadpoolSystem.issue, hfree] at htracked ⊢
  exact ⟨htracked, h.numWorkers, h.capacity⟩

/-- The pool stays all right when the issue ends. -/
theorem leave (h : PoolOk pool) (hcall : pool.issuer = some call)
    (hover : call.over pool.pool.numWorkers = true) : PoolOk (pool.leave call).observe :=
  ⟨(h.toTracked.leave hcall hover h.few).observe, h.numWorkers, h.capacity⟩

/-- The pool stays all right when an item is offered. -/
theorem offer (h : PoolOk pool) (hcall : pool.issuer = some call)
    (hitem : call.workitems[call.i]? = some item) : PoolOk (pool.offer call item).observe := by
  have htracked := (h.toTracked.offer hcall hitem).observe
  rw [ThreadpoolSystem.offer] at htracked ⊢
  dsimp only at htracked ⊢
  split at htracked
  · next queue hpush =>
    refine ⟨htracked, h.numWorkers, fun w => ?_⟩
    dsimp only [ThreadpoolSystem.observe, Threadpool.setWorker]
    by_cases hw : w = pool.pool.nextWorkerIndex
    · rw [hw, Function.update_self]
      exact (Fifo.capacity_of_push hpush).trans (h.capacity _)
    · rw [Function.update_of_ne hw]
      exact h.capacity w
  · exact ⟨htracked, h.numWorkers, h.capacity⟩

/-- A call of `threadpool_complete` only looks. -/
theorem complete_eq (pool : ThreadpoolSystem Collector) (c : Nat) :
    (threadpoolStep pool (.complete c true)).pool = pool.pool ∧
      (threadpoolStep pool (.complete c true)).issuer = pool.issuer := by
  rw [threadpoolStep, ThreadpoolSystem.perform, ThreadpoolSystem.complete]
  split
  · exact ⟨rfl, rfl⟩
  · rw [if_pos rfl]
    split <;> exact ⟨rfl, rfl⟩

/-- Waking a thread changes neither the pool nor who issues. -/
theorem wake_eq (pool : ThreadpoolSystem Collector) (c : Nat) :
    (threadpoolStep pool (.wake c)).pool = pool.pool ∧
      (threadpoolStep pool (.wake c)).issuer = pool.issuer := by
  rw [threadpoolStep, ThreadpoolSystem.perform, ThreadpoolSystem.wake]
  split <;> exact ⟨rfl, rfl⟩

/-- The pool stays all right when a caller waits. -/
theorem complete (h : PoolOk pool) (c : Nat) : PoolOk (threadpoolStep pool (.complete c true)) := by
  refine ⟨h.toTracked.step trivial, ?_, fun w => ?_⟩
  · rw [(complete_eq pool c).1]
    exact h.numWorkers
  · rw [(complete_eq pool c).1]
    exact h.capacity w

/-- The pool stays all right when a thread wakes. -/
theorem wake (h : PoolOk pool) (c : Nat) : PoolOk (threadpoolStep pool (.wake c)) := by
  refine ⟨h.toTracked.step trivial, ?_, fun w => ?_⟩
  · rw [(wake_eq pool c).1]
    exact h.numWorkers
  · rw [(wake_eq pool c).1]
    exact h.capacity w

end PoolOk

/-- What a step of a worker does: nothing, or it takes an item from its queue, or it puts down one that it
has executed, or it records it. -/
inductive WorkerMoves (pool : ThreadpoolSystem Collector) (w : Nat) : ThreadpoolWorker Collector → Prop
  | still (hphase : ∀ data, (pool.pool.workers w).phase ≠ .working data) :
      WorkerMoves pool w (pool.pool.workers w)
  | pop {data : Collector} {queue : Fifo Collector} (hphase : (pool.pool.workers w).phase = .reading)
      (hpop : (pool.pool.workers w).queue.pop = some (data, queue)) :
      WorkerMoves pool w ⟨queue, .working data⟩
  | execute {data : Collector} (hphase : (pool.pool.workers w).phase = .working data) :
      WorkerMoves pool w { pool.pool.workers w with phase := .recording data }
  | record {data : Collector} (hphase : (pool.pool.workers w).phase = .recording data) :
      WorkerMoves pool w { pool.pool.workers w with phase := .reading }

/-- A step of a worker moves it alone. -/
theorem PoolOk.worker {pool : ThreadpoolSystem Collector} (h : PoolOk pool) {w : Nat}
    (hw : w < maxSections) :
    PoolOk (threadpoolStep pool (.worker w)) ∧
      (threadpoolStep pool (.worker w)).issuer = pool.issuer ∧
      ∃ worker, WorkerMoves pool w worker ∧
        (threadpoolStep pool (.worker w)).pool.workers =
          Function.update pool.pool.workers w worker := by
  have htracked : Tracked (threadpoolStep pool (.worker w)) := h.toTracked.step trivial
  have hbusy : w < pool.pool.numWorkers := h.numWorkers.symm ▸ hw
  have hself : pool.pool.workers = Function.update pool.pool.workers w (pool.pool.workers w) :=
    (Function.update_eq_self w _).symm
  have hcapacity : ∀ worker : ThreadpoolWorker Collector, worker.queue.capacity = maxQueueDepth →
      ∀ v, (Function.update pool.pool.workers w worker v).queue.capacity = maxQueueDepth := by
    intro worker hworker v
    by_cases hv : v = w
    · rw [hv, Function.update_self]
      exact hworker
    · rw [Function.update_of_ne hv]
      exact h.capacity v
  rw [threadpoolStep, ThreadpoolSystem.perform, if_pos hbusy, ThreadpoolSystem.stepWorker] at htracked ⊢
  cases hphase : (pool.pool.workers w).phase with
  | reading =>
    cases hpop : (pool.pool.workers w).queue.pop with
    | none =>
      simp only [hphase, hpop] at htracked ⊢
      exact ⟨⟨htracked, h.numWorkers, h.capacity⟩, rfl, _, .still (hphase ▸ (by rintro _ ⟨⟩)), hself⟩
    | some next =>
      obtain ⟨data, queue⟩ := next
      simp only [hphase, hpop] at htracked ⊢
      exact ⟨⟨htracked, h.numWorkers, hcapacity _ ((Fifo.capacity_of_pop hpop).trans (h.capacity w))⟩,
        rfl, _, .pop hphase hpop, rfl⟩
  | working data =>
    simp only [hphase] at htracked ⊢
    exact ⟨⟨htracked, h.numWorkers, hcapacity _ (h.capacity w)⟩, rfl, _, .execute hphase, rfl⟩
  | recording data =>
    -- the worker waits while another thread issues items
    cases hissuer : pool.issuer with
    | some call =>
      simp only [hphase, hissuer] at htracked ⊢
      exact ⟨⟨htracked, h.numWorkers, h.capacity⟩, hissuer, _, .still (hphase ▸ (by rintro _ ⟨⟩)), hself⟩
    | none =>
      simp only [hphase, hissuer] at htracked ⊢
      exact ⟨⟨htracked, h.numWorkers, hcapacity _ (h.capacity w)⟩, hissuer, _, .record hphase, rfl⟩

/-! ## Where a section is -/

/-- The item is for the section `i` of the caller `c`. -/
def Collector.isFrom (c i : Nat) (x : Collector) : Bool := x.graphSection == some (c, i)

/-- The sections of the round. -/
def CallLocation.batch : CallLocation → List Nat
  | .fill ppSections _ _ | .issue ppSections | .issuing ppSections => ppSections
  | .complete ppSections | .waiting ppSections => ppSections
  | .single i | .singleReport i => [i]
  | _ => []

/-- The call is in a round. -/
def CallLocation.inRound : CallLocation → Bool
  | .idle | .round => false
  | _ => true

/-- The sections of the round that are not run and not issued. -/
def CallLocation.unissued (issuer : Option (IssueCall Collector)) : CallLocation → List Nat
  | .fill ppSections _ _ | .issue ppSections => ppSections
  | .issuing ppSections => ppSections.drop ((issuer.map IssueCall.i).getD 0)
  | .single i => [i]
  | _ => []

/-- The call of another one does not matter to a caller without the semaphore. -/
theorem CallLocation.unissued_of_not_issuing {issuer issuer' : Option (IssueCall Collector)}
    {location : CallLocation} (hnot : location.isIssuing = false) :
    location.unissued issuer' = location.unissued issuer := by
  cases location with
  | issuing ppSections => cases hnot
  | _ => rfl

/-- The section that the caller has run itself and not called back. -/
def CallLocation.unreported : CallLocation → List Nat
  | .singleReport i => [i]
  | _ => []

/-- The pool may have items of the caller. -/
def CallLocation.awaits : CallLocation → Bool
  | .issuing _ | .complete _ | .waiting _ => true
  | _ => false

/-- A worker with the item that it has run, if it still has to call back. -/
abbrev WorkerView : Type := ThreadpoolWorker Collector × Bool

namespace WorkerView

/-- The items that the worker still has to run. -/
def toRun (v : WorkerView) : List Collector :=
  (if v.2 then [] else v.1.phase.hand) ++ v.1.queue.items

/-- The item that the worker has run and not called back. -/
def toReport (v : WorkerView) : List Collector := if v.2 then v.1.phase.hand else []

/-- What a worker has pending it has to report or to run. -/
theorem pending_eq (v : WorkerView) : v.1.pending = v.toReport ++ v.toRun := by
  rw [toReport, toRun, ThreadpoolWorker.pending]
  split <;> rfl

end WorkerView

/-- What a worker has, with whether it has run its item. -/
def CallSystem.view (s : CallSystem) (w : Nat) : WorkerView := (s.pool.pool.workers w, s.ran w)

/-- The number of the items for the section `i` of the caller `c` in lists of the workers. -/
def CallSystem.total (s : CallSystem) (f : WorkerView → List Collector) (c i : Nat) : Nat :=
  Threads.total maxSections s.view fun v => (f v).countP (·.isFrom c i)

/-! ## The invariant -/

/-- An item that a caller means to run. -/
def Meant (env : CallEnv) (x : Collector) : Prop :=
  ∃ c < env.numCallers, ∃ i < (env.graphs c).sections.length, IsFor env c i x

/-- The rounds that a call has done, and that it is in. -/
structure Progress (graph : KernelGraph) (caller : Caller) (n : Nat) : Prop where
  runs : ∀ order < n, graph.Runs (BitVec.ofNat 32 order)
  order : caller.call.order = BitVec.ofNat 32 n
  numSectionsRun : caller.call.numSectionsRun = BitVec.ofNat 32 (graph.batches n).flatten.length
  scheduled : caller.call.scheduled = (graph.batches n).flatten ++ caller.location.batch
  batch : caller.location.inRound = true →
    graph.Runs (BitVec.ofNat 32 n) ∧ caller.location.batch = graph.sectionsIn (BitVec.ofNat 32 n)

/-- What holds while callers are kept apart. -/
structure CallsInv (env : CallEnv) (s : CallSystem) : Prop where
  pool : PoolOk s.pool
  ran : ∀ w, s.ran w = true → ∃ data, (s.pool.pool.workers w).phase = .working data
  idle : ∀ c, env.numCallers ≤ c → (s.callers c).location = .idle
  progress : ∀ c, ∃ n, Progress (env.graphs c) (s.callers c) n
  slots : ∀ c, Slots env s.collectors s.pool.issuer c (s.callers c).location
  one : ∀ c c', (s.callers c).location.isIssuing = true → (s.callers c').location.isIssuing = true →
    c = c'
  pending : ∀ w, ∀ x ∈ (s.pool.pool.workers w).pending, Meant env x
  runs : ∀ x ∈ s.runs, Meant env x
  reports : ∀ x ∈ s.reports, Meant env x
  balance : ∀ c i, s.scheduled.count (c, i) =
    s.runs.countP (·.isFrom c i) + s.total WorkerView.toRun c i +
      ((s.callers c).location.unissued s.pool.issuer).count i
  reported : ∀ c i, (env.callbacks c).isSome = true →
    s.runs.countP (·.isFrom c i) = s.reports.countP (·.isFrom c i) +
      s.total WorkerView.toReport c i + (s.callers c).location.unreported.count i
  settled : ∀ c, (s.callers c).location.awaits = false →
    ∀ w < maxSections, ∀ x ∈ (s.pool.pool.workers w).pending, ∀ i, x.isFrom c i = false
  returns : ∀ r ∈ s.returns, r.ret.toNat = r.scheduled.length

section Count

variable {env : CallEnv} {c c' i i' : Nat} {x : Collector}

/-- An item of a caller is from it alone. -/
theorem IsFor.isFrom_eq (h : IsFor env c i x) (c' i' : Nat) :
    x.isFrom c' i' = decide (c = c' ∧ i = i') := by
  rw [Collector.isFrom, h.graphSection]
  simp [Bool.beq_eq_decide_eq]

/-- The sections that a caller has scheduled are counted for it alone. -/
theorem count_map_mk (sections : List Nat) (c c' i' : Nat) :
    (sections.map (Prod.mk c)).count (c', i') = if c = c' then sections.count i' else 0 := by
  split_ifs with hc
  · subst hc
    exact List.count_map_of_injective sections (Prod.mk c) (Prod.mk_right_injective c) i'
  · rw [List.count_eq_zero]
    intro hmem
    obtain ⟨j, -, hj⟩ := List.mem_map.mp hmem
    exact hc (Prod.ext_iff.mp hj).1

/-- No item for a section of `c` is counted for another caller. -/
theorem countP_isFrom_of_ne {items : List Collector} (h : ∀ x ∈ items, ∃ i, IsFor env c i x)
    (hne : c' ≠ c) (i' : Nat) : items.countP (·.isFrom c' i') = 0 := by
  rw [List.countP_eq_zero]
  intro x hx
  obtain ⟨i, hfor⟩ := h x hx
  rw [hfor.isFrom_eq, decide_eq_true_eq]
  exact fun h => hne h.1.symm

end Count

/-- The count depends on the workers. -/
theorem CallSystem.total_congr {s s' : CallSystem}
    (hworkers : s'.pool.pool.workers = s.pool.pool.workers) (hran : s'.ran = s.ran)
    (f : WorkerView → List Collector) (c i : Nat) : s'.total f c i = s.total f c i := by
  have hview : s'.view = s.view := funext fun w => by rw [view, view, hworkers, hran]
  rw [total, total, hview]

namespace CallsInv

variable {env : CallEnv} {s s' : CallSystem} {c : Nat} {caller : Caller}

theorem initial (env : CallEnv) : CallsInv env .initial where
  pool := .initial
  ran _ h := nomatch h
  idle _ _ := rfl
  progress _ := ⟨0, fun _ h => absurd h (Nat.not_lt_zero _), rfl, rfl, rfl, nofun⟩
  slots _ := trivial
  one _ _ h := nomatch h
  pending _ _ h := nomatch h
  runs _ h := nomatch h
  reports _ h := nomatch h
  balance c i := by
    have hzero : CallSystem.initial.total WorkerView.toRun c i = 0 :=
      Threads.total_eq_zero_of_forall fun _ => rfl
    rw [hzero]
    rfl
  reported c i _ := by
    have hzero : CallSystem.initial.total WorkerView.toReport c i = 0 :=
      Threads.total_eq_zero_of_forall fun _ => rfl
    rw [hzero]
    rfl
  settled _ _ _ _ _ h := nomatch h
  returns _ h := nomatch h

/-- A caller that gets the semaphore when no other one has it has it alone. -/
theorem issuing_unique {callers : Nat → Caller}
    (h : ∀ c c', (callers c).location.isIssuing = true → (callers c').location.isIssuing = true →
      c = c')
    (hone : caller.location.isIssuing = true → ∀ c' ≠ c, (callers c').location.isIssuing = false)
    {c₁ c₂ : Nat} (h₁ : (Function.update callers c caller c₁).location.isIssuing = true)
    (h₂ : (Function.update callers c caller c₂).location.isIssuing = true) : c₁ = c₂ := by
  by_cases hne₁ : c₁ = c
  · by_cases hne₂ : c₂ = c
    · rw [hne₁, hne₂]
    · rw [hne₁, Function.update_self] at h₁
      rw [Function.update_of_ne hne₂, hone h₁ c₂ hne₂] at h₂
      cases h₂
  · by_cases hne₂ : c₂ = c
    · rw [hne₂, Function.update_self] at h₂
      rw [Function.update_of_ne hne₁, hone h₂ c₁ hne₁] at h₁
      cases h₁
    · rw [Function.update_of_ne hne₁] at h₁
      rw [Function.update_of_ne hne₂] at h₂
      exact h c₁ c₂ h₁ h₂

/-- A step of the caller `c` that leaves the workers alone. The caller means to run the sections `new`,
runs the items `done` itself and calls back for the items `said`. -/
theorem ofCaller (h : CallsInv env s) (hc : c < env.numCallers) (caller : Caller)
    (new : List Nat) (done said : List Collector) (hcallers : s'.callers = Function.update s.callers c caller)
    (hpool : PoolOk s'.pool) (hworkers : s'.pool.pool.workers = s.pool.pool.workers)
    (hran : s'.ran = s.ran)
    (hissuer : s'.pool.issuer = s.pool.issuer ∨
      ∀ c' ≠ c, (s.callers c').location.isIssuing = false)
    (hone : caller.location.isIssuing = true →
      ∀ c' ≠ c, (s.callers c').location.isIssuing = false)
    (hcollectors : ∀ g, s'.collectors g = s.collectors g ∨
      ∀ c' ≠ c, (s.callers c').location.uses s.pool.issuer g = false)
    (hprogress : ∃ n, Progress (env.graphs c) caller n)
    (hslots : Slots env s'.collectors s'.pool.issuer c caller.location)
    (hscheduled : s'.scheduled = s.scheduled ++ new.map (Prod.mk c))
    (hruns : s'.runs = s.runs ++ done) (hreports : s'.reports = s.reports ++ said)
    (hdone : ∀ x ∈ done, ∃ i < (env.graphs c).sections.length, IsFor env c i x)
    (hsaid : ∀ x ∈ said, ∃ i < (env.graphs c).sections.length, IsFor env c i x)
    (hbalance : ∀ i, ((s.callers c).location.unissued s.pool.issuer).count i + new.count i =
      done.countP (·.isFrom c i) + (caller.location.unissued s'.pool.issuer).count i)
    (hreported : (env.callbacks c).isSome = true → ∀ i,
      done.countP (·.isFrom c i) + (s.callers c).location.unreported.count i =
        said.countP (·.isFrom c i) + caller.location.unreported.count i)
    (hsettled : caller.location.awaits = false →
      (s.callers c).location.awaits = false ∨ s.pool.pool.completed = true)
    (hreturns : ∀ r ∈ s'.returns, r ∈ s.returns ∨ r.ret.toNat = r.scheduled.length) :
    CallsInv env s' := by
  have hself : s'.callers c = caller := by rw [hcallers, Function.update_self]
  have hother : ∀ c' ≠ c, s'.callers c' = s.callers c' := fun c' hne => by
    rw [hcallers, Function.update_of_ne hne]
  have htotal := CallSystem.total_congr hworkers hran
  -- what this caller adds to the runs and the reports it means itself
  have hmeant : ∀ {items more : List Collector}, (∀ x ∈ items, Meant env x) →
      (∀ x ∈ more, ∃ i < (env.graphs c).sections.length, IsFor env c i x) →
      ∀ x ∈ items ++ more, Meant env x := fun hitems hmore x hx => by
    rcases List.mem_append.mp hx with hx | hx
    · exact hitems x hx
    · exact ⟨c, hc, hmore x hx⟩
  have hdone' : ∀ x ∈ done, ∃ i, IsFor env c i x := fun x hx =>
    let ⟨i, _, hfor⟩ := hdone x hx
    ⟨i, hfor⟩
  have hsaid' : ∀ x ∈ said, ∃ i, IsFor env c i x := fun x hx =>
    let ⟨i, _, hfor⟩ := hsaid x hx
    ⟨i, hfor⟩
  refine ⟨hpool, ?_, fun c' hge => ?_, fun c' => ?_, fun c' => ?_, fun c₁ c₂ h₁ h₂ => ?_, ?_, ?_, ?_,
    fun c' i => ?_, fun c' i hcallback => ?_, fun c' hnot => ?_, fun r hr => ?_⟩
  · rw [hran, hworkers]
    exact h.ran
  · rw [hother c' (by omega)]
    exact h.idle c' hge
  · by_cases hne : c' = c
    · rw [hne, hself]
      exact hprogress
    · rw [hother c' hne]
      exact h.progress c'
  · by_cases hne : c' = c
    · rw [hne, hself]
      exact hslots
    · rw [hother c' hne]
      -- no entry that another caller uses is among those that changed
      have hframe := (h.slots c').frame fun g => (hcollectors g).imp id fun huses => huses c' hne
      rcases hissuer with heq | hnot
      · rwa [heq]
      · exact hframe.of_not_issuing (hnot c' hne)
  · rw [hcallers] at h₁ h₂
    exact issuing_unique h.one hone h₁ h₂
  · rw [hworkers]
    exact h.pending
  · rw [hruns]
    exact hmeant h.runs hdone
  · rw [hreports]
    exact hmeant h.reports hsaid
  · -- The sections of the other callers are where they were.
    have hbefore := h.balance c' i
    rw [hscheduled, hruns, List.count_append, List.countP_append, count_map_mk, htotal]
    by_cases hne : c' = c
    · have hmoved := hbalance i
      subst hne
      rw [hself, if_pos rfl]
      omega
    · rw [hother c' hne, if_neg (Ne.symm hne), countP_isFrom_of_ne hdone' hne]
      have hunissued : (s.callers c').location.unissued s'.pool.issuer =
          (s.callers c').location.unissued s.pool.issuer := by
        rcases hissuer with heq | hnot
        · rw [heq]
        · exact CallLocation.unissued_of_not_issuing (hnot c' hne)
      rw [hunissued]
      omega
  · have hbefore := h.reported c' i hcallback
    rw [hruns, hreports, List.countP_append, List.countP_append, htotal]
    by_cases hne : c' = c
    · subst hne
      have hmoved := hreported hcallback i
      rw [hself]
      omega
    · rw [hother c' hne, countP_isFrom_of_ne hdone' hne, countP_isFrom_of_ne hsaid' hne]
      omega
  · rw [hworkers]
    by_cases hne : c' = c
    · rw [hne, hself] at hnot
      rcases hsettled hnot with hbefore | hset
      · rw [hne]
        exact h.settled c hbefore
      · -- The event is set, so that the pool has no items at all.
        intro w hw x hx
        rw [h.pool.pending_eq_nil hset hw] at hx
        cases hx
    · rw [hother c' hne] at hnot
      exact h.settled c' hnot
  · exact (hreturns r hr).elim (h.returns r) id

/-- A step of the caller `c` that runs nothing and calls back for nothing. -/
theorem ofQuiet (h : CallsInv env s) (hc : c < env.numCallers) (caller : Caller)
    (hcallers : s'.callers = Function.update s.callers c caller)
    (hpool : PoolOk s'.pool) (hworkers : s'.pool.pool.workers = s.pool.pool.workers)
    (hran : s'.ran = s.ran)
    (hissuer : s'.pool.issuer = s.pool.issuer ∨
      ∀ c' ≠ c, (s.callers c').location.isIssuing = false)
    (hone : caller.location.isIssuing = true →
      ∀ c' ≠ c, (s.callers c').location.isIssuing = false)
    (hcollectors : ∀ g, s'.collectors g = s.collectors g ∨
      ∀ c' ≠ c, (s.callers c').location.uses s.pool.issuer g = false)
    (hprogress : ∃ n, Progress (env.graphs c) caller n)
    (hslots : Slots env s'.collectors s'.pool.issuer c caller.location)
    (hscheduled : s'.scheduled = s.scheduled) (hruns : s'.runs = s.runs)
    (hreports : s'.reports = s.reports)
    (hunissued : (s.callers c).location.unissued s.pool.issuer =
      caller.location.unissued s'.pool.issuer)
    (hunreported : (s.callers c).location.unreported = caller.location.unreported)
    (hsettled : caller.location.awaits = false →
      (s.callers c).location.awaits = false ∨ s.pool.pool.completed = true)
    (hreturns : ∀ r ∈ s'.returns, r ∈ s.returns ∨ r.ret.toNat = r.scheduled.length) :
    CallsInv env s' := by
  refine h.ofCaller hc caller [] [] [] hcallers hpool hworkers hran hissuer hone hcollectors hprogress
    hslots ?_ ?_ ?_ nofun nofun (fun i => ?_) (fun _ i => ?_) hsettled hreturns
  · rw [hscheduled]
    exact (List.append_nil _).symm
  · rw [hruns, List.append_nil]
  · rw [hreports, List.append_nil]
  · rw [hunissued]
    exact (Nat.zero_add _).symm
  · rw [hunreported]

/-- A step that changes the worker `w`. The worker gets the items `given`, runs the items `done` and calls
back for the items `said`. -/
theorem ofWorker (h : CallsInv env s) {w : Nat} {v : WorkerView} (hw : w < maxSections)
    (given done said : List Collector) (hcallers : s'.callers = s.callers) (hpool : PoolOk s'.pool)
    (hworkers : s'.pool.pool.workers = Function.update s.pool.pool.workers w v.1)
    (hran : s'.ran = Function.update s.ran w v.2)
    (hworking : v.2 = true → ∃ data, v.1.phase = .working data)
    (hslots : ∀ c, Slots env s'.collectors s'.pool.issuer c (s.callers c).location)
    (hscheduled : s'.scheduled = s.scheduled) (hreturns : s'.returns = s.returns)
    (hruns : s'.runs = s.runs ++ done) (hreports : s'.reports = s.reports ++ said)
    (hgiven : ∀ x ∈ given, ∃ c < env.numCallers, (s.callers c).location.awaits = true ∧
      ∃ i < (env.graphs c).sections.length, IsFor env c i x)
    (hdone : ∀ x ∈ done ++ said, x ∈ (s.pool.pool.workers w).pending)
    (hpending : ∀ x ∈ v.1.pending, x ∈ (s.pool.pool.workers w).pending ∨ x ∈ given)
    (hrun : ∀ c i, (s.view w).toRun.countP (·.isFrom c i) + given.countP (·.isFrom c i) =
      done.countP (·.isFrom c i) + v.toRun.countP (·.isFrom c i))
    (hreport : ∀ c i, (env.callbacks c).isSome = true →
      done.countP (·.isFrom c i) + (s.view w).toReport.countP (·.isFrom c i) =
        said.countP (·.isFrom c i) + v.toReport.countP (·.isFrom c i))
    (hunissued : ∀ c i, ((s.callers c).location.unissued s.pool.issuer).count i =
      given.countP (·.isFrom c i) + ((s.callers c).location.unissued s'.pool.issuer).count i) :
    CallsInv env s' := by
  have hview : s'.view = Function.update s.view w v := by
    funext u
    rw [CallSystem.view, hworkers, hran]
    by_cases hu : u = w
    · rw [hu, Function.update_self, Function.update_self, Function.update_self]
    · rw [Function.update_of_ne hu, Function.update_of_ne hu, Function.update_of_ne hu]
      rfl
  -- only the view of `w` changes, so a sum over the workers changes by what it counts there
  have htotal : ∀ (f : WorkerView → List Collector) c i,
      s'.total f c i + (f (s.view w)).countP (·.isFrom c i) =
        s.total f c i + (f v).countP (·.isFrom c i) := fun f c i => by
    rw [CallSystem.total, CallSystem.total, hview]
    exact Threads.total_update s.view (fun v => (f v).countP (·.isFrom c i)) hw v
  -- no item comes to a worker that was not pending there or given to it now
  have hmember : ∀ u, ∀ x ∈ (s'.pool.pool.workers u).pending,
      x ∈ (s.pool.pool.workers u).pending ∨ x ∈ given := fun u x hx => by
    rw [hworkers] at hx
    by_cases hu : u = w
    · subst hu
      rw [Function.update_self] at hx
      exact hpending x hx
    · rw [Function.update_of_ne hu] at hx
      exact .inl hx
  refine ⟨hpool, fun u hu => ?_, hcallers ▸ h.idle, hcallers ▸ h.progress, hcallers ▸ hslots,
    hcallers ▸ h.one, fun u x hx => ?_, fun x hx => ?_, fun x hx => ?_, fun c i => ?_,
    fun c i hcallback => ?_, fun c hnot u hu x hx i => ?_, hreturns ▸ h.returns⟩
  · rw [hran] at hu
    rw [hworkers]
    by_cases huw : u = w
    · rw [huw, Function.update_self] at hu ⊢
      exact hworking hu
    · rw [Function.update_of_ne huw] at hu ⊢
      exact h.ran u hu
  · rcases hmember u x hx with hx | hx
    · exact h.pending u x hx
    · obtain ⟨c, hc, -, hmeant⟩ := hgiven x hx
      exact ⟨c, hc, hmeant⟩
  · rw [hruns] at hx
    rcases List.mem_append.mp hx with hx | hx
    · exact h.runs x hx
    · exact h.pending w x (hdone x (List.mem_append_left _ hx))
  · rw [hreports] at hx
    rcases List.mem_append.mp hx with hx | hx
    · exact h.reports x hx
    · exact h.pending w x (hdone x (List.mem_append_right _ hx))
  · have hbefore := h.balance c i
    have hmoved := htotal WorkerView.toRun c i
    have hsame := hrun c i
    have hleft := hunissued c i
    rw [hscheduled, hruns, List.countP_append, hcallers]
    omega
  · have hbefore := h.reported c i hcallback
    have hmoved := htotal WorkerView.toReport c i
    have hsame := hreport c i hcallback
    rw [hruns, hreports, List.countP_append, List.countP_append, hcallers]
    omega
  · rw [hcallers] at hnot
    rcases hmember u x hx with hx | hx
    · exact h.settled c hnot u hu x hx i
    · obtain ⟨c', -, hawaits, i', -, hfor⟩ := hgiven x hx
      rw [hfor.isFrom_eq, decide_eq_false_iff_not]
      rintro ⟨rfl, -⟩
      exact absurd (hnot.symm.trans hawaits) nofun

end CallsInv

/-! ## The rounds of a call -/

namespace Progress

variable {graph : KernelGraph} {caller : Caller} {n : Nat} {location : CallLocation}

/-- A call that is just made. -/
theorem start (graph : KernelGraph) : Progress graph ⟨.round, 0, 0, []⟩ 0 :=
  ⟨fun _ h => absurd h (Nat.not_lt_zero _), rfl, rfl, rfl, nofun⟩

/-- A step within a round, or between two. -/
theorem move (h : Progress graph caller n) (hbatch : location.batch = caller.location.batch)
    (hround : location.inRound = true → caller.location.inRound = true) :
    Progress graph ⟨location, caller.call⟩ n :=
  ⟨h.runs, h.order, h.numSectionsRun, h.scheduled.trans (by rw [hbatch]), fun hin => by
    rw [hbatch]
    exact h.batch (hround hin)⟩

/-- A round has sections to run. -/
theorem batch_ne_nil (h : Progress graph caller n) (hround : caller.location.inRound = true) :
    caller.location.batch ≠ [] := by
  obtain ⟨hruns, hbatch⟩ := h.batch hround
  rw [hbatch]
  exact hruns.2

/-- A section of the round is one of the graph. -/
theorem lt_length (h : Progress graph caller n) {i : Nat} (hi : i ∈ caller.location.batch) :
    i < graph.sections.length := by
  have hround : caller.location.inRound = true := by
    cases hlocation : caller.location <;> first | rfl | (rw [hlocation] at hi; cases hi)
  obtain ⟨-, hbatch⟩ := h.batch hround
  rw [hbatch] at hi
  obtain ⟨s, hget, -⟩ := KernelGraph.mem_sectionsIn.mp hi
  exact (List.getElem?_eq_some_iff.mp hget).1

/-- The start of a round that has sections to run. -/
theorem schedule (h : Progress graph caller n) (hnil : caller.location.batch = [])
    (hruns : graph.Runs (BitVec.ofNat 32 n))
    (hbatch : location.batch = graph.sectionsIn (BitVec.ofNat 32 n)) :
    Progress graph
      ⟨location, { caller.call with
        scheduled := caller.call.scheduled ++ graph.sectionsIn (BitVec.ofNat 32 n) }⟩ n := by
  refine ⟨h.runs, h.order, h.numSectionsRun, ?_, fun _ => ⟨hruns, hbatch⟩⟩
  dsimp only
  rw [h.scheduled, hnil, List.append_nil, hbatch]

/-- The end of a round whose sections were counted. -/
theorem next (h : Progress graph caller n) (hround : caller.location.inRound = true) :
    Progress graph
      ⟨.round, { caller.call with
        order := caller.call.order + 1
        numSectionsRun := caller.call.numSectionsRun +
          BitVec.ofNat 32 caller.location.batch.length }⟩ (n + 1) := by
  obtain ⟨hruns, hbatch⟩ := h.batch hround
  refine ⟨fun order horder => ?_, ?_, ?_, ?_, nofun⟩
  · rcases Nat.lt_succ_iff_lt_or_eq.mp horder with hlt | rfl
    · exact h.runs order hlt
    · exact hruns
  · dsimp only
    rw [h.order]
    exact (BitVec.ofNat_add n 1).symm
  · dsimp only
    rw [h.numSectionsRun, hbatch, ← BitVec.ofNat_add, KernelGraph.batches_succ, List.flatten_append,
      List.length_append, List.flatten_singleton]
  · dsimp only
    rw [h.scheduled, hbatch, KernelGraph.batches_succ, List.flatten_append, List.flatten_singleton]
    exact (List.append_nil _).symm

/-- A call between two rounds has counted what it meant to run. -/
theorem ret_eq (h : Progress graph caller n) (hnil : caller.location.batch = [])
    (hsize : graph.sections.length < 2 ^ 32) :
    caller.call.numSectionsRun.toNat = caller.call.scheduled.length := by
  have hle := KernelGraph.le_length_of_runs hsize h.runs
  have hfew := KernelGraph.length_flatten_batches_le graph (n := n) (by omega)
  rw [h.numSectionsRun, h.scheduled, hnil, List.append_nil, BitVec.toNat_ofNat]
  exact Nat.mod_eq_of_lt (by omega)

end Progress

/-! ## The steps of a caller -/

namespace CallsInv

variable {env : CallEnv} {s : CallSystem} {c : Nat}

/-- A caller that only goes on. -/
theorem goto (h : CallsInv env s) (hc : c < env.numCallers) {location : CallLocation}
    (hbatch : location.batch = (s.callers c).location.batch)
    (hround : (s.callers c).location.inRound = true) (hissuing : location.isIssuing = false)
    (hslots : Slots env s.collectors s.pool.issuer c location)
    (hunissued : location.unissued s.pool.issuer =
      (s.callers c).location.unissued s.pool.issuer)
    (hunreported : location.unreported = (s.callers c).location.unreported)
    (hawaits : location.awaits = (s.callers c).location.awaits) :
    CallsInv env (s.goto c location) := by
  obtain ⟨n, hprogress⟩ := h.progress c
  refine h.ofQuiet hc _ rfl h.pool rfl rfl (.inl rfl) (fun hyes => ?_) (fun _ => .inl rfl)
    ⟨n, hprogress.move hbatch fun _ => hround⟩ hslots rfl rfl rfl hunissued.symm hunreported.symm
    (fun hno => .inl (hawaits.symm.trans hno)) fun _ hr => .inl hr
  exact absurd (hissuing.symm.trans hyes) nofun

/-- A caller that returns between two rounds. -/
theorem leave (h : CallsInv env s) (hc : c < env.numCallers)
    (hsize : (env.graphs c).sections.length < 2 ^ 32)
    (hlocation : (s.callers c).location = .round) : CallsInv env (s.leave c) := by
  obtain ⟨n, hprogress⟩ := h.progress c
  have hbatch : (s.callers c).location.batch = [] := by rw [hlocation]; rfl
  refine h.ofQuiet hc ⟨.idle, (s.callers c).call⟩ rfl h.pool rfl rfl (.inl rfl)
    nofun (fun _ => .inl rfl) ⟨n, hprogress.move hbatch.symm nofun⟩ trivial rfl rfl rfl ?_ ?_
    (fun _ => .inl ?_) fun r hr => ?_
  · rw [hlocation]
    rfl
  · rw [hlocation]
    rfl
  · rw [hlocation]
    rfl
  · rcases List.mem_append.mp hr with hr | hr
    · exact .inl hr
    · obtain rfl := List.mem_singleton.mp hr
      exact .inr (hprogress.ret_eq hbatch hsize)

/-- The start of a round. -/
theorem round (h : CallsInv env s) (hc : c < env.numCallers)
    (hsize : (env.graphs c).sections.length < 2 ^ 32)
    (hlocation : (s.callers c).location = .round) : CallsInv env (s.round env c) := by
  obtain ⟨n, hprogress⟩ := h.progress c
  have hbatch : (s.callers c).location.batch = [] := by rw [hlocation]; rfl
  -- One section is run by the caller, and more than one go to the threadpool.
  have hschedule : ∀ ppSections location, (env.graphs c).Runs (BitVec.ofNat 32 n) →
      ppSections = (env.graphs c).sectionsIn (BitVec.ofNat 32 n) →
      CallLocation.batch location = ppSections →
      CallLocation.unissued s.pool.issuer location = ppSections →
      CallLocation.unreported location = [] → CallLocation.isIssuing location = false →
      Slots env s.collectors s.pool.issuer c location →
      CallsInv env (s.schedule c ppSections location) := by
    rintro _ location hruns rfl hsections hunissued hunreported hissuing hslots
    refine h.ofCaller hc _ _ [] [] rfl h.pool rfl rfl (.inl rfl) (fun hyes => ?_) (fun _ => .inl rfl)
      ⟨n, hprogress.schedule hbatch hruns hsections⟩ hslots rfl (List.append_nil _).symm
      (List.append_nil _).symm nofun nofun (fun i => ?_) (fun _ i => ?_) (fun _ => .inl ?_)
      fun _ hr => .inl hr
    · exact absurd (hissuing.symm.trans hyes) nofun
    · rw [hlocation]
      exact congrArg (0 + List.count i ·) hunissued.symm
    · rw [hlocation]
      exact congrArg (0 + List.count i ·) hunreported.symm
    · rw [hlocation]
      rfl
  rw [CallSystem.round, hprogress.order]
  by_cases hruns : (env.graphs c).Runs (BitVec.ofNat 32 n)
  · rw [KernelGraph.selectIndices_eq hruns.1]
    cases hsections : (env.graphs c).sectionsIn (BitVec.ofNat 32 n) with
    | nil => exact absurd hsections hruns.2
    | cons i rest =>
      cases rest with
      | nil => exact hschedule [i] (.single i) hruns hsections.symm rfl rfl rfl rfl trivial
      | cons j rest =>
        exact hschedule (i :: j :: rest) (.fill (i :: j :: rest) 0 .dvp) hruns hsections.symm rfl rfl rfl
          rfl ⟨fun j hj => absurd hj (Nat.not_lt_zero j), fun _ _ => .of_dvp⟩
  · have hleave := h.leave hc hsize hlocation
    rcases KernelGraph.selectIndices_of_not_runs hruns with hselect | hselect
    · rw [hselect]
      exact hleave
    · rw [hselect]
      exact hleave

/-- A caller that is called. -/
theorem process (h : CallsInv env s) (hc : c < env.numCallers)
    (hlocation : (s.callers c).location = .idle) :
    CallsInv env (s.setCaller c ⟨.round, 0, 0, []⟩) := by
  refine h.ofQuiet hc _ rfl h.pool rfl rfl (.inl rfl) nofun (fun _ => .inl rfl)
    ⟨0, .start _⟩ trivial rfl rfl rfl ?_ ?_ (fun _ => .inl ?_) fun _ hr => .inl hr
  · rw [hlocation]
    rfl
  · rw [hlocation]
    rfl
  · rw [hlocation]
    rfl

/-- A step of the loop that fills `collectors`, where no other caller uses the entry. -/
theorem fill (h : CallsInv env s) (hc : c < env.numCallers) {ppSections : List Nat} {g : Nat}
    {step : FillStep} (hlocation : (s.callers c).location = .fill ppSections g step)
    (hfree : ppSections.length ≤ g ∨
      ∀ c' ≠ c, (s.callers c').location.uses s.pool.issuer g = false) :
    CallsInv env (s.fill env c ppSections g step) := by
  obtain ⟨n, hprogress⟩ := h.progress c
  have hslots := h.slots c
  rw [hlocation] at hslots
  rw [CallSystem.fill]
  cases hg : ppSections[g]? with
  | none =>
    -- all entries are filled, and the caller goes on to issue them
    have hall : ppSections.length ≤ g := List.getElem?_eq_none_iff.mp hg
    refine h.goto hc ?_ ?_ rfl (fun j i hj => ?_) ?_ ?_ ?_
    · rw [hlocation]
      rfl
    · rw [hlocation]
      rfl
    · exact hslots.1 j (Nat.lt_of_lt_of_le (List.getElem?_eq_some_iff.mp hj).1 hall) i hj
    · rw [hlocation]
      rfl
    · rw [hlocation]
      rfl
    · rw [hlocation]
      rfl
  | some i =>
    have hlt : g < ppSections.length := (List.getElem?_eq_some_iff.mp hg).1
    have hbatch : (s.callers c).location.batch = ppSections := by rw [hlocation]; rfl
    have hround : (s.callers c).location.inRound = true := by rw [hlocation]; rfl
    have hi : i < (env.graphs c).sections.length :=
      hprogress.lt_length (hbatch ▸ List.mem_of_getElem? hg)
    have hentry := fillEntry_spec hi (hslots.2 i hg)
    -- Every assignment changes the entry `g` alone.
    have hstep : ∀ location, CallLocation.batch location = ppSections →
        CallLocation.isIssuing location = false →
        CallLocation.unissued s.pool.issuer location = ppSections →
        CallLocation.unreported location = [] →
        Slots env (Function.update s.collectors g (env.fillEntry c i (s.collectors g) step).1)
          s.pool.issuer c location →
        CallsInv env { s.goto c location with
          collectors := Function.update s.collectors g
            (env.fillEntry c i (s.collectors g) step).1 } := by
      intro location hsections hissuing hunissued hunreported hfilled
      refine h.ofQuiet hc _ rfl h.pool rfl rfl (.inl rfl) (fun hyes => ?_) (fun g' => ?_)
        ⟨n, hprogress.move (hsections.trans hbatch.symm) fun _ => hround⟩ hfilled rfl rfl rfl ?_ ?_
        (fun _ => .inl ?_) fun _ hr => .inl hr
      · exact absurd (hissuing.symm.trans hyes) nofun
      · -- This is where two calls get in each other's way, if another caller uses the entry.
        by_cases hg' : g' = g
        · subst hg'
          exact .inr (hfree.resolve_left (Nat.not_le.mpr hlt))
        · exact .inl (Function.update_of_ne hg' _ _)
      · rw [hlocation]
        exact hunissued.symm
      · rw [hlocation]
        exact hunreported.symm
      · rw [hlocation]
        rfl
    -- the entries before are filled already, and stay
    have hother : ∀ j < g, Function.update s.collectors g
        (env.fillEntry c i (s.collectors g) step).1 j = s.collectors j := fun j hj =>
      Function.update_of_ne (Nat.ne_of_lt hj) _ _
    dsimp only
    cases hnext : (env.fillEntry c i (s.collectors g) step).2 with
    | some step' =>
      rw [hnext] at hentry
      refine hstep (.fill ppSections g step') rfl rfl rfl rfl ⟨fun j hj i' hi' => ?_, fun i' hi' => ?_⟩
      · rw [hother j hj]
        exact hslots.1 j hj i' hi'
      · obtain rfl := Option.some.inj (hg.symm.trans hi')
        rw [Function.update_self]
        exact hentry.2
    | none =>
      rw [hnext] at hentry
      refine hstep (.fill ppSections (g + 1) .dvp) rfl rfl rfl rfl
        ⟨fun j hj i' hi' => ?_, fun _ _ => .of_dvp⟩
      rcases Nat.lt_succ_iff_lt_or_eq.mp hj with hlt' | rfl
      · rw [hother j hlt']
        exact hslots.1 j hlt' i' hi'
      · obtain rfl := Option.some.inj (hg.symm.trans hi')
        rw [Function.update_self]
        exact hentry

/-- While the semaphore is free no caller has it. -/
theorem not_issuing_of_free (h : CallsInv env s) (hfree : s.pool.issuer = none) (c' : Nat) :
    (s.callers c').location.isIssuing = false := by
  have hslots := h.slots c'
  cases hlocation : (s.callers c').location with
  | issuing ppSections =>
    rw [hlocation, hfree] at hslots
    obtain ⟨call, hcall, -⟩ := hslots
    cases hcall
  | _ => rfl

/-- The caller that has the semaphore is the only one. -/
theorem not_issuing_of_ne (h : CallsInv env s) (hyes : (s.callers c).location.isIssuing = true) :
    ∀ c' ≠ c, (s.callers c').location.isIssuing = false := fun c' hne => by
  rw [← Bool.not_eq_true]
  exact fun hyes' => hne (h.one c' c hyes' hyes)

/-- The caller takes the semaphore in `threadpool_issue`. -/
theorem issue (h : CallsInv env s) (hc : c < env.numCallers) {ppSections : List Nat}
    (hlocation : (s.callers c).location = .issue ppSections) :
    CallsInv env (s.issue c ppSections) := by
  obtain ⟨n, hprogress⟩ := h.progress c
  have hslots := h.slots c
  rw [hlocation] at hslots
  rw [CallSystem.issue]
  split
  · exact h
  · next hfree =>
    have hbatch : (s.callers c).location.batch = ppSections := by rw [hlocation]; rfl
    have hcall : (s.pool.issue ((List.range ppSections.length).map s.collectors)).observe.issuer =
        some ⟨(List.range ppSections.length).map s.collectors, 0, 0, false, []⟩ := by
      rw [ThreadpoolSystem.issue, hfree]
      rfl
    have hworkers : (s.pool.issue ((List.range ppSections.length).map s.collectors)).observe.pool.workers
        = s.pool.pool.workers := by
      rw [ThreadpoolSystem.issue, hfree]
      rfl
    have hround : (s.callers c).location.inRound = true := by rw [hlocation]; rfl
    have hne : ppSections ≠ [] := hbatch ▸ hprogress.batch_ne_nil hround
    refine h.ofQuiet hc ⟨.issuing ppSections, (s.callers c).call⟩ rfl
      (h.pool.issue hfree (by simpa using hne)) hworkers rfl
      (.inr fun c' _ => h.not_issuing_of_free hfree c') (fun _ c' _ => h.not_issuing_of_free hfree c')
      (fun _ => .inl rfl) ⟨n, hprogress.move hbatch.symm fun _ => hround⟩
      ⟨_, hcall, by simp, fun j i hj => ⟨s.collectors j, ?_, hslots j i hj, fun _ => rfl⟩⟩ rfl rfl rfl
      ?_ ?_ (by rintro ⟨⟩) fun _ hr => .inl hr
    · rw [List.getElem?_map, List.getElem?_range (List.getElem?_eq_some_iff.mp hj).1]
      rfl
    · rw [hlocation, hcall]
      rfl
    · rw [hlocation]
      rfl

/-- The caller posts the semaphore after all items of the batch were written. -/
theorem leaveIssue (h : CallsInv env s) (hc : c < env.numCallers) {ppSections : List Nat}
    {call : IssueCall Collector} (hlocation : (s.callers c).location = .issuing ppSections)
    (hcall : s.pool.issuer = some call) (hover : call.over s.pool.pool.numWorkers = true)
    (hwrote : call.wrote = true) :
    CallsInv env { s.goto c (.complete ppSections) with pool := (s.pool.leave call).observe } := by
  obtain ⟨n, hprogress⟩ := h.progress c
  have hslots := h.slots c
  rw [hlocation, hcall] at hslots
  obtain ⟨_, ⟨⟩, hlen, -⟩ := hslots
  have hbatch : (s.callers c).location.batch = ppSections := by rw [hlocation]; rfl
  have hround : (s.callers c).location.inRound = true := by rw [hlocation]; rfl
  have hyes : (s.callers c).location.isIssuing = true := by rw [hlocation]; rfl
  have hall : call.i = ppSections.length := by
    rw [IssueCall.over, hwrote] at hover
    simpa [hlen] using hover
  refine h.ofQuiet hc ⟨.complete ppSections, (s.callers c).call⟩ rfl
    (h.pool.leave hcall hover) rfl rfl (.inr (h.not_issuing_of_ne hyes)) (by rintro ⟨⟩) (fun _ => .inl rfl)
    ⟨n, hprogress.move hbatch.symm fun _ => hround⟩ trivial rfl rfl rfl ?_ ?_ (by rintro ⟨⟩)
    fun _ hr => .inl hr
  · rw [hlocation, CallLocation.unissued, hcall]
    exact List.drop_of_length_le (Nat.le_of_eq hall.symm)
  · rw [hlocation]
    rfl

/-- The caller goes on after `threadpool_complete` found the event set. -/
theorem completed (h : CallsInv env s) (hc : c < env.numCallers) {ppSections : List Nat}
    {pool : ThreadpoolSystem Collector}
    (hlocation : (s.callers c).location = .complete ppSections ∨
      (s.callers c).location = .waiting ppSections)
    (hset : s.pool.pool.completed = true) (hpool : PoolOk pool) (heq : pool.pool = s.pool.pool)
    (hissuer : pool.issuer = s.pool.issuer) :
    CallsInv env { s.completed c ppSections true with pool := pool } := by
  obtain ⟨n, hprogress⟩ := h.progress c
  have hbatch : (s.callers c).location.batch = ppSections := by
    rcases hlocation with hlocation | hlocation <;> (rw [hlocation]; rfl)
  have hround : (s.callers c).location.inRound = true := by
    rcases hlocation with hlocation | hlocation <;> (rw [hlocation]; rfl)
  have hnext := hprogress.next hround
  rw [hbatch] at hnext
  refine h.ofQuiet hc _ rfl hpool (congrArg _ heq) rfl (.inl hissuer) nofun (fun _ => .inl rfl)
    ⟨n + 1, hnext⟩ trivial rfl rfl rfl ?_ ?_ (fun _ => .inr hset) fun _ hr => .inl hr
  · rcases hlocation with hlocation | hlocation <;> (rw [hlocation]; rfl)
  · rcases hlocation with hlocation | hlocation <;> (rw [hlocation]; rfl)

/-- The caller calls `threadpool_complete`. -/
theorem complete (h : CallsInv env s) (hc : c < env.numCallers) {ppSections : List Nat}
    (hlocation : (s.callers c).location = .complete ppSections) :
    CallsInv env (s.complete c ppSections) := by
  have heq := PoolOk.complete_eq s.pool c
  rw [CallSystem.complete]
  dsimp only
  split_ifs with hset
  · exact h.completed hc (.inl hlocation) hset (h.pool.complete c) heq.1 heq.2
  · obtain ⟨n, hprogress⟩ := h.progress c
    have hbatch : (s.callers c).location.batch = ppSections := by rw [hlocation]; rfl
    have hround : (s.callers c).location.inRound = true := by rw [hlocation]; rfl
    refine h.ofQuiet hc ⟨.waiting ppSections, (s.callers c).call⟩ rfl
      (h.pool.complete c) (congrArg _ heq.1) rfl (.inl heq.2) nofun (fun _ => .inl rfl)
      ⟨n, hprogress.move hbatch.symm fun _ => hround⟩ trivial rfl rfl rfl ?_ ?_ nofun
      fun _ hr => .inl hr
    · rw [hlocation]
      rfl
    · rw [hlocation]
      rfl

/-- The event wait of the caller returns with the event set. -/
theorem wake (h : CallsInv env s) (hc : c < env.numCallers) {ppSections : List Nat}
    (hlocation : (s.callers c).location = .waiting ppSections) (hset : s.pool.pool.completed = true) :
    CallsInv env (s.wake c ppSections) := by
  have heq := PoolOk.wake_eq s.pool c
  rw [CallSystem.wake, hset]
  exact h.completed hc (.inr hlocation) hset (h.pool.wake c) heq.1 heq.2

/-- The caller runs the one section of the round. -/
theorem single (h : CallsInv env s) (hc : c < env.numCallers) {i : Nat}
    (hlocation : (s.callers c).location = .single i) :
    CallsInv env { s.goto c (.singleReport i) with runs := s.runs ++ [env.item c i] } := by
  obtain ⟨n, hprogress⟩ := h.progress c
  have hbatch : (s.callers c).location.batch = [i] := by rw [hlocation]; rfl
  have hround : (s.callers c).location.inRound = true := by rw [hlocation]; rfl
  have hi := hprogress.lt_length (hbatch ▸ List.mem_singleton_self i)
  refine h.ofCaller hc ⟨.singleReport i, (s.callers c).call⟩ [] [env.item c i] [] rfl h.pool
    rfl rfl (.inl rfl) nofun (fun _ => .inl rfl) ⟨n, hprogress.move hbatch.symm fun _ => hround⟩ trivial
    (List.append_nil _).symm rfl (List.append_nil _).symm (fun x hx => ?_) nofun (fun j => ?_)
    (fun _ j => ?_) (fun _ => .inl ?_) fun _ hr => .inl hr
  · obtain rfl := List.mem_singleton.mp hx
    exact ⟨i, hi, isFor_item env c i⟩
  · rw [hlocation, List.countP_singleton, (isFor_item env c i).isFrom_eq]
    simp [CallLocation.unissued, List.count_singleton, beq_iff_eq]
  · rw [hlocation, List.countP_singleton, (isFor_item env c i).isFrom_eq]
    simp [CallLocation.unreported, List.count_singleton, beq_iff_eq]
  · rw [hlocation]
    rfl

/-- The caller calls back for the one section of the round. -/
theorem singleReport (h : CallsInv env s) (hc : c < env.numCallers) {i : Nat}
    (hlocation : (s.callers c).location = .singleReport i) :
    CallsInv env ((s.report (env.item c i)).nextOrder c 1) := by
  obtain ⟨n, hprogress⟩ := h.progress c
  have hbatch : (s.callers c).location.batch = [i] := by rw [hlocation]; rfl
  have hround : (s.callers c).location.inRound = true := by rw [hlocation]; rfl
  have hi := hprogress.lt_length (hbatch ▸ List.mem_singleton_self i)
  have hnext := hprogress.next hround
  rw [hbatch] at hnext
  have hstep : ∀ said : List Collector, (∀ x ∈ said, x = env.item c i) →
      ((env.callbacks c).isSome = true → said = [env.item c i]) →
      CallsInv env (({ s with reports := s.reports ++ said } : CallSystem).nextOrder c 1) := by
    intro said hsaid hall
    refine h.ofCaller hc _ [] [] said rfl h.pool rfl rfl (.inl rfl) nofun (fun _ => .inl rfl)
      ⟨n + 1, hnext⟩ trivial (List.append_nil _).symm (List.append_nil _).symm rfl nofun
      (fun x hx => ?_) (fun j => ?_) (fun hcallback j => ?_) (fun _ => .inl ?_) fun _ hr => .inl hr
    · rw [hsaid x hx]
      exact ⟨i, hi, isFor_item env c i⟩
    · rw [hlocation]
      rfl
    · rw [hlocation, hall hcallback, List.countP_singleton, (isFor_item env c i).isFrom_eq]
      simp [CallLocation.unreported, List.count_singleton, beq_iff_eq]
    · rw [hlocation]
      rfl
  rw [CallSystem.report]
  split_ifs with hcallback
  · exact hstep [env.item c i] (fun x hx => List.mem_singleton.mp hx) fun _ => rfl
  · have hnone := hstep [] nofun fun hsome => absurd hsome hcallback
    rwa [List.append_nil] at hnone

/-- The caller offers an item to the next worker. -/
theorem offer (h : CallsInv env s) (hc : c < env.numCallers) {ppSections : List Nat}
    {call : IssueCall Collector} (hlocation : (s.callers c).location = .issuing ppSections)
    (hcall : s.pool.issuer = some call) (hover : call.over s.pool.pool.numWorkers = false) :
    CallsInv env { s with pool := (s.pool.offer call (s.collectors call.i)).observe } := by
  obtain ⟨n, hprogress⟩ := h.progress c
  have hslots := h.slots c
  rw [hlocation, hcall] at hslots
  obtain ⟨_, ⟨⟩, hlen, hitems⟩ := hslots
  have hbatch : (s.callers c).location.batch = ppSections := by rw [hlocation]; rfl
  have hyes : (s.callers c).location.isIssuing = true := by rw [hlocation]; rfl
  have hothers := h.not_issuing_of_ne hyes
  -- The item that is offered is what the caller has put into its entry.
  have hlt : call.i < ppSections.length := by
    have hle := (h.pool.call call hcall).le_length
    have hne : call.i ≠ call.workitems.length := fun heq => by
      rw [IssueCall.over, heq, beq_self_eq_true, Bool.true_or] at hover
      cases hover
    omega
  have hget : ppSections[call.i]? = some ppSections[call.i] := List.getElem?_eq_getElem hlt
  obtain ⟨x, hx, hfor, hentry⟩ := hitems call.i _ hget
  have hitem := hentry (Nat.le_refl _)
  have hi : ppSections[call.i] < (env.graphs c).sections.length := by
    refine hprogress.lt_length ?_
    rw [hbatch]
    exact List.getElem_mem hlt
  have hpool := h.pool.offer hcall hx
  rw [hitem]
  have hdrop : ppSections.drop call.i = ppSections[call.i] :: ppSections.drop (call.i + 1) :=
    List.drop_eq_getElem_cons hlt
  rw [ThreadpoolSystem.offer] at hpool ⊢
  dsimp only at hpool ⊢
  cases hpush : (s.pool.pool.workers s.pool.pool.nextWorkerIndex).queue.push x with
  | none =>
    simp only [hpush] at hpool ⊢
    -- The queue of the worker is full, and the item stays with the caller.
    refine h.ofQuiet hc (s.callers c) (Function.update_eq_self c _).symm hpool rfl
      rfl (.inr hothers) (fun _ => hothers) (fun _ => .inl rfl) ⟨n, hprogress⟩ ?_
      rfl rfl rfl ?_ rfl (fun hno => .inl hno) fun _ hr => .inl hr
    · rw [hlocation]
      exact ⟨_, rfl, hlen, hitems⟩
    · rw [hlocation, hcall]
      rfl
  | some queue =>
    -- The item goes from the hands of the caller to the queue of the worker.
    simp only [hpush] at hpool ⊢
    have hindex : s.pool.pool.nextWorkerIndex < maxSections := h.pool.numWorkers ▸ h.pool.next
    have hqueue := Fifo.items_of_push hpush
    generalize s.pool.pool.nextWorkerIndex = w at hindex hqueue hpool hpush ⊢
    have hpending : ({ s.pool.pool.workers w with queue := queue } :
        ThreadpoolWorker Collector).pending = (s.pool.pool.workers w).pending ++ [x] := by
      rw [ThreadpoolWorker.pending, ThreadpoolWorker.pending, hqueue, List.append_assoc]
    have htoRun : WorkerView.toRun ({ s.pool.pool.workers w with queue := queue }, s.ran w) =
        (s.view w).toRun ++ [x] := by
      rw [WorkerView.toRun, WorkerView.toRun, hqueue, ← List.append_assoc]
      rfl
    refine h.ofWorker (v := ({ s.pool.pool.workers w with queue := queue }, s.ran w)) hindex [x] [] []
      rfl hpool rfl (Function.update_eq_self w _).symm (h.ran w) (fun c' => ?_) rfl rfl
      (List.append_nil _).symm (List.append_nil _).symm (fun y hy => ?_) (by rintro _ ⟨⟩) (fun y hy => ?_)
      (fun c' i => ?_) (fun _ _ _ => rfl) fun c' i => ?_
    · by_cases hne : c' = c
      · rw [hne, hlocation]
        refine ⟨_, rfl, hlen, fun j i hj => ?_⟩
        obtain ⟨y, hy, hfory, hentryy⟩ := hitems j i hj
        exact ⟨y, hy, hfory, fun hle => hentryy (Nat.le_of_succ_le hle)⟩
      · exact (h.slots c').of_not_issuing (hothers c' hne)
    · obtain rfl := List.mem_singleton.mp hy
      exact ⟨c, hc, by rw [hlocation]; rfl, _, hi, hfor⟩
    · rw [hpending] at hy
      exact List.mem_append.mp hy
    · rw [htoRun, List.countP_append]
      exact (Nat.zero_add _).symm
    · rw [List.countP_singleton, hfor.isFrom_eq]
      by_cases hne : c' = c
      · rw [hne, hlocation, hcall]
        dsimp only [CallLocation.unissued, Option.map_some, Option.getD_some]
        rw [hdrop, List.count_cons]
        simp only [beq_iff_eq, decide_eq_true_eq, true_and]
        exact Nat.add_comm _ _
      · rw [if_neg (by simpa using fun heq => absurd heq.symm hne), Nat.zero_add]
        exact congrArg (List.count i) (CallLocation.unissued_of_not_issuing (hothers c' hne))

/-- The caller makes a step. -/
theorem stepCaller (h : CallsInv env s) (hc : c < env.numCallers)
    (hsize : (env.graphs c).sections.length < 2 ^ 32) (hapart : stepApart env s (.caller c) = true) :
    CallsInv env (s.stepCaller env c) := by
  rw [CallSystem.stepCaller]
  rw [stepApart] at hapart
  cases hlocation : (s.callers c).location with
  | idle => exact h
  | round => exact h.round hc hsize hlocation
  | fill ppSections g step =>
    rw [hlocation] at hapart
    refine h.fill hc hlocation ?_
    -- `stepApart` looks at the callers that there are, and the others are idle.
    rw [Bool.or_eq_true, decide_eq_true_eq, List.all_eq_true] at hapart
    refine hapart.imp id fun hfree c' hne => ?_
    by_cases hc' : c' < env.numCallers
    · simpa [hne] using hfree c' (List.mem_range.mpr hc')
    · rw [h.idle c' (by omega)]
      rfl
  | issue ppSections => exact h.issue hc hlocation
  | issuing ppSections =>
    rw [hlocation] at hapart
    dsimp only
    rw [CallSystem.stepIssue]
    cases hcall : s.pool.issuer with
    | none => exact h
    | some call =>
      rw [hcall] at hapart
      dsimp only
      split_ifs with hover
      · exact h.leaveIssue hc hlocation hcall hover (by simpa [hover] using hapart)
      · exact h.offer hc hlocation hcall (Bool.not_eq_true _ ▸ hover)
  | complete ppSections => exact h.complete hc hlocation
  | waiting ppSections =>
    rw [hlocation] at hapart
    exact h.wake hc hlocation hapart
  | single i => exact h.single hc hlocation
  | singleReport i => exact h.singleReport hc hlocation

/-! ## The steps of a worker -/

/-- A worker makes a step. -/
theorem stepWorker (h : CallsInv env s) {w : Nat} (hw : w < maxSections) :
    CallsInv env (s.stepWorker w) := by
  obtain ⟨hpool, hissuer, worker, hmoves, hworkers⟩ := h.pool.worker hw
  have hslots : ∀ c, Slots env s.collectors (threadpoolStep s.pool (.worker w)).issuer c
      (s.callers c).location := fun c => hissuer.symm ▸ h.slots c
  have hran : s.ran = Function.update s.ran w (s.ran w) := (Function.update_eq_self w _).symm
  -- A worker that is not in the function of the pool has not run anything.
  have hquiet : (∀ data, (s.pool.pool.workers w).phase ≠ .working data) →
      (worker.phase.hand ++ worker.queue.items = (s.pool.pool.workers w).pending) →
      CallsInv env { s with pool := threadpoolStep s.pool (.worker w) } := by
    intro hphase hpending
    have hoff : s.ran w = false := by
      rw [← Bool.not_eq_true]
      intro hon
      obtain ⟨data, hdata⟩ := h.ran w hon
      exact hphase data hdata
    refine h.ofWorker (v := (worker, s.ran w)) hw [] [] [] rfl hpool hworkers hran (fun hon => ?_) hslots
      rfl rfl (List.append_nil _).symm (List.append_nil _).symm (by rintro _ ⟨⟩) (by rintro _ ⟨⟩)
      (fun x hx => .inl (hpending ▸ hx)) (fun c i => ?_) (fun c i _ => ?_) fun c i => ?_
    · exact absurd (hoff.symm.trans hon) (by rintro ⟨⟩)
    · rw [WorkerView.toRun, WorkerView.toRun, CallSystem.view, hoff]
      exact (congrArg (List.countP (·.isFrom c i)) hpending).symm.trans (Nat.zero_add _).symm
    · rw [WorkerView.toReport, WorkerView.toReport, CallSystem.view, hoff]
      rfl
    · dsimp only
      rw [hissuer]
      exact (Nat.zero_add _).symm
  rw [CallSystem.stepWorker]
  dsimp only
  cases hmoves with
  | still hphase =>
    cases hreading : (s.pool.pool.workers w).phase with
    | working data => exact absurd hreading (hphase data)
    | reading => exact hquiet hphase rfl
    | recording data => exact hquiet hphase rfl
  | pop hphase hpop =>
    rw [hphase]
    refine hquiet (hphase ▸ (by rintro _ ⟨⟩)) ?_
    rw [ThreadpoolWorker.pending, hphase, Fifo.items_of_pop hpop]
    rfl
  | record hphase =>
    rw [hphase]
    refine hquiet (hphase ▸ (by rintro _ ⟨⟩)) ?_
    rw [ThreadpoolWorker.pending, hphase]
    rfl
  -- the function of the pool runs the section first, and calls back in its next step
  | @execute data hphase =>
    have hhand : data ∈ (s.pool.pool.workers w).pending := by
      rw [ThreadpoolWorker.pending, hphase]
      exact List.mem_cons_self
    rw [hphase]
    dsimp only
    split_ifs with hon
    · -- The worker calls back.
      have hstep : ∀ said : List Collector, (∀ x ∈ said, x = data) →
          (data.callback.isSome = true → said = [data]) →
          CallsInv env { s with
            reports := s.reports ++ said
            count := s.count + 1
            ran := Function.update s.ran w false
            pool := threadpoolStep s.pool (.worker w) } := by
        intro said hsaid hall
        refine h.ofWorker (v := ({ s.pool.pool.workers w with phase := .recording data }, false)) hw [] []
          said rfl hpool hworkers rfl (by rintro ⟨⟩) hslots rfl rfl (List.append_nil _).symm rfl (by rintro _ ⟨⟩)
          (fun x hx => ?_) (fun x hx => .inl ?_) (fun c i => ?_) (fun c i hcallback => ?_) fun c i => ?_
        · rw [hsaid x hx]
          exact hhand
        · rw [ThreadpoolWorker.pending, hphase]
          exact List.mem_cons_of_mem _ hx
        · rw [WorkerView.toRun, WorkerView.toRun, CallSystem.view, hon]
          exact (Nat.zero_add _).symm
        · rw [WorkerView.toReport, WorkerView.toReport, CallSystem.view, hon, hphase]
          obtain ⟨c', -, i', -, hfor⟩ := h.pending w data hhand
          by_cases hfrom : data.isFrom c i = true
          · rw [hfor.isFrom_eq, decide_eq_true_eq] at hfrom
            obtain ⟨rfl, rfl⟩ := hfrom
            rw [hall (by rw [hfor.callback]; exact hcallback)]
            exact Nat.add_comm _ _
          -- an item of another caller or section counts on neither side
          · have hnone : said.countP (·.isFrom c i) = 0 :=
              List.countP_eq_zero.mpr fun x hx => hsaid x hx ▸ hfrom
            rw [hnone]
            exact congrArg (0 + ·) (List.countP_eq_zero.mpr fun x hx =>
              (List.mem_singleton.mp hx) ▸ hfrom)
        · dsimp only
          rw [hissuer]
          exact (Nat.zero_add _).symm
      rw [CallSystem.report]
      split_ifs with hcallback
      · exact hstep [data] (fun x hx => List.mem_singleton.mp hx) fun _ => rfl
      · have hnone := hstep [] (by rintro _ ⟨⟩) fun hsome => absurd hsome hcallback
        rwa [List.append_nil] at hnone
    · -- The worker runs the section.
      refine h.ofWorker (v := (s.pool.pool.workers w, true)) hw [] [data] [] rfl h.pool
        (Function.update_eq_self w _).symm rfl (fun _ => ⟨data, hphase⟩) h.slots rfl rfl rfl
        (List.append_nil _).symm (by rintro _ ⟨⟩) (fun x hx => ?_) (fun x hx => .inl hx) (fun c i => ?_)
        (fun c i _ => ?_) fun c i => (Nat.zero_add _).symm
      · rw [List.append_nil] at hx
        rw [List.mem_singleton.mp hx]
        exact hhand
      · rw [WorkerView.toRun, WorkerView.toRun, CallSystem.view, if_neg hon, hphase]
        exact List.countP_append
      · rw [WorkerView.toReport, WorkerView.toReport, CallSystem.view, if_neg hon, if_pos rfl, hphase]
        exact Nat.add_comm _ _

/-- Every step that meets the conditions keeps the invariant. -/
theorem step (h : CallsInv env s) (hsize : ∀ c, (env.graphs c).sections.length < 2 ^ 32)
    {act : CallAct} (hapart : stepApart env s act = true) : CallsInv env (callStep env s act) := by
  cases act with
  | process c =>
    rw [callStep]
    split_ifs with hc
    · cases hlocation : (s.callers c).location with
      | idle => exact h.process hc hlocation
      | _ => exact h
    · exact h
  | caller c =>
    rw [callStep]
    split_ifs with hc
    · exact h.stepCaller hc (hsize c) hapart
    · exact h
  | worker w =>
    rw [callStep]
    split_ifs with hw
    · exact h.stepWorker hw
    · exact h

end CallsInv

end DVP.Kgraph
