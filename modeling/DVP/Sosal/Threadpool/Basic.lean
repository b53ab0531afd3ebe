import DVP.Lib.Fifo
import DVP.Lib.Run
import Mathlib.Logic.Function.Basic

/-!
# The thread pool

The pool of `source/sosal/threadpool.c`: a queue for each worker, the count of the items that were
issued and not completed, and the event that tells that there is none. Threads take atomic steps
in any order:

* a caller of `threadpool_issue` takes the semaphore and resets the event, makes one round of the
  inner loop at a time, and leaves;
* a worker reads its queue, runs the function of the pool on the item, and records that the item is
  done, for which the semaphore has to be free;
* a caller of `threadpool_complete` tests the event or the count, and one that waits wakes at any
  time.

The queues are bounded ones here. `DVP.Sosal.Threadpool.Queue` has the reason why the queues of
`source/sosal/queue.c` may be taken for these.
-/

namespace DVP.Sosal

/-- Where a worker is: in `queue_read`, in the function of the pool, or after it. -/
inductive WorkerPhase (α : Type) where
  | reading
  | working (data : α)
  | recording (data : α)

/-- `threadpool_worker_t`, as far as the pool uses it. -/
structure ThreadpoolWorker (α : Type) where
  queue : Fifo α
  phase : WorkerPhase α

/-- `threadpool_t`. The workers are those with an index below `numWorkers`. The event `completed` is
a manual-reset one (`event_init(…, false_e)`), so it is its `set` flag. -/
structure Threadpool (α : Type) where
  numWorkers : Nat
  /-- An `int32_t`, whose increments and decrements wrap. -/
  numCurrentItems : BitVec 32
  workers : Nat → ThreadpoolWorker α
  nextWorkerIndex : Nat
  completed : Bool

/-- The local variables of a call of `threadpool_issue` that has the semaphore. -/
structure IssueCall (α : Type) where
  workitems : List α
  i : Nat
  /-- The attempts for the item `i` so far. -/
  count : Nat
  wrote : Bool
  /-- The items that a queue took so far. -/
  accepted : List α

/-- A call of `threadpool_issue` that returned. -/
structure IssueReturn (α : Type) where
  workitems : List α
  accepted : List α
  ret : Bool

/-- A call of `threadpool_complete` that returned, and whether at some moment during the call every
item accepted up to then had finished executing. -/
structure CompleteReturn where
  blocking : Bool
  ret : Bool
  finished : Bool
  deriving DecidableEq

/-- A pool, the threads that use it, and what has happened. An item is listed with the index of the
worker whose queue took it. -/
structure ThreadpoolSystem (α : Type) where
  pool : Threadpool α
  /-- The call that has the semaphore. -/
  issuer : Option (IssueCall α)
  /-- The threads in the event wait of a blocking `threadpool_complete`, each with whether all
  accepted items had finished at some moment since its call. -/
  waiting : Nat → Option Bool
  accepted : List (Nat × α)
  executed : List (Nat × α)
  /-- The number of the items whose completion was recorded. -/
  recorded : Nat
  issues : List (IssueReturn α)
  completes : List CompleteReturn

/-- The atomic steps. -/
inductive ThreadpoolAct (α : Type) where
  /-- A thread calls `threadpool_issue`, with a list of items that is not empty, and is first to take
  the semaphore. -/
  | issue (item : α) (items : List α)
  /-- The next step of the call that has the semaphore. -/
  | issuer
  /-- The next step of a worker. -/
  | worker (w : Nat)
  /-- The thread `t` calls `threadpool_complete`. -/
  | complete (t : Nat) (blocking : Bool)
  /-- The event wait of the thread `t` is over. -/
  | wake (t : Nat)

variable {α : Type}

/-- `threadpool_create`. -/
def threadpoolCreate (numThreads numWorkItems : Nat) : Threadpool α where
  numWorkers := numThreads
  numCurrentItems := 0
  workers := fun _ => ⟨.empty numWorkItems, .reading⟩
  nextWorkerIndex := 0
  completed := false

namespace Threadpool

def setWorker (pool : Threadpool α) (w : Nat) (worker : ThreadpoolWorker α) : Threadpool α :=
  { pool with workers := Function.update pool.workers w worker }

end Threadpool

/-- The loops of `threadpool_issue` are over: every item was written, or no worker took the last. -/
def IssueCall.over (call : IssueCall α) (numWorkers : Nat) : Bool :=
  call.i == call.workitems.length || (!call.wrote && decide (numWorkers ≤ call.count))

namespace ThreadpoolSystem

/-- A pool that was just created. -/
def initial (pool : Threadpool α) : ThreadpoolSystem α where
  pool := pool
  issuer := none
  waiting := fun _ => none
  accepted := []
  executed := []
  recorded := 0
  issues := []
  completes := []

/-- Every item accepted so far has finished executing. -/
def finished (s : ThreadpoolSystem α) : Bool := s.executed.length == s.accepted.length

/-- The threads that wait see the present moment. -/
def observe (s : ThreadpoolSystem α) : ThreadpoolSystem α :=
  { s with waiting := fun t => (s.waiting t).map (· || s.finished) }

/-- The start of `threadpool_issue`: wait for the semaphore and reset the event. -/
def issue (s : ThreadpoolSystem α) (workitems : List α) : ThreadpoolSystem α :=
  match s.issuer with
  | some _ => s
  | none =>
    { s with
      pool := { s.pool with completed := false }
      issuer := some ⟨workitems, 0, 0, false, []⟩ }

/-- A round of the inner loop of `threadpool_issue`: offer `item` to the next worker. -/
def offer (s : ThreadpoolSystem α) (call : IssueCall α) (item : α) : ThreadpoolSystem α :=
  let index := s.pool.nextWorkerIndex
  let pool := { s.pool with
    nextWorkerIndex := (s.pool.nextWorkerIndex + 1) % s.pool.numWorkers
    numCurrentItems := s.pool.numCurrentItems + 1 }
  match (pool.workers index).queue.push item with
  | some queue =>
    { s with
      pool := pool.setWorker index { pool.workers index with queue := queue }
      issuer := some { call with
        i := call.i + 1
        count := 0
        wrote := true
        accepted := call.accepted ++ [item] }
      accepted := s.accepted ++ [(index, item)] }
  | none =>
    -- the queue is full: the count goes back, and the next worker is asked
    { s with
      pool := { pool with numCurrentItems := pool.numCurrentItems - 1 }
      issuer := some { call with
        count := call.count + 1
        wrote := false } }

/-- The end of `threadpool_issue`: set the event if there is nothing to do, and post the
semaphore. -/
def leave (s : ThreadpoolSystem α) (call : IssueCall α) : ThreadpoolSystem α :=
  { s with
    pool := { s.pool with completed := s.pool.numCurrentItems == 0 || s.pool.completed }
    issuer := none
    issues := s.issues ++ [⟨call.workitems, call.accepted, call.wrote⟩] }

/-- The next step of the call that has the semaphore. -/
def stepIssuer (s : ThreadpoolSystem α) : ThreadpoolSystem α :=
  match s.issuer with
  | none => s
  | some call =>
    if call.over s.pool.numWorkers then s.leave call
    else
      match call.workitems[call.i]? with
      | none => s
      | some item => s.offer call item

/-- The region of `threadpool_worker` between the wait for the semaphore and the post. -/
def record (s : ThreadpoolSystem α) (w : Nat) : ThreadpoolSystem α :=
  let numCurrentItems := s.pool.numCurrentItems - 1
  let pool := { s.pool with
    numCurrentItems := numCurrentItems
    -- the source compares the signed count with `<= 0`
    completed := numCurrentItems.sle 0 || s.pool.completed }
  { s with
    pool := pool.setWorker w { pool.workers w with phase := .reading }
    recorded := s.recorded + 1 }

/-- The next step of a worker. One that waits for an item, or for the semaphore, does nothing. -/
def stepWorker (s : ThreadpoolSystem α) (w : Nat) : ThreadpoolSystem α :=
  let worker := s.pool.workers w
  match worker.phase with
  | .reading =>
    match worker.queue.pop with
    | none => s
    | some (data, queue) => { s with pool := s.pool.setWorker w ⟨queue, .working data⟩ }
  | .working data =>
    { s with
      pool := s.pool.setWorker w { worker with phase := .recording data }
      executed := s.executed ++ [(w, data)] }
  | .recording _ =>
    match s.issuer with
    | some _ => s
    | none => s.record w

/-- The start of `threadpool_complete`, and all of it if it does not wait. -/
def complete (s : ThreadpoolSystem α) (t : Nat) (blocking : Bool) : ThreadpoolSystem α :=
  match s.waiting t with
  | some _ => s
  | none =>
    if blocking then
      if s.pool.completed then
        { s with completes := s.completes ++ [⟨true, true, s.finished⟩] }
      else { s with waiting := Function.update s.waiting t (some s.finished) }
    else
      { s with completes := s.completes ++ [⟨false, s.pool.numCurrentItems == 0, s.finished⟩] }

/-- The end of `event_wait` in `threadpool_complete`: it returns `true_e` if it finds the event
set. -/
def wake (s : ThreadpoolSystem α) (t : Nat) : ThreadpoolSystem α :=
  match s.waiting t with
  | none => s
  | some finished =>
    { s with
      waiting := Function.update s.waiting t none
      completes := s.completes ++ [⟨true, s.pool.completed, finished || s.finished⟩] }

end ThreadpoolSystem

/-- What the thread of a step does. -/
def ThreadpoolSystem.perform (s : ThreadpoolSystem α) : ThreadpoolAct α → ThreadpoolSystem α
  | .issue item items => s.issue (item :: items)
  | .issuer => s.stepIssuer
  | .worker w => if w < s.pool.numWorkers then s.stepWorker w else s
  | .complete t blocking => s.complete t blocking
  | .wake t => s.wake t

/-- One atomic step. -/
def threadpoolStep (s : ThreadpoolSystem α) (act : ThreadpoolAct α) : ThreadpoolSystem α :=
  (s.perform act).observe

/-- The items of a list that went to the worker `w`. -/
def itemsOf (items : List (Nat × α)) (w : Nat) : List α :=
  items.filterMap fun x => if x.1 = w then some x.2 else none

/-- The item in a worker's hands that is not executed yet. -/
def WorkerPhase.hand : WorkerPhase α → List α
  | .working data => [data]
  | _ => []

/-- The items a worker has to execute. -/
def ThreadpoolWorker.pending (worker : ThreadpoolWorker α) : List α :=
  worker.phase.hand ++ worker.queue.items

end DVP.Sosal
