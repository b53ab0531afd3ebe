import DVP.Kgraph.Order
import DVP.Sosal.Threadpool.Invariant

/-!
# Calls that share the thread pool

Any number of callers of `DVP_KernelGraph_Process`, with the things that they share: the static array
`collectors`, the thread pool and `workData`. Each caller has a verified graph of its own. The steps
are atomic: an assignment to a field of an entry of `collectors`, a step of the thread pool, a section
that runs, a callback under `workData.sem`.

The graph lock only counts the callers and never makes one wait as long as there is no teardown, so it
is left out here. So is the number of nodes that a callback gets, and the performance of the graph.
-/

namespace DVP.Kgraph

open DVP.Sosal

/-- `MAX_QUEUE_DEPTH`. -/
def maxQueueDepth : Nat := 2

/-- `DVP_KernelGraphCollector_t`. The graph of a caller has the index of the caller, and a section that
of its graph and its own. -/
structure Collector where
  dvp : Option Nat
  graph : Option Nat
  graphSection : Option (Nat × Nat)
  index : Nat
  cookie : Nat
  callback : Option Nat
  deriving DecidableEq, Repr

/-- An entry of `collectors` after the `memset` of `DVP_KernelGraph_Init`. -/
def Collector.zero : Collector := ⟨none, none, none, 0, 0, none⟩

/-- The callers, and what each of them passes to `DVP_KernelGraph_Process`. -/
structure CallEnv where
  numCallers : Nat
  handles : Nat → Nat
  graphs : Nat → KernelGraph
  /-- The pointer `pNodes` of a section of a graph. -/
  pNodes : Nat → Nat → Nat
  cookies : Nat → Nat
  callbacks : Nat → Option Nat

/-- What the caller `c` means to run for its section `i`. -/
def CallEnv.item (env : CallEnv) (c i : Nat) : Collector where
  dvp := some (env.handles c)
  graph := some c
  graphSection := some (c, i)
  index := i
  cookie := env.cookies c
  callback := env.callbacks c

/-- The next assignment to an entry of `collectors`. For the index there is one for each section of the
graph that has the same nodes. -/
inductive FillStep where
  | dvp
  | graph
  | graphSection
  | index (s : Nat)
  | cookie
  | callback
  deriving DecidableEq, Repr

/-- An assignment of the caller `c` to an entry of `collectors`, for its section `i`, and the step after
it. -/
def CallEnv.fillEntry (env : CallEnv) (c i : Nat) (entry : Collector) : FillStep → Collector × Option FillStep
  | .dvp => ({ entry with dvp := some (env.handles c) }, some .graph)
  | .graph => ({ entry with graph := some c }, some .graphSection)
  | .graphSection => ({ entry with graphSection := some (c, i) }, some (.index 0))
  | .index s =>
    if s < (env.graphs c).sections.length then
      -- The section is the one in the entry, whoever wrote it.
      if entry.graphSection.map (fun x => env.pNodes x.1 x.2) = some (env.pNodes c s) then
        ({ entry with index := s }, some (.index (s + 1)))
      else (entry, some (.index (s + 1)))
    else (entry, some .cookie)
  | .cookie => ({ entry with cookie := env.cookies c }, some .callback)
  | .callback => ({ entry with callback := env.callbacks c }, none)

/-- Where a caller is in `DVP_KernelGraph_Process`. -/
inductive CallLocation where
  | idle
  /-- The start of a round of the loop over the orders. -/
  | round
  /-- An assignment to the entry `g` of `collectors`. -/
  | fill (ppSections : List Nat) (g : Nat) (step : FillStep)
  /-- The wait for the semaphore in `threadpool_issue`. -/
  | issue (ppSections : List Nat)
  /-- In `threadpool_issue`, with the semaphore. -/
  | issuing (ppSections : List Nat)
  /-- The start of `threadpool_complete`. -/
  | complete (ppSections : List Nat)
  /-- In the event wait of `threadpool_complete`. -/
  | waiting (ppSections : List Nat)
  /-- The caller is to run the one section of the order. -/
  | single (i : Nat)
  /-- It has run the section and calls back. -/
  | singleReport (i : Nat)
  deriving DecidableEq, Repr

/-- The local variables of a call that outlive a round. -/
structure Call where
  order : BitVec 32
  numSectionsRun : BitVec 32
  /-- The sections that the call meant to run so far. -/
  scheduled : List Nat
  deriving DecidableEq, Repr

/-- A caller. -/
structure Caller where
  location : CallLocation
  call : Call
  deriving DecidableEq, Repr

/-- A call that returned. -/
structure CallReturn where
  caller : Nat
  ret : BitVec 32
  scheduled : List Nat
  deriving DecidableEq, Repr

/-- The callers, what they share, and what has happened. -/
structure CallSystem where
  collectors : Nat → Collector
  pool : ThreadpoolSystem Collector
  /-- The worker has run the section of the item in its hands and has not called back. -/
  ran : Nat → Bool
  /-- `workData.count`. -/
  count : BitVec 32
  callers : Nat → Caller
  /-- The sections that calls meant to run, with their callers. -/
  scheduled : List (Nat × Nat)
  /-- What was run, by workers and by callers. -/
  runs : List Collector
  /-- What was called back. -/
  reports : List Collector
  returns : List CallReturn

/-- The atomic steps. -/
inductive CallAct where
  /-- The caller `c` calls `DVP_KernelGraph_Process`. -/
  | process (c : Nat)
  /-- The next step of the caller `c`. -/
  | caller (c : Nat)
  /-- The next step of a worker. -/
  | worker (w : Nat)
  deriving DecidableEq, Repr

namespace CallSystem

/-- After `DVP_KernelGraph_Init`. -/
def initial : CallSystem where
  collectors := fun _ => .zero
  pool := .initial (threadpoolCreate maxSections maxQueueDepth)
  ran := fun _ => false
  count := 0
  callers := fun _ => ⟨.idle, 0, 0, []⟩
  scheduled := []
  runs := []
  reports := []
  returns := []

def setCaller (s : CallSystem) (c : Nat) (caller : Caller) : CallSystem :=
  { s with callers := Function.update s.callers c caller }

/-- The caller `c` goes to a location. -/
def goto (s : CallSystem) (c : Nat) (location : CallLocation) : CallSystem :=
  s.setCaller c ⟨location, (s.callers c).call⟩

/-- The caller `c` means to run sections. -/
def schedule (s : CallSystem) (c : Nat) (ppSections : List Nat) (location : CallLocation) :
    CallSystem :=
  let call := (s.callers c).call
  { s.setCaller c ⟨location, { call with scheduled := call.scheduled ++ ppSections }⟩ with
    scheduled := s.scheduled ++ ppSections.map (Prod.mk c) }

/-- The round of the caller `c` is over, and has counted `numSections`. -/
def nextOrder (s : CallSystem) (c : Nat) (numSections : BitVec 32) : CallSystem :=
  let call := (s.callers c).call
  s.setCaller c ⟨.round, { call with
    order := call.order + 1
    numSectionsRun := call.numSectionsRun + numSections }⟩

/-- The caller `c` returns. -/
def leave (s : CallSystem) (c : Nat) : CallSystem :=
  let call := (s.callers c).call
  { s.goto c .idle with returns := s.returns ++ [⟨c, call.numSectionsRun, call.scheduled⟩] }

/-- The start of a round of the loop over the orders. -/
def round (env : CallEnv) (s : CallSystem) (c : Nat) : CallSystem :=
  match selectIndices (s.callers c).call.order 0 (env.graphs c).sections [] with
  | none => s.leave c
  | some [] => s.leave c
  | some [i] => s.schedule c [i] (.single i)
  | some ppSections => s.schedule c ppSections (.fill ppSections 0 .dvp)

/-- A step of the caller `c` in the loop that fills `collectors`. -/
def fill (env : CallEnv) (s : CallSystem) (c : Nat) (ppSections : List Nat) (g : Nat)
    (step : FillStep) : CallSystem :=
  match ppSections[g]? with
  | none => s.goto c (.issue ppSections)
  | some i =>
    let (entry, next) := env.fillEntry c i (s.collectors g) step
    { s.goto c (match next with
        | some step => .fill ppSections g step
        | none => .fill ppSections (g + 1) .dvp) with
      collectors := Function.update s.collectors g entry }

/-- The caller `c` takes the semaphore in `threadpool_issue`, if it is free. The items are pointers to
the entries of `collectors`, and the pool sees what these hold. -/
def issue (s : CallSystem) (c : Nat) (ppSections : List Nat) : CallSystem :=
  match s.pool.issuer with
  | some _ => s
  | none =>
    { s.goto c (.issuing ppSections) with
      pool := (s.pool.issue ((List.range ppSections.length).map s.collectors)).observe }

/-- A step of the caller `c` in the loops of `threadpool_issue`. What is written to a queue is what the
entry of `collectors` holds at that moment. The value that is returned is not used. -/
def stepIssue (s : CallSystem) (c : Nat) (ppSections : List Nat) : CallSystem :=
  match s.pool.issuer with
  | none => s
  | some call =>
    if call.over s.pool.pool.numWorkers then
      { s.goto c (.complete ppSections) with pool := (s.pool.leave call).observe }
    else { s with pool := (s.pool.offer call (s.collectors call.i)).observe }

/-- `threadpool_complete` of the caller `c` has returned. -/
def completed (s : CallSystem) (c : Nat) (ppSections : List Nat) (ret : Bool) : CallSystem :=
  s.nextOrder c (if ret then BitVec.ofNat 32 ppSections.length else 0)

/-- The caller `c` calls `threadpool_complete`. -/
def complete (s : CallSystem) (c : Nat) (ppSections : List Nat) : CallSystem :=
  let pool := threadpoolStep s.pool (.complete c true)
  if s.pool.pool.completed then { s.completed c ppSections true with pool := pool }
  else { s.goto c (.waiting ppSections) with pool := pool }

/-- The event wait of the caller `c` is over. -/
def wake (s : CallSystem) (c : Nat) (ppSections : List Nat) : CallSystem :=
  { s.completed c ppSections s.pool.pool.completed with pool := threadpoolStep s.pool (.wake c) }

/-- A callback, if there is one. -/
def report (s : CallSystem) (item : Collector) : CallSystem :=
  if item.callback.isSome then { s with reports := s.reports ++ [item] } else s

/-- The next step of the caller `c`. -/
def stepCaller (env : CallEnv) (s : CallSystem) (c : Nat) : CallSystem :=
  match (s.callers c).location with
  | .idle => s
  | .round => s.round env c
  | .fill ppSections g step => s.fill env c ppSections g step
  | .issue ppSections => s.issue c ppSections
  | .issuing ppSections => s.stepIssue c ppSections
  | .complete ppSections => s.complete c ppSections
  | .waiting ppSections => s.wake c ppSections
  | .single i => { s.goto c (.singleReport i) with runs := s.runs ++ [env.item c i] }
  | .singleReport i => (s.report (env.item c i)).nextOrder c 1

/-- The next step of the worker `w`, which runs `dvp_kernelgraph_worker` on its item. -/
def stepWorker (s : CallSystem) (w : Nat) : CallSystem :=
  let pool := threadpoolStep s.pool (.worker w)
  match (s.pool.pool.workers w).phase with
  | .working data =>
    if s.ran w then
      { s.report data with
        count := s.count + 1
        ran := Function.update s.ran w false
        pool := pool }
    else
      { s with
        runs := s.runs ++ [data]
        ran := Function.update s.ran w true }
  | _ => { s with pool := pool }

end CallSystem

/-- One atomic step. -/
def callStep (env : CallEnv) (s : CallSystem) : CallAct → CallSystem
  | .process c =>
    if c < env.numCallers then
      match (s.callers c).location with
      | .idle => s.setCaller c ⟨.round, 0, 0, []⟩
      | _ => s
    else s
  | .caller c => if c < env.numCallers then s.stepCaller env c else s
  | .worker w => if w < maxSections then s.stepWorker w else s

/-- The system as a machine that never faults. -/
def callMachine (env : CallEnv) (s : CallSystem) (act : CallAct) :
    Except Empty (CallSystem × Unit) :=
  .ok (callStep env s act, ())

end DVP.Kgraph
