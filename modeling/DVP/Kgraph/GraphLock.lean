import DVP.Lib.Run
import DVP.Sosal.Types
import Mathlib.Logic.Function.Basic

/-!
# Callers of a graph and its teardown

The graph lock of `source/dvp/dvp_kgraph/dvp_kgraph.c`, the calls of `DVP_KernelGraph_Verify` and
`DVP_KernelGraph_Process` that use it, and the one call of `DVP_KernelGraph_Deinit` that waits for
them. A mutex region is one atomic step, and so is each of the other places where a call reads or
writes something that another thread may change: the read of `m_enabled` after the mutex region of
`dvp_graph_lock`, the reads of `pGraph->verified`, a round of the loop over the sections or over the
orders.

Handles and graphs are not `NULL`. `DVP_KernelGraphBossDeinit` fills `DVP_t`, which the lock is part of,
with `0xEF` and frees it. A step that reads or writes it from then on is a fault. The graphs are memory of
the application, which stays.
-/

namespace DVP.Kgraph

open Sosal (Fault)

/-- `MAX_SECTIONS`. -/
def maxSections : Nat := 4

/-- `DVP_KernelGraphSection_t`, with the entry of its section in the array `order` of the graph. -/
structure KernelGraphSection where
  numNodes : BitVec 32
  skipSection : Bool
  order : BitVec 32
  deriving DecidableEq, Repr

/-- `DVP_KernelGraph_t`, without the flag `verified`. -/
structure KernelGraph where
  sections : List KernelGraphSection
  deriving DecidableEq, Repr

/-- The loop of `DVP_KernelGraph_Process` that determines which sections run in this order, of which
`ppSections` were found. It ends the call when there is a section left after `MAX_SECTIONS` were
found. -/
def selectSections (order : BitVec 32) :
    List KernelGraphSection → List KernelGraphSection → Option (List KernelGraphSection)
  | [], ppSections => some ppSections
  | s :: sections, ppSections =>
    if s.order = order ∧ ppSections.length < maxSections ∧ s.skipSection = false then
      selectSections order sections (ppSections ++ [s])
    else if maxSections ≤ ppSections.length then none
    else selectSections order sections ppSections

/-! ## The lock -/

/-- `DVP_GraphLock_t`. The event `m_wait` is a manual-reset one, so it is its `set` flag, and the
mutex is free between two steps. -/
structure GraphLock where
  enabled : Bool
  wait : Bool
  count : BitVec 32
  deriving DecidableEq, Repr

/-- `dvp_graphlock_init`. -/
def dvpGraphlockInit : GraphLock where
  enabled := true
  wait := true
  count := 0

/-- The mutex region of `dvp_graph_lock`. -/
def dvpGraphLock (gl : GraphLock) : GraphLock :=
  if gl.enabled then { gl with count := gl.count + 1, wait := false } else gl

/-- `dvp_graph_unlock`. -/
def dvpGraphUnlock (gl : GraphLock) : GraphLock :=
  if gl.enabled then
    { gl with
      count := gl.count - 1
      wait := gl.count - 1 == 0 || gl.wait }
  else gl

/-- The mutex region of `dvp_graphlock_wait`. -/
def dvpGraphlockDisable (gl : GraphLock) : GraphLock := { gl with enabled := false }

/-- `dvp_graphlock_deinit`. -/
def dvpGraphlockDeinit (gl : GraphLock) : GraphLock := { gl with enabled := false, count := 0 }

/-! ## The callers -/

/-- The calls of `dvp_graph_lock`: that of `DVP_KernelGraph_Verify`, which `DVP_KernelGraph_Process`
calls too, and the two of `DVP_KernelGraph_Process`. -/
inductive LockSite where
  | verify (byProcess : Bool)
  | process
  | again
  deriving DecidableEq, Repr

/-- What a caller does next, with the graph `g`. -/
inductive Location where
  | idle
  /-- The mutex region of `dvp_graph_lock`. -/
  | locking (site : LockSite) (g : Nat)
  /-- The read of `m_enabled` that `dvp_graph_lock` returns. -/
  | locked (site : LockSite) (g : Nat)
  /-- `DVP_KernelGraph_Verify` tests `pGraph->verified`. -/
  | verifyTest (byProcess : Bool) (g : Nat)
  /-- A round of the loop over the sections in `DVP_KernelGraph_Verify`. -/
  | verifying (byProcess : Bool) (g s : Nat) (numNodes numNodesVerified : BitVec 32)
  /-- `dvp_graph_unlock` in `DVP_KernelGraph_Verify`. -/
  | verifyUnlock (byProcess : Bool) (g : Nat)
  /-- `return pGraph->verified`. -/
  | verifyReturn (byProcess : Bool) (g : Nat)
  /-- `DVP_KernelGraph_Process` tests `pGraph->verified`. -/
  | processTest (g : Nat)
  /-- The first `dvp_graph_unlock` in `DVP_KernelGraph_Process`. -/
  | processRelease (g : Nat)
  /-- A round of the loop over the orders. The call has the lock if `held`. -/
  | processing (g : Nat) (held : Bool) (order : BitVec 32)
  /-- The last `dvp_graph_unlock` in `DVP_KernelGraph_Process`. -/
  | processUnlock (g : Nat) (held : Bool)
  deriving DecidableEq, Repr

/-- Where the call of `DVP_KernelGraph_Deinit` is. -/
inductive DeinitLocation where
  /-- It has not called `event_wait` in `dvp_graphlock_wait`. -/
  | before
  /-- It sleeps in `event_wait`. -/
  | waiting
  /-- `event_wait` has returned and the mutex region of `dvp_graphlock_wait` is next. -/
  | window
  /-- `dvp_graphlock_wait` has returned. -/
  | excluded
  /-- The pool, the lock and the boss are gone, and the memory of `DVP_t` is free. -/
  | done
  deriving DecidableEq, Repr

/-- The callers and the teardown. -/
structure GraphSystem where
  graphs : Nat → KernelGraph
  numCallers : Nat
  lock : GraphLock
  verified : Nat → Bool
  callers : Nat → Location
  /-- The calls of `DVP_KernelGraph_Process` that returned without unlocking. -/
  abandoned : Nat
  deinit : DeinitLocation

/-- The atomic steps. -/
inductive GraphAct where
  /-- The caller `c` calls `DVP_KernelGraph_Verify`. -/
  | verify (c g : Nat)
  /-- The caller `c` calls `DVP_KernelGraph_Process`. -/
  | process (c g : Nat)
  /-- The next step of the caller `c`. In a round over the sections the boss verifies `boss` nodes. -/
  | caller (c : Nat) (boss : BitVec 32)
  /-- The next step of `DVP_KernelGraph_Deinit`. -/
  | deinit
  deriving DecidableEq, Repr

namespace GraphSystem

/-- After `DVP_KernelGraph_Init`. -/
def initial (graphs : Nat → KernelGraph) (verified : Nat → Bool) (numCallers : Nat) :
    GraphSystem where
  graphs := graphs
  numCallers := numCallers
  lock := dvpGraphlockInit
  verified := verified
  callers := fun _ => .idle
  abandoned := 0
  deinit := .before

/-- The caller `c` goes to a location. -/
def goto (s : GraphSystem) (c : Nat) (location : Location) : GraphSystem :=
  { s with callers := Function.update s.callers c location }

/-- A caller starts a call. -/
def call (s : GraphSystem) (c g : Nat) (site : LockSite) : GraphSystem :=
  match s.callers c with
  | .idle => s.goto c (.locking site g)
  | _ => s

/-- What a caller does with the value that `dvp_graph_lock` returned. The second
`dvp_graph_lock` in `DVP_KernelGraph_Process` is a statement whose value is not used. -/
def afterLock (s : GraphSystem) (c g : Nat) (ret : Bool) : LockSite → GraphSystem
  | .verify byProcess => s.goto c (if ret then .verifyTest byProcess g else .idle)
  | .process => s.goto c (if ret then .processTest g else .idle)
  | .again => s.goto c (.processing g ret 0)

/-- A round of the loop over the orders in `DVP_KernelGraph_Process`. -/
def processOrder (s : GraphSystem) (c g : Nat) (held : Bool) (order : BitVec 32) : GraphSystem :=
  match selectSections order (s.graphs g).sections [] with
  | none =>
    -- The call returns where it is.
    { s.goto c .idle with abandoned := s.abandoned + if held then 1 else 0 }
  | some [] => s.goto c (.processUnlock g held)
  | some (_ :: _) => s.goto c (.processing g held (order + 1))

/-- A round of the loop over the sections in `DVP_KernelGraph_Verify`, and the comparison after the
last one. -/
def verifySection (s : GraphSystem) (c g : Nat) (byProcess : Bool) (i : Nat)
    (numNodes numNodesVerified boss : BitVec 32) : GraphSystem :=
  match (s.graphs g).sections[i]? with
  | some graphSection =>
    s.goto c (.verifying byProcess g (i + 1) (numNodes + graphSection.numNodes)
      (numNodesVerified + boss))
  | none =>
    { s.goto c (.verifyUnlock byProcess g) with
      verified := if numNodes = numNodesVerified then Function.update s.verified g true
        else s.verified }

/-- The next step of the caller `c`. -/
def stepCaller (s : GraphSystem) (c : Nat) (boss : BitVec 32) : GraphSystem :=
  match s.callers c with
  | .idle => s
  | .locking site g => { s.goto c (.locked site g) with lock := dvpGraphLock s.lock }
  | .locked site g => s.afterLock c g s.lock.enabled site
  | .verifyTest byProcess g =>
    s.goto c (if s.verified g then .verifyUnlock byProcess g else .verifying byProcess g 0 0 0)
  | .verifying byProcess g i numNodes numNodesVerified =>
    s.verifySection c g byProcess i numNodes numNodesVerified boss
  | .verifyUnlock byProcess g =>
    { s.goto c (.verifyReturn byProcess g) with lock := dvpGraphUnlock s.lock }
  | .verifyReturn byProcess g =>
    s.goto c (if byProcess && s.verified g then .locking .again g else .idle)
  | .processTest g => s.goto c (if s.verified g then .processing g true 0 else .processRelease g)
  | .processRelease g =>
    { s.goto c (.locking (.verify true) g) with lock := dvpGraphUnlock s.lock }
  | .processing g held order => s.processOrder c g held order
  | .processUnlock _ _ => { s.goto c .idle with lock := dvpGraphUnlock s.lock }

/-- The next step of `DVP_KernelGraph_Deinit`. The value `event_wait` returns is not used: a thread
that wakes goes on, whether or not it finds the event set. -/
def stepDeinit (s : GraphSystem) : GraphSystem :=
  match s.deinit with
  | .before => { s with deinit := if s.lock.wait then .window else .waiting }
  | .waiting => { s with deinit := .window }
  | .window => { s with lock := dvpGraphlockDisable s.lock, deinit := .excluded }
  | .excluded => { s with lock := dvpGraphlockDeinit s.lock, deinit := .done }
  | .done => s

end GraphSystem

/-- One atomic step. -/
def graphStep (s : GraphSystem) : GraphAct → GraphSystem
  | .verify c g => if c < s.numCallers then s.call c g (.verify false) else s
  | .process c g => if c < s.numCallers then s.call c g .process else s
  | .caller c boss => if c < s.numCallers then s.stepCaller c boss else s
  | .deinit => s.stepDeinit

/-- The next step of the caller reads or writes `DVP_t`: it is in `dvp_graph_lock`, it unlocks, or it hands
sections to the boss or the pool. -/
def Location.reachesDvp (graphs : Nat → KernelGraph) : Location → Bool
  | .locking _ _ | .locked _ _ => true
  | .verifying _ g i _ _ => ((graphs g).sections[i]?).isSome
  | .verifyUnlock _ _ | .processRelease _ | .processUnlock _ _ => true
  | .processing g _ order => !((selectSections order (graphs g).sections []).getD []).isEmpty
  | .idle | .verifyTest _ _ | .verifyReturn _ _ | .processTest _ => false

/-- The step reads or writes `DVP_t` after `DVP_KernelGraphBossDeinit` freed it. -/
def GraphSystem.usesFreed (s : GraphSystem) : GraphAct → Bool
  | .caller c _ => s.deinit == .done && (s.callers c).reachesDvp s.graphs
  | .verify _ _ | .process _ _ | .deinit => false

/-- The system as a machine. It faults where a step uses `DVP_t` after it was freed. -/
def graphMachine (s : GraphSystem) (act : GraphAct) : Except Fault (GraphSystem × Unit) :=
  if s.usesFreed act then .error .badPointer else .ok (graphStep s act, ())

section Machine

variable {s s' : GraphSystem} {act : GraphAct} {r : Unit}

/-- A step that ends is the one of `graphStep`. -/
theorem eq_graphStep_of_ok (h : graphMachine s act = .ok (s', r)) : s' = graphStep s act := by
  rw [graphMachine] at h
  split at h
  · cases h
  · cases h
    rfl

/-- A step that does not use freed memory ends. -/
theorem graphMachine_eq_ok (h : s.usesFreed act = false) :
    graphMachine s act = .ok (graphStep s act, ()) := by
  rw [graphMachine, h]
  rfl

/-- A step that ends did not use freed memory. -/
theorem usesFreed_eq_false_of_ok (h : graphMachine s act = .ok (s', r)) : s.usesFreed act = false := by
  rw [← Bool.not_eq_true]
  intro hfreed
  rw [graphMachine, if_pos hfreed] at h
  cases h

end Machine

end DVP.Kgraph
