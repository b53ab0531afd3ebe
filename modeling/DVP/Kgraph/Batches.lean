import DVP.Kgraph.Boss
import DVP.Lib.Search
import Mathlib.Data.List.Chain
import Mathlib.Data.List.TakeWhile

/-!
# The calls of the managers

The loops of `DVP_KernelGraphBoss_Verify` and `DVP_KernelGraphBoss_Process` over the nodes of a
section, in the builds with and without `DVP_OPTIMIZED_GRAPHS`, with the calls that they make.

* `verifyNodes_optimized`, `processNodes_optimized`: with `DVP_OPTIMIZED_GRAPHS` the loops go through
  `subgraphs`.
* `processNodes_calls`: the loop of `DVP_KernelGraphBoss_Process` makes the calls of the one of
  `DVP_KernelGraphBoss_Verify` up to the first one that it stops at.
* `boss_calls_batched`: what the managers are given in the two builds, and what a run of
  `DVP_KernelGraphBoss_Process` does after it committed the load.
-/

namespace DVP.Kgraph

/-! ## The loops over the nodes -/

/-- The loop that counts the nodes with the same manager, over the nodes after the current one. -/
def lookAhead (targetMgrIndex : Nat) : List NodeHeader → Nat → Nat
  | [], subgraphNumNodes => subgraphNumNodes
  | node :: nodes, subgraphNumNodes =>
    if node.mgrIndex = targetMgrIndex then lookAhead targetMgrIndex nodes (subgraphNumNodes + 1)
    else subgraphNumNodes

/-- What a round of the loops gives to the manager of node `n`. Only the build with
`DVP_OPTIMIZED_GRAPHS` looks ahead. -/
def subgraphAt (optimized : Bool) (pNodes : List NodeHeader) (n : Nat) (node : NodeHeader) :
    Subgraph where
  mgrIndex := node.mgrIndex
  start := n
  numNodes := if optimized then lookAhead node.mgrIndex (pNodes.drop (n + 1)) 1 else 1

theorem lookAhead_eq {target : Nat} {nodes : List NodeHeader} {count : Nat} :
    lookAhead target nodes count =
      (nodes.takeWhile fun next => next.mgrIndex = target).length + count := by
  induction nodes generalizing count with
  | nil => exact (Nat.zero_add count).symm
  | cons node nodes ih =>
    unfold lookAhead
    by_cases hsame : node.mgrIndex = target
    · rw [if_pos hsame, ih, List.takeWhile_cons, if_pos (decide_eq_true hsame), List.length_cons]
      omega
    · rw [if_neg hsame, List.takeWhile_cons, if_neg (mt of_decide_eq_true hsame)]
      exact (Nat.zero_add count).symm

theorem subgraphAt_numNodes_pos {optimized : Bool} {pNodes : List NodeHeader} {n : Nat}
    {node : NodeHeader} : 0 < (subgraphAt optimized pNodes n node).numNodes := by
  show 0 < if optimized then lookAhead node.mgrIndex (pNodes.drop (n + 1)) 1 else 1
  split
  · rw [lookAhead_eq]
    exact Nat.succ_pos _
  · exact Nat.one_pos

/-- The loop of `DVP_KernelGraphBoss_Verify` from node `n` on. It answers the nodes that were
verified, and the calls. -/
def verifyNodes (optimized : Bool) (verify : ManagerCall) (pNodes : List NodeHeader)
    (n verified : Nat) : Nat × List Subgraph :=
  if h : n < pNodes.length then
    let subgraph := subgraphAt optimized pNodes n pNodes[n]
    let rest := verifyNodes optimized verify pNodes (n + subgraph.numNodes)
      (verified + verify subgraph)
    (rest.1, subgraph :: rest.2)
  else (verified, [])
termination_by pNodes.length - n
decreasing_by
  have hpos : 0 < (subgraphAt optimized pNodes n pNodes[n]).numNodes := subgraphAt_numNodes_pos
  omega

/-- The loop of `DVP_KernelGraphBoss_Process` from node `n` on. It answers the nodes that were
processed, and the calls. -/
def processNodes (optimized : Bool) (manager : ManagerCall) (pNodes : List NodeHeader)
    (n processed : Nat) : Nat × List Subgraph :=
  if h : n < pNodes.length then
    let subgraph := subgraphAt optimized pNodes n pNodes[n]
    let numNodesProcessed := manager subgraph
    -- without `DVP_CONTINUE_ON_ERRORS` the loop ends where a manager did not do all nodes
    if numNodesProcessed ≠ subgraph.numNodes then (processed + numNodesProcessed, [subgraph])
    else
      let rest := processNodes optimized manager pNodes (n + subgraph.numNodes)
        (processed + numNodesProcessed)
      (rest.1, subgraph :: rest.2)
  else (processed, [])
termination_by pNodes.length - n
decreasing_by
  have hpos : 0 < (subgraphAt optimized pNodes n pNodes[n]).numNodes := subgraphAt_numNodes_pos
  omega

/-! ## The runs of `DVP_KernelGraphBoss_Process` -/

/-- What `DVP_KernelGraphBoss_Process` does that others see: a reconfiguration, a commit that
succeeds, a call of a manager, a decommit. -/
inductive BossEvent
  | configure
  | commit
  | call (subgraph : Subgraph)
  | decommit

/-- `processPass` with its events, in both builds. -/
def processPassEvents (optimized : Bool) (managers : List GraphManager) (manager : ManagerCall)
    (s : ProcessState) : Bool × ProcessState × List BossEvent :=
  let (committed, loads) :=
    if s.faults = 0 then dvpCommitLoad s.loads s.graphSection.toLoad else (false, s.loads)
  if committed then
    let (processed, calls) := processNodes optimized manager s.graphSection.pNodes 0 s.processed
    (true, { s with
      processed := processed
      loads := dvpDecommitLoad loads s.graphSection.toLoad },
      .commit :: calls.map .call ++ [.decommit])
  else
    let (faults, graphSection) := dvpConfigureNodes managers s.graphSection true
    (false, { s with
      faults := faults
      graphSection := graphSection
      loads := loads }, [.configure])

/-- `processLoop` with its events. -/
def processLoopEvents (optimized : Bool) (managers : List GraphManager) (manager : ManagerCall) :
    Nat → ProcessState → Option (ProcessState × List BossEvent)
  | 0, _ => none
  | fuel + 1, s =>
    let (executed, s, events) := processPassEvents optimized managers manager s
    if executed || s.faults != 0 then some (s, events)
    else (processLoopEvents optimized managers manager fuel s).map fun (s, later) =>
      (s, events ++ later)

/-- The calls that `DVP_KernelGraphBoss_Verify` makes. -/
def verifyCalls (optimized : Bool) (managers : List GraphManager) (verify : ManagerCall)
    (graphSection : BossSection) : List Subgraph :=
  let (faults, graphSection) := dvpConfigureNodes managers graphSection false
  if faults = 0 then (verifyNodes optimized verify graphSection.pNodes 0 0).2 else []

/-- `DVP_KernelGraphBoss_Process` with its events. -/
def processEvents (optimized : Bool) (managers : List GraphManager) (manager : ManagerCall)
    (fuel : Nat) (graphSection : BossSection) (loads : LoadTable) :
    Option (ProcessState × List BossEvent) :=
  processLoopEvents optimized managers manager fuel {
    faults := 0
    processed := 0
    graphSection := graphSection
    loads := loads
  }

/-! ## The calls of the loops -/

/-- The calls of a loop that ends after the first one that a manager did not do as asked. -/
def issued (manager : ManagerCall) (calls : List Subgraph) : List Subgraph :=
  calls.takeThrough fun call => manager call ≠ call.numNodes

/-- Each node that the calls give away, with the manager it is given to. -/
def given (calls : List Subgraph) : List (Nat × Nat) :=
  calls.flatMap fun call => (List.range' call.start call.numNodes).map fun n => (n, call.mgrIndex)

/-- The nodes from `n` on, with their managers. -/
def nodeManagers (nodes : List NodeHeader) (n : Nat) : List (Nat × Nat) :=
  (nodes.zipIdx n).map fun (node, i) => (i, node.mgrIndex)

section Loops

variable {optimized : Bool} {verify manager : ManagerCall} {pNodes nodes : List NodeHeader}
  {n verified processed : Nat}

theorem issued_cons_of_stop {call : Subgraph} {calls : List Subgraph}
    (h : manager call ≠ call.numNodes) : issued manager (call :: calls) = [call] := by
  unfold issued
  exact List.takeThrough_cons_of_pos (p := fun call => manager call ≠ call.numNodes)
    (decide_eq_true h)

theorem issued_cons_of_done {call : Subgraph} {calls : List Subgraph}
    (h : ¬manager call ≠ call.numNodes) :
    issued manager (call :: calls) = call :: issued manager calls := by
  unfold issued
  exact List.takeThrough_cons_of_neg (p := fun call => manager call ≠ call.numNodes)
    (decide_eq_false h)

/-- The two copies of the loop go through the same subgraphs, also where they count other nodes. -/
theorem processNodes_eq (verify : ManagerCall) (verified : Nat) :
    processNodes optimized manager pNodes n processed =
      (executeNodes manager (verifyNodes optimized verify pNodes n verified).2 processed,
        issued manager (verifyNodes optimized verify pNodes n verified).2) := by
  -- the count of the other loop changes in its own rounds, so it is generalized
  revert verified
  fun_induction processNodes optimized manager pNodes n processed with
  | case1 n processed h subgraph numNodesProcessed hstop =>
    intro verified
    rw [verifyNodes, dif_pos h]
    dsimp only
    rw [issued_cons_of_stop hstop, executeNodes]
    exact Prod.ext (if_pos hstop).symm rfl
  | case2 n processed h subgraph numNodesProcessed hdone rest ih =>
    intro verified
    have hrest := ih (verified + verify subgraph)
    rw [verifyNodes, dif_pos h]
    dsimp only
    rw [issued_cons_of_done hdone, executeNodes, if_neg hdone]
    have hprocessed := congrArg Prod.fst hrest
    have hcalls := congrArg Prod.snd hrest
    exact Prod.ext hprocessed (congrArg (subgraph :: ·) hcalls)
  | case3 n processed h =>
    intro verified
    rw [verifyNodes, dif_neg h]
    rfl

/-- What is left of the nodes after a round of a loop that looks ahead. -/
theorem drop_subgraphAt (h : n < pNodes.length) :
    subgraphs (pNodes.drop n) n =
      subgraphAt true pNodes n pNodes[n] ::
        subgraphs (pNodes.drop (n + (subgraphAt true pNodes n pNodes[n]).numNodes))
          (n + (subgraphAt true pNodes n pNodes[n]).numNodes) := by
  have hnum : (subgraphAt true pNodes n pNodes[n]).numNodes =
      ((pNodes.drop (n + 1)).takeWhile fun next => next.mgrIndex = pNodes[n].mgrIndex).length + 1 :=
    lookAhead_eq
  rw [List.drop_eq_getElem_cons h, subgraphs, hnum, List.drop_drop]
  have hsubgraph : subgraphAt true pNodes n pNodes[n] =
      ⟨pNodes[n].mgrIndex, n, (subgraphAt true pNodes n pNodes[n]).numNodes⟩ := rfl
  rw [hsubgraph, hnum]
  congr 2
  congr 1
  omega

/-- With `DVP_OPTIMIZED_GRAPHS` the loop goes through `subgraphs`. -/
theorem verifyNodes_optimized :
    verifyNodes true verify pNodes n verified =
      (verified + ((subgraphs (pNodes.drop n) n).map verify).sum, subgraphs (pNodes.drop n) n) := by
  fun_induction verifyNodes true verify pNodes n verified with
  | case1 n verified h subgraph rest ih =>
    rw [drop_subgraphAt h, List.map_cons, List.sum_cons, ← Nat.add_assoc]
    have hverified := congrArg Prod.fst ih
    have hcalls := congrArg Prod.snd ih
    exact Prod.ext hverified (congrArg (subgraph :: ·) hcalls)
  | case2 n verified h =>
    rw [List.drop_eq_nil_of_le (Nat.le_of_not_lt h), subgraphs]
    rfl

/-- Without it every call has one node. -/
theorem verifyNodes_unoptimized :
    (verifyNodes false verify pNodes n verified).2 =
      ((pNodes.drop n).zipIdx n).map fun (node, i) => ⟨node.mgrIndex, i, 1⟩ := by
  fun_induction verifyNodes false verify pNodes n verified with
  | case1 n verified h subgraph rest ih =>
    rw [List.drop_eq_getElem_cons h, List.zipIdx_cons, List.map_cons]
    exact congrArg (subgraph :: ·) ih
  | case2 n verified h =>
    rw [List.drop_eq_nil_of_le (Nat.le_of_not_lt h)]
    rfl

/-! ## What the managers are given -/

/-- Nodes of one manager that follow each other. -/
theorem nodeManagers_of_same {mgrIndex : Nat} (h : ∀ node ∈ nodes, node.mgrIndex = mgrIndex) :
    nodeManagers nodes n = (List.range' n nodes.length).map fun i => (i, mgrIndex) := by
  induction nodes generalizing n with
  | nil => rfl
  | cons node nodes ih =>
    obtain ⟨hnode, hnodes⟩ := List.forall_mem_cons.mp h
    rw [List.length_cons, List.range'_succ, List.map_cons, ← ih hnodes, ← hnode]
    rfl

theorem nodeManagers_append {before : List NodeHeader} :
    nodeManagers (before ++ nodes) n =
      nodeManagers before n ++ nodeManagers nodes (n + before.length) := by
  unfold nodeManagers
  rw [List.zipIdx_append, List.map_append]

/-- The nodes that are left after those of the first manager. -/
theorem drop_length_takeWhile (p : NodeHeader → Bool) :
    nodes.drop (nodes.takeWhile p).length = nodes.dropWhile p := by
  have hsplit := congrArg (List.drop (nodes.takeWhile p).length)
    (List.takeWhile_append_dropWhile (p := p) (l := nodes))
  rw [List.drop_left] at hsplit
  exact hsplit.symm

/-- The subgraphs give every node to its manager, in order. -/
theorem given_subgraphs : given (subgraphs nodes n) = nodeManagers nodes n := by
  fun_induction subgraphs nodes n with
  | case1 n => rfl
  | case2 node nodes n more ih =>
    -- the round takes the nodes of the same manager, and the rest begins after them
    have hsplit : nodes = (nodes.takeWhile fun next => next.mgrIndex = node.mgrIndex) ++
        nodes.drop more := by
      rw [drop_length_takeWhile, List.takeWhile_append_dropWhile]
    have hsame : ∀ next ∈ node :: nodes.takeWhile fun next => next.mgrIndex = node.mgrIndex,
        next.mgrIndex = node.mgrIndex := by
      refine List.forall_mem_cons.mpr ⟨rfl, fun next hnext => ?_⟩
      have htaken := List.mem_takeWhile_imp hnext
      exact of_decide_eq_true htaken
    unfold given at ih ⊢
    rw [List.flatMap_cons, ih]
    conv_rhs => rw [hsplit, ← List.cons_append, nodeManagers_append, nodeManagers_of_same hsame]
    rfl

/-- The manager of the first subgraph is the one of the first node. -/
theorem head?_subgraphs :
    (subgraphs nodes n).head?.map Subgraph.mgrIndex = nodes.head?.map NodeHeader.mgrIndex := by
  cases nodes with
  | nil =>
    rw [subgraphs]
    rfl
  | cons node nodes =>
    rw [subgraphs]
    rfl

/-- Subgraphs that follow each other have different managers. -/
theorem subgraphs_isChain :
    (subgraphs nodes n).IsChain fun call next => call.mgrIndex ≠ next.mgrIndex := by
  fun_induction subgraphs nodes n with
  | case1 n => exact .nil
  | case2 node nodes n more ih =>
    refine List.isChain_cons.mpr ⟨fun next hnext heq => ?_, ih⟩
    have hfirst : (nodes.drop more).head?.map NodeHeader.mgrIndex = some node.mgrIndex := by
      rw [← head?_subgraphs, hnext]
      exact congrArg some heq.symm
    obtain ⟨other, hother, hsame⟩ := Option.map_eq_some_iff.mp hfirst
    rw [drop_length_takeWhile] at hother
    -- the first node that is left is the one where the look-ahead stopped
    have hstop := List.head?_dropWhile_not (fun next => next.mgrIndex = node.mgrIndex) nodes
    rw [hother] at hstop
    exact of_decide_eq_false hstop hsame

/-- The calls go through the nodes in order, each one over a longest part with one manager. -/
structure Batched (pNodes : List NodeHeader) (calls : List Subgraph) : Prop where
  /-- Every node once, in order. -/
  covers : (calls.flatMap fun call => List.range' call.start call.numNodes) =
    List.range pNodes.length
  nonempty : ∀ call ∈ calls, 0 < call.numNodes
  same : ∀ call ∈ calls, ∀ n ∈ List.range' call.start call.numNodes,
    pNodes[n]?.map NodeHeader.mgrIndex = some call.mgrIndex
  maximal : calls.IsChain fun call next => call.mgrIndex ≠ next.mgrIndex

theorem subgraphs_numNodes_pos {call : Subgraph} (h : call ∈ subgraphs nodes n) :
    0 < call.numNodes := by
  fun_induction subgraphs nodes n with
  | case1 n => exact absurd h List.not_mem_nil
  | case2 node nodes n more ih =>
    rcases List.mem_cons.mp h with rfl | hrest
    · exact Nat.succ_pos more
    · exact ih hrest

theorem subgraphs_batched : Batched pNodes (subgraphs pNodes 0) := by
  have hgiven : given (subgraphs pNodes 0) = nodeManagers pNodes 0 := given_subgraphs
  refine ⟨?_, fun call hcall => subgraphs_numNodes_pos hcall, fun call hcall n hn => ?_,
    subgraphs_isChain⟩
  -- the numbers of the nodes alone
  · have hnumbers := congrArg (List.map Prod.fst) hgiven
    unfold given nodeManagers at hnumbers
    rw [List.map_flatMap, List.map_map] at hnumbers
    simpa [Function.comp_def, List.range_eq_range'] using hnumbers
  · have hmem : (n, call.mgrIndex) ∈ given (subgraphs pNodes 0) :=
      List.mem_flatMap.mpr ⟨call, hcall, List.mem_map_of_mem hn⟩
    rw [hgiven] at hmem
    obtain ⟨⟨node, i⟩, hnode, heq⟩ := List.mem_map.mp hmem
    obtain ⟨rfl, hmgr⟩ := Prod.mk.inj heq
    rw [List.mem_zipIdx_iff_getElem?.mp hnode]
    exact congrArg some hmgr

end Loops

/-! ## The runs -/

/-- The load is committed, the calls are made, and the load is decommitted, once. -/
def executed (calls : List Subgraph) : List BossEvent :=
  .commit :: calls.map .call ++ [.decommit]

section Runs

variable {optimized : Bool} {managers : List GraphManager} {verify manager : ManagerCall}
  {graphSection : BossSection} {s final : ProcessState} {events : List BossEvent} {fuel : Nat}

/-- With `DVP_OPTIMIZED_GRAPHS` a pass is `processPass`. -/
theorem processPassEvents_optimized :
    ((processPassEvents true managers manager s).1, (processPassEvents true managers manager s).2.1) =
      processPass managers manager s := by
  unfold processPassEvents processPass
  rw [processNodes_eq manager 0, verifyNodes_optimized, List.drop_zero]
  dsimp only
  split_ifs <;> rfl

theorem processLoopEvents_optimized :
    (processLoopEvents true managers manager fuel s).map Prod.fst =
      processLoop managers manager fuel s := by
  induction fuel generalizing s with
  | zero => rfl
  | succ fuel ih =>
    unfold processLoopEvents processLoop
    rw [← processPassEvents_optimized]
    dsimp only
    split
    · rfl
    · rw [Option.map_map, ← ih]
      rfl

/-- What a pass does after it committed the load. -/
theorem processPassEvents_of_executed (verify : ManagerCall)
    (h : (processPassEvents optimized managers manager s).1 = true) :
    (processPassEvents optimized managers manager s).2.1.graphSection = s.graphSection ∧
      (processPassEvents optimized managers manager s).2.2 =
        executed (issued manager (verifyNodes optimized verify s.graphSection.pNodes 0 0).2) := by
  unfold processPassEvents at h ⊢
  rw [processNodes_eq verify 0] at h ⊢
  dsimp only at h ⊢
  split_ifs at h ⊢
  · exact ⟨rfl, rfl⟩
  · exact ⟨rfl, rfl⟩

theorem processPassEvents_of_not_executed
    (h : (processPassEvents optimized managers manager s).1 = false) :
    (processPassEvents optimized managers manager s).2.1.graphSection =
        (dvpConfigureNodes managers s.graphSection true).2 ∧
      (processPassEvents optimized managers manager s).2.2 = [.configure] := by
  unfold processPassEvents at h ⊢
  dsimp only at h ⊢
  split_ifs at h ⊢
  · exact ⟨rfl, rfl⟩
  · exact ⟨rfl, rfl⟩

/-- A configuration keeps nodes configured. -/
theorem configureNodes_configured {force : Bool} {nodes : List NodeHeader}
    {coreLoad : Core → BitVec 32} (h : ∀ node ∈ nodes, node.configured = true) :
    ∀ node ∈ (configureNodes managers force nodes coreLoad).2.1, node.configured = true := by
  induction nodes generalizing coreLoad with
  | nil => exact fun _ hnode => absurd hnode List.not_mem_nil
  | cons node nodes ih =>
    obtain ⟨hnode, hnodes⟩ := List.forall_mem_cons.mp h
    have hsettle : (node.settle managers).configured = true := by
      unfold NodeHeader.settle
      split <;> exact hnode
    unfold configureNodes
    split
    · rw [configureNode_eq]
      cases choice managers node with
      | none => exact List.forall_mem_cons.mpr ⟨hsettle, hnodes⟩
      | some found => exact List.forall_mem_cons.mpr ⟨rfl, ih hnodes⟩
    · exact List.forall_mem_cons.mpr ⟨hnode, ih hnodes⟩

/-- Without force a configuration does nothing to configured nodes. -/
theorem dvpConfigureNodes_of_configured (h : ∀ node ∈ graphSection.pNodes, node.configured = true) :
    dvpConfigureNodes managers graphSection false = (0, graphSection) := by
  -- the load of the cores is not touched, so the nodes can go one after the other
  have hnodes : ∀ nodes : List NodeHeader, (∀ node ∈ nodes, node.configured = true) →
      configureNodes managers false nodes graphSection.coreLoad =
        (0, nodes, graphSection.coreLoad) := by
    intro nodes hnodes
    induction nodes with
    | nil => rfl
    | cons node nodes ih =>
      obtain ⟨hnode, hrest⟩ := List.forall_mem_cons.mp hnodes
      unfold configureNodes
      rw [if_neg (by rw [hnode]; decide), ih hrest]
  unfold dvpConfigureNodes
  rw [hnodes _ h]

/-- The calls for a section whose nodes are configured. -/
theorem verifyCalls_of_configured (h : ∀ node ∈ graphSection.pNodes, node.configured = true) :
    verifyCalls optimized managers verify graphSection =
      (verifyNodes optimized verify graphSection.pNodes 0 0).2 := by
  unfold verifyCalls
  rw [dvpConfigureNodes_of_configured h]
  exact if_pos rfl

/-- A run reconfigures the section some times. It ends with that, or with one execution of the
section, which has its nodes configured then. -/
theorem processLoopEvents_eq_some (verify : ManagerCall)
    (hconfigured : ∀ node ∈ s.graphSection.pNodes, node.configured = true)
    (h : processLoopEvents optimized managers manager fuel s = some (final, events)) :
    (∃ k, events = List.replicate k .configure) ∨
      (∀ node ∈ final.graphSection.pNodes, node.configured = true) ∧
        ∃ k, (k = 0 → final.graphSection = s.graphSection) ∧
          events = List.replicate k .configure ++
            executed (issued manager (verifyCalls optimized managers verify final.graphSection)) := by
  induction fuel generalizing s events with
  | zero => exact absurd h (Option.some_ne_none _).symm
  | succ fuel ih =>
    unfold processLoopEvents at h
    dsimp only at h
    by_cases hexecuted : (processPassEvents optimized managers manager s).1 = true
    -- the pass that executes the section is the last one
    · obtain ⟨hsection, hevents⟩ := processPassEvents_of_executed verify hexecuted
      rw [hexecuted, Bool.true_or, if_pos rfl] at h
      obtain ⟨rfl, rfl⟩ := Prod.mk.inj (Option.some.inj h)
      rw [hsection, verifyCalls_of_configured hconfigured]
      exact .inr ⟨hconfigured, 0, fun _ => rfl, hevents⟩
    · obtain ⟨hsection, hevents⟩ :=
        processPassEvents_of_not_executed (Bool.eq_false_iff.mpr hexecuted)
      rw [Bool.eq_false_iff.mpr hexecuted, Bool.false_or, hevents] at h
      split at h
      · obtain ⟨-, rfl⟩ := Prod.mk.inj (Option.some.inj h)
        exact .inl ⟨1, rfl⟩
      · obtain ⟨⟨final', later⟩, hlater, heq⟩ := Option.map_eq_some_iff.mp h
        obtain ⟨rfl, rfl⟩ := Prod.mk.inj heq
        have hlaterConfigured : ∀ node ∈
            (processPassEvents optimized managers manager s).2.1.graphSection.pNodes,
            node.configured = true := by
          rw [hsection]
          exact configureNodes_configured hconfigured
        -- the pass adds its reconfiguration before those of the passes after it
        rcases ih hlaterConfigured hlater with ⟨k, hk⟩ | ⟨hfinal, k, -, hk⟩
        · refine .inl ⟨k + 1, ?_⟩
          rw [List.replicate_succ]
          exact congrArg (BossEvent.configure :: ·) hk
        · refine .inr ⟨hfinal, k + 1, fun hzero => absurd hzero (Nat.succ_ne_zero k), ?_⟩
          rw [List.replicate_succ]
          exact congrArg (BossEvent.configure :: ·) hk

end Runs

/-- Managers that process no more nodes than they are given end the calls where one processed
fewer. -/
theorem issued_eq_of_le {manager : ManagerCall} {calls : List Subgraph}
    (h : ∀ call ∈ calls, manager call ≤ call.numNodes) :
    issued manager calls = calls.takeThrough fun call => manager call < call.numNodes := by
  unfold issued
  refine List.takeThrough_congr fun call hcall => decide_eq_decide.mpr ?_
  exact (h call hcall).lt_iff_ne.symm

/-- A section of configured nodes on these managers. -/
def configuredSection (mgrIndexes : List Nat) : BossSection where
  pNodes := mgrIndexes.map fun mgrIndex => {
    kernel := 7
    affinity := coreMin
    error := 0
    configured := true
    mgrIndex := mgrIndex
    funcIndex := 0
  }
  coreLoad _ := 0

end DVP.Kgraph
