import DVP.Kgraph.Configure

/-!
# Verification and processing of a section

`DVP_KernelGraphBoss_Verify` and `DVP_KernelGraphBoss_Process` of `source/dvp/dvp_kgraph/dvp_kgb.c`, with
`DVP_OPTIMIZED_GRAPHS`, with `DVP_USE_LOAD_TABLE` and without `DVP_CONTINUE_ON_ERRORS`. The calls
`verify` and `manager` of the managers are parameters.

* `coreLoad_eq_iff`: the loads of a section are those of its configured nodes as long as no
  reconfiguration reaches a node that has a load already.
* `process_returns_iff`: when the loop of `DVP_KernelGraphBoss_Process` ends.
-/

namespace DVP.Kgraph

/-- Nodes that follow each other and have the same manager. -/
structure Subgraph where
  mgrIndex : Nat
  start : Nat
  numNodes : Nat

/-- A call of a manager: it answers how many nodes of the subgraph it did. -/
abbrev ManagerCall : Type := Subgraph → Nat

/-- The subgraphs that the loops over the nodes go through, from node `n` on. -/
def subgraphs : List NodeHeader → Nat → List Subgraph
  | [], _ => []
  | node :: nodes, n =>
    let more := (nodes.takeWhile fun next => next.mgrIndex = node.mgrIndex).length
    { mgrIndex := node.mgrIndex
      start := n
      numNodes := more + 1 } :: subgraphs (nodes.drop more) (n + more + 1)
termination_by nodes => nodes.length
decreasing_by
  rw [List.length_drop, List.length_cons]
  omega

/-- `DVP_KernelGraphBoss_Verify`. -/
def dvpKernelGraphBossVerify (managers : List GraphManager) (verify : ManagerCall)
    (graphSection : BossSection) : Nat × BossSection :=
  let (faults, graphSection) := dvpConfigureNodes managers graphSection false
  if faults = 0 then (((subgraphs graphSection.pNodes 0).map verify).sum, graphSection)
  else (0, graphSection)

/-- The loop of `DVP_KernelGraphBoss_Process` over the subgraphs, which a manager that did not do all
nodes ends. -/
def executeNodes (manager : ManagerCall) : List Subgraph → Nat → Nat
  | [], processed => processed
  | subgraph :: rest, processed =>
    let numNodesProcessed := manager subgraph
    let processed := processed + numNodesProcessed
    -- without `DVP_CONTINUE_ON_ERRORS`
    if numNodesProcessed ≠ subgraph.numNodes then processed else executeNodes manager rest processed

/-- The section as the load table sees it. -/
def BossSection.toLoad (graphSection : BossSection) : LoadSection where
  numNodes := graphSection.pNodes.length
  coreLoad := graphSection.coreLoad

/-- The variables of `DVP_KernelGraphBoss_Process`, with the section and the load table. -/
structure ProcessState where
  faults : Nat
  processed : Nat
  graphSection : BossSection
  loads : LoadTable

/-- One pass of the loop of `DVP_KernelGraphBoss_Process`. It answers whether the section was
executed. -/
def processPass (managers : List GraphManager) (manager : ManagerCall) (s : ProcessState) :
    Bool × ProcessState :=
  let (committed, loads) :=
    -- a section with faults is not committed
    if s.faults = 0 then dvpCommitLoad s.loads s.graphSection.toLoad else (false, s.loads)
  if committed then
    (true, { s with
      processed := executeNodes manager (subgraphs s.graphSection.pNodes 0) s.processed
      loads := dvpDecommitLoad loads s.graphSection.toLoad })
  else
    let (faults, graphSection) := dvpConfigureNodes managers s.graphSection true
    (false, { s with
      faults := faults
      graphSection := graphSection
      loads := loads })

/-- The loop of `DVP_KernelGraphBoss_Process` with at most `fuel` passes. -/
def processLoop (managers : List GraphManager) (manager : ManagerCall) :
    Nat → ProcessState → Option ProcessState
  | 0, _ => none
  | fuel + 1, s =>
    let (executed, s) := processPass managers manager s
    if executed || s.faults != 0 then some s else processLoop managers manager fuel s

/-- `DVP_KernelGraphBoss_Process` with a load table that no other process changes. It answers the nodes
that were processed, or `none` when `fuel` passes are not enough. -/
def dvpKernelGraphBossProcess (managers : List GraphManager) (manager : ManagerCall) (fuel : Nat)
    (graphSection : BossSection) (loads : LoadTable) : Option ProcessState :=
  processLoop managers manager fuel {
    faults := 0
    processed := 0
    graphSection := graphSection
    loads := loads
  }

/-! ## The loads of a section -/

/-- What changes the loads of a section: a call of `DVP_KernelGraphBoss_Verify`, or a pass of the loop of
`DVP_KernelGraphBoss_Process` that finds the load table as it says. -/
inductive BossAct
  | verify
  | pass (loads : LoadTable)

namespace BossSection

variable (managers : List GraphManager) (call : ManagerCall)

/-- One step of the calls on a section. -/
def step (graphSection : BossSection) : BossAct → Except Empty (BossSection × Unit)
  | .verify => .ok ((dvpKernelGraphBossVerify managers call graphSection).2, ())
  | .pass loads =>
    .ok ((processPass managers call {
      faults := 0
      processed := 0
      graphSection := graphSection
      loads := loads
    }).2.graphSection, ())

/-- The section is new and its nodes are not configured. -/
structure Allocated (graphSection : BossSection) : Prop where
  zero : ∀ c, graphSection.coreLoad c = 0
  not_configured : ∀ node ∈ graphSection.pNodes, node.configured = false

/-- The loads are those of the configured nodes. -/
def LoadsMatch (graphSection : BossSection) : Prop :=
  ∀ c, graphSection.coreLoad c = nodesLoad managers c graphSection.pNodes

/-- A commit that fails, and so a reconfiguration, finds no load on the nodes that it reaches. -/
def Reconfigurable (graphSection : BossSection) : BossAct → Prop
  | .verify => True
  | .pass loads =>
    (dvpCommitLoad loads graphSection.toLoad).1 = false →
      ∀ c, nodesLoad managers c (reached managers graphSection.pNodes) = 0

instance (graphSection : BossSection) (act : BossAct) :
    Decidable (graphSection.Reconfigurable managers act) :=
  match act with
  | .verify => .isTrue trivial
  | .pass loads =>
    inferInstanceAs (Decidable ((dvpCommitLoad loads graphSection.toLoad).1 = false →
      ∀ c, nodesLoad managers c (reached managers graphSection.pNodes) = 0))

/-- The loads match and every configured node has the manager that it would get again. -/
structure LoadInv (graphSection : BossSection) : Prop where
  loads : LoadsMatch managers graphSection
  settled : ∀ node ∈ graphSection.pNodes, Settled managers node

variable {managers} {call} {graphSection graphSection' : BossSection} {loads : LoadTable}

theorem Allocated.loadInv (h : graphSection.Allocated) : graphSection.LoadInv managers where
  loads c := by
    rw [h.zero, nodesLoad, List.map_congr_left fun node hnode =>
      loadOn_of_not_configured (h.not_configured node hnode)]
    exact (List.sum_map_zero).symm
  settled node hnode hconfigured := by
    rw [h.not_configured node hnode] at hconfigured
    cases hconfigured

/-- Nodes that are configured when they are not configured yet add their load. -/
theorem LoadInv.configure (h : graphSection.LoadInv managers) :
    LoadInv managers (dvpConfigureNodes managers graphSection false).2 := by
  have hspec := configureNodes_spec managers false graphSection.pNodes graphSection.coreLoad
    (Or.inr h.settled)
  have hnodes := configureNodes_settled false graphSection.coreLoad h.settled
  refine ⟨fun c => ?_, hnodes.settled⟩
  have hcore := hspec.coreLoad_eq c
  rw [if_neg Bool.false_ne_true, h.loads c, ← hnodes.nodesLoad_eq c] at hcore
  exact add_right_cancel hcore

/-- After a forced configuration the loads match exactly when the nodes that it reached had no load. -/
theorem LoadInv.reconfigure_iff (h : graphSection.LoadInv managers) :
    LoadsMatch managers (dvpConfigureNodes managers graphSection true).2 ↔
      ∀ c, nodesLoad managers c (reached managers graphSection.pNodes) = 0 := by
  have hspec := configureNodes_spec managers true graphSection.pNodes graphSection.coreLoad
    (Or.inl rfl)
  have hnodes := configureNodes_settled true graphSection.coreLoad h.settled
  refine forall_congr' fun c => ?_
  have hcore := hspec.coreLoad_eq c
  rw [if_pos rfl, add_zero, h.loads c, ← hnodes.nodesLoad_eq c] at hcore
  change (configureNodes managers true graphSection.pNodes graphSection.coreLoad).2.2 c =
    nodesLoad managers c (configureNodes managers true graphSection.pNodes graphSection.coreLoad).2.1 ↔ _
  rw [hcore, add_eq_left]

theorem dvpKernelGraphBossVerify_section :
    (dvpKernelGraphBossVerify managers call graphSection).2 =
      (dvpConfigureNodes managers graphSection false).2 := by
  rw [dvpKernelGraphBossVerify]
  generalize dvpConfigureNodes managers graphSection false = configured
  obtain ⟨faults, graphSection'⟩ := configured
  dsimp only
  split <;> rfl

/-- A pass executes the section as it is, or configures it again. -/
theorem processPass_section :
    (processPass managers call {
      faults := 0
      processed := 0
      graphSection := graphSection
      loads := loads }).2.graphSection =
      if (dvpCommitLoad loads graphSection.toLoad).1 then graphSection
      else (dvpConfigureNodes managers graphSection true).2 := by
  rw [processPass]
  dsimp only
  rw [if_pos rfl]
  split
  · rfl
  · rfl

end BossSection

/-- For every section from `DVP_KernelGraph_Alloc` and every sequence of calls, the loads are those of the
configured nodes in every state exactly when no commit fails on a section with nodes that have a load and
that the reconfiguration reaches. -/
theorem coreLoad_eq_iff (managers : List GraphManager) (call : ManagerCall) (graphSection : BossSection)
    (acts : List BossAct) (halloc : graphSection.Allocated) :
    Machine.Always (BossSection.step managers call) (BossSection.LoadsMatch managers) graphSection acts ↔
      Machine.Meets (BossSection.step managers call) (BossSection.Reconfigurable managers) graphSection
        acts := by
  refine Machine.always_iff_meets (I := BossSection.LoadInv managers) (fun _ h => h.loads) ?_ ?_
    halloc.loadInv
  · intro s act s' _ hinv hact hstep
    cases act with
    | verify =>
      cases hstep
      rw [BossSection.dvpKernelGraphBossVerify_section]
      exact hinv.configure
    | pass loads =>
      cases hstep
      rw [BossSection.processPass_section]
      split
      · exact hinv
      · next hfailed =>
        refine ⟨hinv.reconfigure_iff.mpr (hact (Bool.eq_false_iff.mpr hfailed)), ?_⟩
        exact (configureNodes_settled _ _ hinv.settled).settled
  · intro s act hinv hact
    cases act with
    | verify => exact absurd trivial hact
    | pass loads =>
      obtain ⟨hfailed, hload⟩ := Classical.not_imp.mp hact
      refine ⟨_, _, rfl, fun hmatch => hload ?_⟩
      rw [BossSection.processPass_section, hfailed, if_neg Bool.false_ne_true] at hmatch
      exact hinv.reconfigure_iff.mp hmatch

/-- A manager of the first core with one kernel. -/
def oneManager (load : BitVec 32) : GraphManager where
  enabled := true
  hasHandle := true
  kernels := some [{
    kernel := 7
    load := load
  }]
  core := coreDsp
  priority := 1

/-- A new section with one node for this kernel. -/
def oneNode : BossSection where
  pNodes := [{
    kernel := 7
    affinity := coreMin
    error := 0
    configured := false
    mgrIndex := 0
    funcIndex := 0
  }]
  coreLoad _ := 0

/-- An empty load table. -/
def emptyTable (maximum : BitVec 32) : LoadTable where
  maximumLoad _ := maximum
  currentLoad _ := 0

/-- With room for the section no commit fails. -/
theorem coreLoad_eq_iff_oneNode :
    Machine.Always (BossSection.step [oneManager 3] Subgraph.numNodes)
      (BossSection.LoadsMatch [oneManager 3]) oneNode [.verify, .pass (emptyTable 3), .verify] :=
  (coreLoad_eq_iff [oneManager 3] Subgraph.numNodes oneNode [.verify, .pass (emptyTable 3), .verify]
    ⟨fun _ => rfl, by decide⟩).mpr (Machine.check_eq_true_iff.mp (by decide))

/-- After a commit that fails the load of the node is added a second time. -/
theorem reconfigure_adds_again :
    oneNode.Allocated ∧
      ¬Machine.Always (BossSection.step [oneManager 3] Subgraph.numNodes)
        (BossSection.LoadsMatch [oneManager 3]) oneNode [.verify, .pass (emptyTable 2)] :=
  ⟨⟨fun _ => rfl, by decide⟩, fun h => absurd (h.last rfl coreDsp) (by decide)⟩

/-! ## The end of the loop -/

namespace BossSection

/-- No manager supports a node, or the section has a node and its loads fit into the table, with the loads of
some number of forced configurations. -/
def Processable (managers : List GraphManager) (loads : LoadTable) (graphSection : BossSection) :
    Prop :=
  (∃ node ∈ graphSection.pNodes, supported managers node = false) ∨
    graphSection.pNodes ≠ [] ∧
      ∃ j : Nat, ∀ c, loads.Fits
        (fun c => graphSection.coreLoad c + j • forcedLoad managers c graphSection.pNodes) c

end BossSection

section Loop

variable {managers : List GraphManager} {manager : ManagerCall} {s : ProcessState}

/-- The section fits into the load table. -/
def ProcessState.Committable (s : ProcessState) : Prop :=
  s.graphSection.pNodes ≠ [] ∧ ∀ c, s.loads.Fits s.graphSection.coreLoad c

/-- A pass executes the section when it can be committed. -/
theorem processPass_of_committable (hfaults : s.faults = 0) (h : s.Committable) :
    (processPass managers manager s).1 = true := by
  have hcommit : (dvpCommitLoad s.loads s.graphSection.toLoad).1 = true := by
    rw [dvpCommitLoad_eq, if_pos ⟨fun h0 => h.1 (List.length_eq_zero_iff.mp h0), h.2⟩]
  rw [processPass, if_pos hfaults]
  dsimp only
  rw [if_pos hcommit]

/-- A pass that cannot commit the section configures it again and leaves the load table as it was. -/
theorem processPass_of_not_committable (hfaults : s.faults = 0) (h : ¬s.Committable) :
    processPass managers manager s =
      (false, { s with
        faults := (dvpConfigureNodes managers s.graphSection true).1
        graphSection := (dvpConfigureNodes managers s.graphSection true).2 }) := by
  have hcommit : dvpCommitLoad s.loads s.graphSection.toLoad = (false, s.loads) := by
    rw [dvpCommitLoad_eq, if_neg fun hfits =>
      h ⟨fun h0 => hfits.1 (List.length_eq_zero_iff.mpr h0), hfits.2⟩]
  rw [processPass, if_pos hfaults, hcommit]
  rfl

/-- A forced configuration adds the same loads as the one before it. -/
theorem fits_reconfigured (j : Nat) (c : Core) :
    (dvpConfigureNodes managers s.graphSection true).2.coreLoad c +
        j • forcedLoad managers c (dvpConfigureNodes managers s.graphSection true).2.pNodes =
      s.graphSection.coreLoad c + (j + 1) • forcedLoad managers c s.graphSection.pNodes := by
  have hspec := configureNodes_spec managers true s.graphSection.pNodes s.graphSection.coreLoad
    (Or.inl rfl)
  have hcore := hspec.coreLoad_eq c
  rw [if_pos rfl, add_zero] at hcore
  change (configureNodes managers true s.graphSection.pNodes s.graphSection.coreLoad).2.2 c +
    j • forcedLoad managers c
      (configureNodes managers true s.graphSection.pNodes s.graphSection.coreLoad).2.1 = _
  rw [hcore, forcedLoad_congr hspec.choices_eq, succ_nsmul', add_assoc]

theorem nodes_reconfigured_ne_nil :
    (dvpConfigureNodes managers s.graphSection true).2.pNodes ≠ [] ↔ s.graphSection.pNodes ≠ [] := by
  have hspec := configureNodes_spec managers true s.graphSection.pNodes s.graphSection.coreLoad
    (Or.inl rfl)
  have hlength := congrArg List.length hspec.choices_eq
  rw [List.length_map, List.length_map] at hlength
  rw [← List.length_pos_iff, ← List.length_pos_iff, ← hlength]
  rfl

/-- A forced configuration has a fault exactly when a node has no manager. -/
theorem reconfigure_faults_iff :
    (dvpConfigureNodes managers s.graphSection true).1 = 0 ↔
      ∀ node ∈ s.graphSection.pNodes, supported managers node = true :=
  (configureNodes_spec managers true s.graphSection.pNodes s.graphSection.coreLoad
    (Or.inl rfl)).faults_iff

theorem nodes_reconfigured_supported :
    (∀ node ∈ (dvpConfigureNodes managers s.graphSection true).2.pNodes,
        supported managers node = true) ↔
      ∀ node ∈ s.graphSection.pNodes, supported managers node = true :=
  supported_congr (configureNodes_spec managers true s.graphSection.pNodes s.graphSection.coreLoad
    (Or.inl rfl)).choices_eq

/-- The loop goes on to the end from where a pass leaves it. -/
theorem processLoop_succ_of_not_committable {fuel : Nat} (hfaults : s.faults = 0)
    (h : ¬s.Committable) :
    processLoop managers manager (fuel + 1) s =
      if (dvpConfigureNodes managers s.graphSection true).1 = 0 then
        processLoop managers manager fuel { s with
          faults := (dvpConfigureNodes managers s.graphSection true).1
          graphSection := (dvpConfigureNodes managers s.graphSection true).2 }
      else
        some { s with
          faults := (dvpConfigureNodes managers s.graphSection true).1
          graphSection := (dvpConfigureNodes managers s.graphSection true).2 } := by
  rw [processLoop, processPass_of_not_committable hfaults h]
  by_cases hnew : (dvpConfigureNodes managers s.graphSection true).1 = 0
  · rw [if_pos hnew]
    dsimp only
    rw [hnew]
    rfl
  · rw [if_neg hnew]
    dsimp only
    rw [if_pos (by rw [Bool.false_or]; exact bne_iff_ne.mpr hnew)]

theorem processLoop_of_committable {fuel : Nat} (hfaults : s.faults = 0) (h : s.Committable) :
    processLoop managers manager (fuel + 1) s = some (processPass managers manager s).2 := by
  rw [processLoop]
  dsimp only
  rw [processPass_of_committable hfaults h, Bool.true_or, if_pos rfl]

/-- A loop that ends found a node without a manager, or loads that fit. -/
theorem processable_of_processLoop {fuel : Nat} {final : ProcessState} (hfaults : s.faults = 0)
    (h : processLoop managers manager fuel s = some final) :
    BossSection.Processable managers s.loads s.graphSection := by
  induction fuel generalizing s with
  | zero => cases h
  | succ fuel ih =>
    by_cases hcommit : s.Committable
    · refine Or.inr ⟨hcommit.1, 0, fun c => ?_⟩
      simp only [zero_nsmul, add_zero]
      exact hcommit.2 c
    · rw [processLoop_succ_of_not_committable hfaults hcommit] at h
      by_cases hnew : (dvpConfigureNodes managers s.graphSection true).1 = 0
      · rw [if_pos hnew] at h
        rcases ih hnew h with ⟨node, hnode, hunsupported⟩ | ⟨hnodes, j, hfits⟩
        · have hall := nodes_reconfigured_supported.mpr (reconfigure_faults_iff.mp hnew) node hnode
          rw [hall] at hunsupported
          cases hunsupported
        · refine Or.inr ⟨nodes_reconfigured_ne_nil.mp hnodes, j + 1, fun c => ?_⟩
          simp only [← fits_reconfigured]
          exact hfits c
      · rw [reconfigure_faults_iff, not_forall] at hnew
        obtain ⟨node, hnode⟩ := hnew
        obtain ⟨hmem, hunsupported⟩ := Classical.not_imp.mp hnode
        exact Or.inl ⟨node, hmem, Bool.eq_false_iff.mpr hunsupported⟩

/-- The loop ends at the latest when the loads have come round to fit. -/
theorem processLoop_of_fits {j : Nat} (hfaults : s.faults = 0) (hnodes : s.graphSection.pNodes ≠ [])
    (hfits : ∀ c, s.loads.Fits
      (fun c => s.graphSection.coreLoad c + j • forcedLoad managers c s.graphSection.pNodes) c) :
    ∃ fuel final, processLoop managers manager fuel s = some final := by
  induction j generalizing s with
  | zero =>
    simp only [zero_nsmul, add_zero] at hfits
    exact ⟨1, _, processLoop_of_committable hfaults ⟨hnodes, hfits⟩⟩
  | succ j ih =>
    by_cases hcommit : s.Committable
    · exact ⟨1, _, processLoop_of_committable hfaults hcommit⟩
    · by_cases hnew : (dvpConfigureNodes managers s.graphSection true).1 = 0
      · simp only [← fits_reconfigured] at hfits
        obtain ⟨fuel, final, hloop⟩ := ih (s := { s with
          faults := (dvpConfigureNodes managers s.graphSection true).1
          graphSection := (dvpConfigureNodes managers s.graphSection true).2 }) hnew
          (nodes_reconfigured_ne_nil.mpr hnodes) hfits
        refine ⟨fuel + 1, final, ?_⟩
        rw [processLoop_succ_of_not_committable hfaults hcommit, if_pos hnew]
        exact hloop
      · exact ⟨1, _, (processLoop_succ_of_not_committable hfaults hcommit).trans (if_neg hnew)⟩

/-- The loop ends when a node has no manager: it executes the section or gives up at once. -/
theorem processLoop_of_not_supported {node : NodeHeader} (hfaults : s.faults = 0)
    (hnode : node ∈ s.graphSection.pNodes) (hunsupported : supported managers node = false) :
    ∃ final, processLoop managers manager 1 s = some final := by
  by_cases hcommit : s.Committable
  · exact ⟨_, processLoop_of_committable hfaults hcommit⟩
  · have hnew : (dvpConfigureNodes managers s.graphSection true).1 ≠ 0 := fun h0 => by
      rw [reconfigure_faults_iff.mp h0 node hnode] at hunsupported
      cases hunsupported
    exact ⟨_, (processLoop_succ_of_not_committable hfaults hcommit).trans (if_neg hnew)⟩

end Loop

/-- For every section, every set of managers and every load table that no other process changes, the
call returns exactly when the section has a node that no manager supports, or has a node and its loads
fit after some number of forced configurations. -/
theorem process_returns_iff (managers : List GraphManager) (manager : ManagerCall)
    (graphSection : BossSection) (loads : LoadTable) :
    (∃ fuel final, dvpKernelGraphBossProcess managers manager fuel graphSection loads = some final) ↔
      graphSection.Processable managers loads := by
  constructor
  · rintro ⟨fuel, final, hloop⟩
    exact processable_of_processLoop rfl hloop
  · rintro (⟨node, hnode, hunsupported⟩ | ⟨hnodes, j, hfits⟩)
    · exact ⟨1, processLoop_of_not_supported rfl hnode hunsupported⟩
    · exact processLoop_of_fits rfl hnodes hfits

/-- The call never returns for a section without nodes, and for a section that adds no load to a core that is
above its maximum. -/
theorem process_never_returns :
    (∀ fuel, dvpKernelGraphBossProcess [oneManager 3] Subgraph.numNodes fuel
      { oneNode with pNodes := [] } (emptyTable 100) = none) ∧
    ∀ fuel, dvpKernelGraphBossProcess [oneManager 0] Subgraph.numNodes fuel oneNode
      { maximumLoad := fun _ => 2, currentLoad := fun _ => 5 } = none := by
  constructor
  · intro fuel
    rw [dvpKernelGraphBossProcess]
    induction fuel with
    | zero => rfl
    | succ fuel ih => exact ih
  · intro fuel
    by_contra hsome
    obtain ⟨final, hfinal⟩ := Option.ne_none_iff_exists'.mp hsome
    rcases processable_of_processLoop rfl hfinal with hunsupported | ⟨-, j, hfits⟩
    · exact absurd hunsupported (by decide)
    · have hzero : forcedLoad [oneManager 0] coreDsp oneNode.pNodes = 0 := by decide
      have hfit := hfits coreDsp
      rw [LoadTable.Fits, hzero, smul_zero] at hfit
      exact absurd hfit (by decide)

end DVP.Kgraph
