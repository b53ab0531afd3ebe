import DVP.Kgraph.Load
import Mathlib.Data.BitVec
import Mathlib.Tactic.LinearCombination

/-!
# The configuration of the nodes of a section

`DVP_ConfigureNodes` of `source/dvp/dvp_kgraph/dvp_kgb.c` with the functions it calls: each node gets
a manager by its affinity or by the priorities of the managers, and the load of its kernel is added to
the load of the section on the core of that manager.

* `configureNode_eq`: which manager a node gets depends on the kernel and the affinity of the node
  alone, and does not change when the node is configured again.
* `configureNodes_spec`, `configureNodes_settled`: what a configuration answers, and what it does to the
  nodes and to the loads of the section.
-/

namespace DVP.Kgraph

/-- `DVP_CORE_MIN`. -/
def coreMin : Int := -1

/-- `DVP_ERROR_NOT_IMPLEMENTED`. -/
def errorNotImplemented : Int := -7

/-- `DVP_PRIORITY_MAX`. -/
def priorityMax : BitVec 32 := 0xFFFFFFFF

/-- `DVP_CoreFunction_t`, without its name and its image shift. -/
structure CoreFunction where
  kernel : Int
  load : BitVec 32

/-- `DVP_GraphManager_t`, with what the boss reads of it. The enumeration of cores is that of `getCore`. -/
structure GraphManager where
  enabled : Bool
  /-- `handle != NULL`. -/
  hasHandle : Bool
  /-- The array of supported kernels, or `NULL`. -/
  kernels : Option (List CoreFunction)
  core : Core
  priority : BitVec 32

/-- `DVP_KernelNodeHeader_t`, without the performance. -/
structure NodeHeader where
  kernel : Int
  affinity : Int
  error : Int
  configured : Bool
  mgrIndex : Nat
  funcIndex : Nat

/-- `DVP_KernelGraphSection_t`, with what the boss reads and writes. -/
structure BossSection where
  pNodes : List NodeHeader
  coreLoad : Core → BitVec 32

/-! ## The choice of a manager -/

/-- `DVP_GetNextManagerIndex`. The answer 0 is `none`. -/
def dvpGetNextManagerIndex (managers : List GraphManager) (priority : BitVec 32) :
    Option (Nat × BitVec 32) :=
  let next := managers.zipIdx.foldl (fun next (manager, i) =>
    if manager.enabled && manager.priority ≤ next.2 && priority < manager.priority then
      (i, manager.priority)
    else next) (0, priorityMax)
  if next.2 = priorityMax then none else some next

/-- `DVP_GetManagerKernelIndex`. -/
def dvpGetManagerKernelIndex (manager : GraphManager) (kernel : Int) : Option Nat :=
  if !manager.enabled || !manager.hasHandle then none
  else manager.kernels.bind fun kernels => kernels.findIdx? fun function => function.kernel = kernel

/-- The loop of `DVP_ConfigureNodes` over the managers of the core that the user wants. -/
def findAffinity (managers : List GraphManager) (kernel affinity : Int) : Option (Nat × Nat) :=
  managers.zipIdx.findSome? fun (manager, m) =>
    if (manager.core : Int) = affinity then
      (dvpGetManagerKernelIndex manager kernel).map fun f => (m, f)
    else none

/-- The loop of `DVP_ConfigureNodes` by priority, while there are managers to try. After the manager of
the lowest priority it starts again. -/
def tryManagers (managers : List GraphManager) (kernel : Int) : Nat → BitVec 32 → Option (Nat × Nat)
  | 0, _ => none
  | tries + 1, mgrPriority =>
    match dvpGetNextManagerIndex managers mgrPriority with
    | none => tryManagers managers kernel tries 0
    | some (m, mgrPriority) =>
      match managers[m]?.bind fun manager => dvpGetManagerKernelIndex manager kernel with
      | none => tryManagers managers kernel tries mgrPriority
      | some f => some (m, f)

/-! ## The loads -/

/-- `kernels[f].load`. -/
def GraphManager.load (manager : GraphManager) (f : Nat) : BitVec 32 :=
  match manager.kernels.bind fun kernels => kernels[f]? with
  | none => 0
  | some function => function.load

/-- `section->coreLoad[managers[m].calls.getCore()] += managers[m].kernels[f].load`. -/
def addKernelLoad (managers : List GraphManager) (m f : Nat) (coreLoad : Core → BitVec 32) :
    Core → BitVec 32 :=
  match managers[m]? with
  | none => coreLoad
  | some manager =>
    Function.update coreLoad manager.core (coreLoad manager.core + manager.load f)

/-! ## The nodes -/

/-- `node` with the manager `m` and its function `f`. -/
def NodeHeader.configure (node : NodeHeader) (m f : Nat) : NodeHeader :=
  { node with
    mgrIndex := m
    funcIndex := f
    configured := true }

/-- The body of the loop of `DVP_ConfigureNodes` for one node. It answers whether a manager was found. -/
def configureNode (managers : List GraphManager) (node : NodeHeader) (coreLoad : Core → BitVec 32) :
    Bool × NodeHeader × (Core → BitVec 32) :=
  let wanted :=
    if node.affinity ≠ coreMin then findAffinity managers node.kernel node.affinity else none
  match wanted with
  | some (m, f) =>
    -- The load goes to the core of the affinity, which is the core of this manager.
    (true, node.configure m f, addKernelLoad managers m f coreLoad)
  | none =>
    -- The affinity is ignored from now on.
    let node := { node with affinity := coreMin }
    match tryManagers managers node.kernel (max 1 managers.length) 0 with
    | some (m, f) => (true, node.configure m f, addKernelLoad managers m f coreLoad)
    | none => (false, { node with error := errorNotImplemented }, coreLoad)

/-- The loop of `DVP_ConfigureNodes` over the nodes, which ends at the first fault. -/
def configureNodes (managers : List GraphManager) (force : Bool) :
    List NodeHeader → (Core → BitVec 32) → Nat × List NodeHeader × (Core → BitVec 32)
  | [], coreLoad => (0, [], coreLoad)
  | node :: nodes, coreLoad =>
    if node.configured = false ∨ force = true then
      match configureNode managers node coreLoad with
      | (true, node, coreLoad) =>
        let (faults, nodes, coreLoad) := configureNodes managers force nodes coreLoad
        (faults, node :: nodes, coreLoad)
      | (false, node, coreLoad) => (1, node :: nodes, coreLoad)
    else
      let (faults, nodes, coreLoad) := configureNodes managers force nodes coreLoad
      (faults, node :: nodes, coreLoad)

/-- `DVP_ConfigureNodes`, with its faults. -/
def dvpConfigureNodes (managers : List GraphManager) (graphSection : BossSection) (force : Bool) :
    Nat × BossSection :=
  let (faults, nodes, coreLoad) :=
    configureNodes managers force graphSection.pNodes graphSection.coreLoad
  (faults, { pNodes := nodes, coreLoad := coreLoad })

/-! ## What a node gets -/

/-- The manager of the node by its affinity. -/
def wanted (managers : List GraphManager) (node : NodeHeader) : Option (Nat × Nat) :=
  if node.affinity ≠ coreMin then findAffinity managers node.kernel node.affinity else none

/-- The manager and the function that a configuration gives the node. -/
def choice (managers : List GraphManager) (node : NodeHeader) : Option (Nat × Nat) :=
  match wanted managers node with
  | some found => some found
  | none => tryManagers managers node.kernel (max 1 managers.length) 0

/-- The search finds a manager for the node. Of managers with one priority it tries only the last one, so a manager that
has the kernel does not count when such a tie hides it. -/
def supported (managers : List GraphManager) (node : NodeHeader) : Bool :=
  (choice managers node).isSome

/-- The node without an affinity that no manager can meet. -/
def NodeHeader.settle (managers : List GraphManager) (node : NodeHeader) : NodeHeader :=
  match wanted managers node with
  | some _ => node
  | none => { node with affinity := coreMin }

/-- The load that the manager gives for a kernel. -/
def GraphManager.kernelLoad (manager : GraphManager) (kernel : Int) : BitVec 32 :=
  match manager.kernels.bind fun kernels => kernels.find? fun function => function.kernel = kernel with
  | none => 0
  | some function => function.load

/-- The load of a kernel on the manager `m`, as seen on the core `c`. -/
def managerLoad (managers : List GraphManager) (m : Nat) (kernel : Int) (c : Core) : BitVec 32 :=
  match managers[m]? with
  | none => 0
  | some manager => if manager.core = c then manager.kernelLoad kernel else 0

/-- The load of a node on the core `c`: that of its kernel, when it is configured to a manager of this
core. -/
def NodeHeader.loadOn (managers : List GraphManager) (c : Core) (node : NodeHeader) : BitVec 32 :=
  if node.configured then managerLoad managers node.mgrIndex node.kernel c else 0

/-- The load on the core `c` that a configuration of the node adds. -/
def choiceLoad (managers : List GraphManager) (c : Core) (node : NodeHeader) : BitVec 32 :=
  match choice managers node with
  | none => 0
  | some (m, _) => managerLoad managers m node.kernel c

section Choice

variable {managers : List GraphManager} {node : NodeHeader} {coreLoad : Core → BitVec 32}
  {kernel affinity : Int} {m f : Nat}

/-- The manager that is found is of the wanted core and has the kernel. -/
theorem findAffinity_eq_some (h : findAffinity managers kernel affinity = some (m, f)) :
    ∃ manager, managers[m]? = some manager ∧ (manager.core : Int) = affinity ∧
      dvpGetManagerKernelIndex manager kernel = some f := by
  obtain ⟨⟨manager, i⟩, hmem, hsome⟩ := List.exists_of_findSome?_eq_some h
  dsimp only at hsome
  split at hsome
  · next hcore =>
    obtain ⟨g, hg, heq⟩ := Option.map_eq_some_iff.mp hsome
    obtain ⟨rfl, rfl⟩ := Prod.mk.inj heq
    exact ⟨manager, List.mem_zipIdx_iff_getElem?.mp hmem, hcore, hg⟩
  · cases hsome

/-- The manager that is found has the kernel. -/
theorem tryManagers_eq_some {tries : Nat} {priority : BitVec 32}
    (h : tryManagers managers kernel tries priority = some (m, f)) :
    ∃ manager, managers[m]? = some manager ∧ dvpGetManagerKernelIndex manager kernel = some f := by
  induction tries generalizing priority with
  | zero => cases h
  | succ tries ih =>
    rw [tryManagers] at h
    split at h
    · exact ih h
    · split at h
      · exact ih h
      · next hbind =>
        cases h
        exact Option.bind_eq_some_iff.mp hbind

/-- The manager that a node gets supports the kernel of the node. -/
theorem choice_eq_some (h : choice managers node = some (m, f)) :
    ∃ manager, managers[m]? = some manager ∧
      dvpGetManagerKernelIndex manager node.kernel = some f := by
  rw [choice] at h
  split at h
  · next found hwanted =>
    cases h
    rw [wanted] at hwanted
    split at hwanted
    · obtain ⟨manager, hget, -, hindex⟩ := findAffinity_eq_some hwanted
      exact ⟨manager, hget, hindex⟩
    · cases hwanted
  · exact tryManagers_eq_some h

/-- The function that is found has the load of the kernel. -/
theorem load_of_kernelIndex {manager : GraphManager}
    (h : dvpGetManagerKernelIndex manager kernel = some f) :
    manager.load f = manager.kernelLoad kernel := by
  rw [dvpGetManagerKernelIndex] at h
  split at h
  · cases h
  · obtain ⟨kernels, hkernels, hfind⟩ := Option.bind_eq_some_iff.mp h
    have hfirst : kernels.find? (fun function => function.kernel = kernel) = kernels[f]? := by
      obtain ⟨hlt, hf, hbefore⟩ := List.findIdx?_eq_some_iff_getElem.mp hfind
      rw [List.getElem?_eq_getElem hlt]
      exact List.find?_eq_some_iff_getElem.mpr ⟨hf, f, hlt, rfl, fun j hj => by simpa using hbefore j hj⟩
    rw [GraphManager.load, GraphManager.kernelLoad, hkernels, Option.bind_some, Option.bind_some, hfirst]

/-- A configured node adds the load of its kernel on the core of its manager. -/
theorem addKernelLoad_eq (h : choice managers node = some (m, f)) :
    addKernelLoad managers m f coreLoad = fun c => coreLoad c + choiceLoad managers c node := by
  obtain ⟨manager, hmanager, hindex⟩ := choice_eq_some h
  funext c
  rw [addKernelLoad, choiceLoad, h, hmanager]
  dsimp only
  rw [managerLoad, hmanager]
  dsimp only
  by_cases hcore : manager.core = c
  · subst hcore
    rw [Function.update_self, if_pos rfl, load_of_kernelIndex hindex]
  · rw [Function.update_of_ne (Ne.symm hcore), if_neg hcore, add_zero]

/-- A node keeps the manager that it wants. -/
theorem wanted_settle : wanted managers (node.settle managers) = wanted managers node := by
  rw [NodeHeader.settle]
  split
  · rfl
  · next hnone =>
    rw [hnone, wanted]
    exact if_neg fun h => h rfl

/-- A node that is configured again gets the same manager. -/
theorem choice_settle : choice managers (node.settle managers) = choice managers node := by
  have hkernel : (node.settle managers).kernel = node.kernel := by
    rw [NodeHeader.settle]
    split <;> rfl
  rw [choice, choice, wanted_settle, hkernel]

/-- The node gets the manager of its affinity, or else the first one by priority that supports it. -/
theorem configureNode_eq :
    configureNode managers node coreLoad =
      match choice managers node with
      | some (m, f) =>
        (true, (node.settle managers).configure m f, fun c => coreLoad c + choiceLoad managers c node)
      | none =>
        (false, { node.settle managers with error := errorNotImplemented }, coreLoad) := by
  rw [configureNode]
  change (match wanted managers node with | some (m, f) => _ | none => _) = _
  cases hwanted : wanted managers node with
  | some found =>
    obtain ⟨m, f⟩ := found
    have hchoice : choice managers node = some (m, f) := by rw [choice, hwanted]
    have hsettle : node.settle managers = node := by rw [NodeHeader.settle, hwanted]
    rw [hchoice, hsettle]
    dsimp only
    rw [addKernelLoad_eq hchoice]
  | none =>
    have hsettle : node.settle managers = { node with affinity := coreMin } := by
      rw [NodeHeader.settle, hwanted]
    have hchoice : choice managers node =
        tryManagers managers node.kernel (max 1 managers.length) 0 := by rw [choice, hwanted]
    cases htry : tryManagers managers node.kernel (max 1 managers.length) 0 with
    | some found =>
      obtain ⟨m, f⟩ := found
      rw [htry] at hchoice
      rw [hchoice, hsettle]
      dsimp only
      rw [htry]
      dsimp only
      rw [addKernelLoad_eq hchoice]
    | none =>
      rw [hchoice, htry, hsettle]
      dsimp only
      rw [htry]

end Choice

/-! ## A configuration -/

/-- A configured node has the manager that a configuration gives it. -/
def Settled (managers : List GraphManager) (node : NodeHeader) : Prop :=
  node.configured = true → choice managers node = some (node.mgrIndex, node.funcIndex)

/-- The nodes that a configuration reaches: those before the first one that no manager supports. -/
def reached (managers : List GraphManager) (nodes : List NodeHeader) : List NodeHeader :=
  nodes.takeWhile (supported managers)

/-- The load of the nodes on the core `c`. -/
def nodesLoad (managers : List GraphManager) (c : Core) (nodes : List NodeHeader) : BitVec 32 :=
  (nodes.map fun node => node.loadOn managers c).sum

/-- The load on the core `c` of the nodes that a forced configuration reaches, each one with the manager that
it gets. -/
def forcedLoad (managers : List GraphManager) (c : Core) (nodes : List NodeHeader) : BitVec 32 :=
  ((reached managers nodes).map (choiceLoad managers c)).sum

/-- What a configuration answers, and what it does to the loads. -/
structure ConfigureSpec (managers : List GraphManager) (force : Bool) (nodes : List NodeHeader)
    (coreLoad : Core → BitVec 32) (faults : Nat) (nodes' : List NodeHeader)
    (coreLoad' : Core → BitVec 32) : Prop where
  faults_iff : faults = 0 ↔ ∀ node ∈ nodes, supported managers node = true
  choices_eq : nodes'.map (fun node => (node.kernel, choice managers node)) =
    nodes.map fun node => (node.kernel, choice managers node)
  /-- Without force the nodes that have a load already do not get it again. -/
  coreLoad_eq : ∀ c, coreLoad' c + (if force then 0 else nodesLoad managers c (reached managers nodes)) =
    coreLoad c + forcedLoad managers c nodes

/-- What a configuration does to nodes that are settled. -/
structure SettledSpec (managers : List GraphManager) (nodes nodes' : List NodeHeader) : Prop where
  settled : ∀ node ∈ nodes', Settled managers node
  nodesLoad_eq : ∀ c, nodesLoad managers c nodes' + nodesLoad managers c (reached managers nodes) =
    nodesLoad managers c nodes + forcedLoad managers c nodes

section Nodes

variable {managers : List GraphManager} {force : Bool} {node : NodeHeader} {nodes : List NodeHeader}
  {coreLoad : Core → BitVec 32} {m f : Nat} {c : Core}

/-- A node keeps its kernel. -/
theorem kernel_settle : (node.settle managers).kernel = node.kernel := by
  rw [NodeHeader.settle]
  split <;> rfl

/-- A configured node has the load of the manager that it would get again. -/
theorem loadOn_of_settled (hsettled : Settled managers node) (hnode : node.configured = true) :
    node.loadOn managers c = choiceLoad managers c node := by
  rw [NodeHeader.loadOn, if_pos hnode, choiceLoad, hsettled hnode]

/-- A node that is not configured has no load. -/
theorem loadOn_of_not_configured (hnode : node.configured = false) :
    node.loadOn managers c = 0 :=
  if_neg (ne_of_eq_of_ne hnode Bool.false_ne_true)

/-- A node that is configured is reached. -/
theorem supported_of_settled (hsettled : Settled managers node) (hnode : node.configured = true) :
    supported managers node = true := by
  rw [supported, hsettled hnode]
  rfl

/-- The walk goes on after a node for which a manager is found. -/
theorem reached_cons_of_supported (h : supported managers node = true) :
    reached managers (node :: nodes) = node :: reached managers nodes :=
  List.takeWhile_cons_of_pos h

/-- The walk stops at a node for which none is found. -/
theorem reached_cons_of_not_supported (h : supported managers node = false) :
    reached managers (node :: nodes) = [] :=
  List.takeWhile_cons_of_neg (ne_of_eq_of_ne h Bool.false_ne_true)

/-- The load of the nodes is a sum. -/
theorem nodesLoad_cons : nodesLoad managers c (node :: nodes) =
    node.loadOn managers c + nodesLoad managers c nodes := List.sum_cons

/-- The load that a forced configuration adds is a sum. -/
theorem forcedLoad_cons_of_supported (h : supported managers node = true) :
    forcedLoad managers c (node :: nodes) =
      choiceLoad managers c node + forcedLoad managers c nodes := by
  rw [forcedLoad, reached_cons_of_supported h]
  exact List.sum_cons

/-- It is zero when no manager is found for the first node. -/
theorem forcedLoad_cons_of_not_supported (h : supported managers node = false) :
    forcedLoad managers c (node :: nodes) = 0 := by
  rw [forcedLoad, reached_cons_of_not_supported h]
  rfl

/-- A node that gets a manager is settled and has the load of its choice. -/
theorem settled_configure (h : choice managers node = some (m, f)) :
    Settled managers ((node.settle managers).configure m f) := by
  intro _
  exact choice_settle.trans h

/-- A node that was just configured has the load of its manager. -/
theorem loadOn_configure (h : choice managers node = some (m, f)) :
    ((node.settle managers).configure m f).loadOn managers c = choiceLoad managers c node := by
  rw [loadOn_of_settled (settled_configure h) rfl]
  change choiceLoad managers c (node.settle managers) = _
  rw [choiceLoad, choiceLoad, choice_settle, kernel_settle]

variable {faults : Nat} {nodes' : List NodeHeader} {coreLoad' : Core → BitVec 32}

/-- What a forced configuration adds depends on the kernels and the choices alone. -/
theorem forcedLoad_congr (h : nodes'.map (fun node => (node.kernel, choice managers node)) =
    nodes.map fun node => (node.kernel, choice managers node)) :
    forcedLoad managers c nodes' = forcedLoad managers c nodes := by
  let key (node : NodeHeader) : Int × Option (Nat × Nat) := (node.kernel, choice managers node)
  have hkeys : ∀ nodes : List NodeHeader, forcedLoad managers c nodes =
      (((nodes.map key).takeWhile fun entry => entry.2.isSome).map fun entry =>
        match entry.2 with
        | none => 0
        | some (m, _) => managerLoad managers m entry.1 c).sum := fun nodes => by
    rw [List.takeWhile_map, List.map_map]
    rfl
  rw [hkeys, hkeys, h]

/-- Whether managers are found depends on the kernels and on the choices. -/
theorem supported_congr (h : nodes'.map (fun node => (node.kernel, choice managers node)) =
    nodes.map fun node => (node.kernel, choice managers node)) :
    (∀ node ∈ nodes', supported managers node = true) ↔
      ∀ node ∈ nodes, supported managers node = true := by
  have hkeys : ∀ nodes : List NodeHeader, (∀ node ∈ nodes, supported managers node = true) ↔
      ∀ entry ∈ nodes.map fun node => (node.kernel, choice managers node), entry.2.isSome = true :=
    fun nodes => by
      rw [List.forall_mem_map]
      rfl
  rw [hkeys, hkeys, h]

/-- The first node is configured, for the first time or by force. -/
theorem ConfigureSpec.cons_found (hchoice : choice managers node = some (m, f))
    (hreach : node.configured = false ∨ force = true)
    (h : ConfigureSpec managers force nodes (fun c => coreLoad c + choiceLoad managers c node)
      faults nodes' coreLoad') :
    ConfigureSpec managers force (node :: nodes) coreLoad faults
      ((node.settle managers).configure m f :: nodes') coreLoad' := by
  have hsupported : supported managers node = true := by
    rw [supported, hchoice]
    rfl
  refine ⟨?_, ?_, fun c => ?_⟩
  · rw [h.faults_iff, List.forall_mem_cons]
    exact (and_iff_right hsupported).symm
  · rw [List.map_cons, List.map_cons, h.choices_eq]
    exact congrArg (· :: _) (Prod.ext kernel_settle choice_settle)
  · have hrest := h.coreLoad_eq c
    rw [reached_cons_of_supported hsupported, forcedLoad_cons_of_supported hsupported,
      nodesLoad_cons]
    cases force with
    | false =>
      -- Without force the node had no load before.
      rw [loadOn_of_not_configured (hreach.resolve_right Bool.false_ne_true)]
      simp only [Bool.false_eq_true, if_false] at hrest ⊢
      linear_combination hrest
    | true =>
      simp only [if_true] at hrest ⊢
      linear_combination hrest

/-- A node for which a manager is found is settled with it. -/
theorem SettledSpec.cons_found (hchoice : choice managers node = some (m, f))
    (h : SettledSpec managers nodes nodes') :
    SettledSpec managers (node :: nodes) ((node.settle managers).configure m f :: nodes') := by
  have hsupported : supported managers node = true := by
    rw [supported, hchoice]
    rfl
  refine ⟨List.forall_mem_cons.mpr ⟨settled_configure hchoice, h.settled⟩, fun c => ?_⟩
  rw [reached_cons_of_supported hsupported, forcedLoad_cons_of_supported hsupported,
    nodesLoad_cons, nodesLoad_cons, nodesLoad_cons, loadOn_configure hchoice]
  linear_combination h.nodesLoad_eq c

/-- No manager supports the first node. -/
theorem ConfigureSpec.cons_fault (hchoice : choice managers node = none) :
    ConfigureSpec managers force (node :: nodes) coreLoad 1
      ({ node.settle managers with error := errorNotImplemented } :: nodes) coreLoad := by
  have hsupported : supported managers node = false := by
    rw [supported, hchoice]
    rfl
  refine ⟨iff_of_false Nat.one_ne_zero fun h => ?_, ?_, fun c => ?_⟩
  · rw [h node List.mem_cons_self] at hsupported
    cases hsupported
  · rw [List.map_cons, List.map_cons]
    exact congrArg (· :: _) (Prod.ext kernel_settle choice_settle)
  · rw [reached_cons_of_not_supported hsupported, forcedLoad_cons_of_not_supported hsupported]
    cases force <;> rfl

/-- A node without a manager ends the walk. -/
theorem SettledSpec.cons_fault (hchoice : choice managers node = none)
    (hsettled : ∀ other ∈ node :: nodes, Settled managers other) :
    SettledSpec managers (node :: nodes)
      ({ node.settle managers with error := errorNotImplemented } :: nodes) := by
  have hsupported : supported managers node = false := by
    rw [supported, hchoice]
    rfl
  -- A node that is settled and that no manager supports is not configured.
  have hnode : node.configured = false := by
    by_contra hnot
    rw [supported_of_settled (hsettled node List.mem_cons_self) (Bool.not_eq_false _ ▸ hnot)]
      at hsupported
    cases hsupported
  have hnew : { node.settle managers with error := errorNotImplemented }.configured = false := by
    rw [NodeHeader.settle]
    split <;> exact hnode
  obtain ⟨-, hnodes⟩ := List.forall_mem_cons.mp hsettled
  refine ⟨List.forall_mem_cons.mpr ⟨fun h => ?_, hnodes⟩, fun c => ?_⟩
  · cases hnew.symm.trans h
  · rw [nodesLoad_cons, nodesLoad_cons, loadOn_of_not_configured hnode, loadOn_of_not_configured hnew,
      reached_cons_of_not_supported hsupported, forcedLoad_cons_of_not_supported hsupported]
    rfl

/-- The first node is configured already. -/
theorem ConfigureSpec.cons_skip (hsettled : Settled managers node) (hnode : node.configured = true)
    (h : ConfigureSpec managers false nodes coreLoad faults nodes' coreLoad') :
    ConfigureSpec managers false (node :: nodes) coreLoad faults (node :: nodes') coreLoad' := by
  have hsupported := supported_of_settled hsettled hnode
  refine ⟨?_, ?_, fun c => ?_⟩
  · rw [h.faults_iff, List.forall_mem_cons]
    exact (and_iff_right hsupported).symm
  · rw [List.map_cons, List.map_cons, h.choices_eq]
  · have hrest := h.coreLoad_eq c
    rw [reached_cons_of_supported hsupported, forcedLoad_cons_of_supported hsupported,
      nodesLoad_cons, ← loadOn_of_settled hsettled hnode]
    simp only [Bool.false_eq_true, if_false] at hrest ⊢
    linear_combination hrest

/-- A node that is configured is left as it is. -/
theorem SettledSpec.cons_skip (hsettled : Settled managers node) (hnode : node.configured = true)
    (h : SettledSpec managers nodes nodes') : SettledSpec managers (node :: nodes) (node :: nodes') := by
  have hsupported := supported_of_settled hsettled hnode
  refine ⟨List.forall_mem_cons.mpr ⟨hsettled, h.settled⟩, fun c => ?_⟩
  rw [reached_cons_of_supported hsupported, forcedLoad_cons_of_supported hsupported,
    nodesLoad_cons, nodesLoad_cons, nodesLoad_cons, ← loadOn_of_settled hsettled hnode]
  linear_combination h.nodesLoad_eq c

/-- What a configuration answers, and what it does to the loads. -/
theorem configureNodes_spec (managers : List GraphManager) (force : Bool) (nodes : List NodeHeader)
    (coreLoad : Core → BitVec 32)
    (hsettled : force = true ∨ ∀ node ∈ nodes, Settled managers node) :
    ConfigureSpec managers force nodes coreLoad (configureNodes managers force nodes coreLoad).1
      (configureNodes managers force nodes coreLoad).2.1
      (configureNodes managers force nodes coreLoad).2.2 := by
  induction nodes generalizing coreLoad with
  | nil =>
    refine ⟨iff_of_true rfl fun _ h => absurd h List.not_mem_nil, rfl, fun c => ?_⟩
    cases force <;> rfl
  | cons node nodes ih =>
    have hnodes := hsettled.imp_right fun h => (List.forall_mem_cons.mp h).2
    rw [configureNodes]
    by_cases hreach : node.configured = false ∨ force = true
    · rw [if_pos hreach, configureNode_eq]
      cases hchoice : choice managers node with
      | some found => exact (ih _ hnodes).cons_found hchoice hreach
      | none => exact ConfigureSpec.cons_fault hchoice
    · rw [if_neg hreach]
      obtain ⟨hconfigured, hforce⟩ := not_or.mp hreach
      rw [Bool.not_eq_false] at hconfigured
      have hnode := hsettled.resolve_left hforce node List.mem_cons_self
      rw [Bool.not_eq_true] at hforce
      subst hforce
      exact (ih _ hnodes).cons_skip hnode hconfigured

/-- What a configuration does to the nodes. -/
theorem configureNodes_settled (force : Bool) (coreLoad : Core → BitVec 32)
    (hsettled : ∀ node ∈ nodes, Settled managers node) :
    SettledSpec managers nodes (configureNodes managers force nodes coreLoad).2.1 := by
  induction nodes generalizing coreLoad with
  | nil => exact ⟨fun _ h => absurd h List.not_mem_nil, fun _ => rfl⟩
  | cons node nodes ih =>
    obtain ⟨hnode, hnodes⟩ := List.forall_mem_cons.mp hsettled
    rw [configureNodes]
    by_cases hreach : node.configured = false ∨ force = true
    · rw [if_pos hreach, configureNode_eq]
      cases hchoice : choice managers node with
      | some found => exact (ih _ hnodes).cons_found hchoice
      | none => exact SettledSpec.cons_fault hchoice hsettled
    · rw [if_neg hreach]
      have hconfigured := (not_or.mp hreach).1
      rw [Bool.not_eq_false] at hconfigured
      exact (ih _ hnodes).cons_skip hnode hconfigured

end Nodes

end DVP.Kgraph
