import DVP.Kgraph.Configure
import DVP.Lib.Sweep
import Mathlib.Data.Set.Finite.Lemmas
import Mathlib.Order.Interval.Finset.Nat

/-!
# The selection of a manager

Which manager `DVP_ConfigureNodes` gives to a node. The search by priority is a `Sweep` over the last
enabled manager of each priority.

* `managers_ascend`: `DVP_GetNextManagerIndex` goes through these managers.
* `choice_spec`: a node gets a manager of its affinity, or else one of the smallest priority that
  supports its kernel.
* `dvpConfigureNodes_selects`: what a forced configuration does to the nodes of a section.
-/

namespace DVP.Kgraph

/-- The order of the priorities. -/
local instance instLinearOrderPriority : LinearOrder (BitVec 32) where
  le_refl := BitVec.le_refl
  le_trans _ _ _ := BitVec.le_trans
  lt_iff_le_not_ge a b := by
    rw [BitVec.lt_def, BitVec.le_def, BitVec.le_def]
    omega
  le_antisymm _ _ := BitVec.le_antisymm
  le_total a b := by
    rw [BitVec.le_def, BitVec.le_def]
    exact Nat.le_total _ _
  toDecidableLE := inferInstance
  toDecidableLT := inferInstance

/-- The manager is enabled, has a handle and a kernel table, and the table has the kernel. -/
def GraphManager.Supports (manager : GraphManager) (kernel : Int) : Prop :=
  manager.enabled = true ∧ manager.hasHandle = true ∧
    ∃ kernels, manager.kernels = some kernels ∧ ∃ function ∈ kernels, function.kernel = kernel

/-- An enabled manager supports the kernel. -/
def SomeSupports (managers : List GraphManager) (kernel : Int) : Prop :=
  ∃ manager ∈ managers, manager.Supports kernel

/-- An enabled manager of the core that the user wants supports the kernel of the node. -/
def Wanted (managers : List GraphManager) (node : NodeHeader) : Prop :=
  ∃ manager ∈ managers, (manager.core : Int) = node.affinity ∧ manager.Supports node.kernel

/-- The node is configured to a manager that supports its kernel: one of its affinity where there is
one, or else one of the smallest priority. -/
structure Selected (managers : List GraphManager) (node node' : NodeHeader) : Prop where
  configured : node'.configured = true
  kernel_eq : node'.kernel = node.kernel
  selected : ∃ manager, managers[node'.mgrIndex]? = some manager ∧
    manager.Supports node.kernel ∧
    dvpGetManagerKernelIndex manager node.kernel = some node'.funcIndex ∧
    (Wanted managers node → (manager.core : Int) = node.affinity) ∧
    (¬Wanted managers node → ∀ other ∈ managers, other.Supports node.kernel →
      manager.priority ≤ other.priority)

/-- A configuration goes through the nodes in order, and ends with a fault at the first one whose
kernel no enabled manager supports. -/
inductive Configuration (managers : List GraphManager) :
    List NodeHeader → Nat → List NodeHeader → Prop
  | done : Configuration managers [] 0 []
  | select {node node' nodes nodes' faults} :
    SomeSupports managers node.kernel → Selected managers node node' →
      Configuration managers nodes faults nodes' →
        Configuration managers (node :: nodes) faults (node' :: nodes')
  | fault {node nodes} :
    ¬SomeSupports managers node.kernel →
      Configuration managers (node :: nodes) 1
        ({ node with
          affinity := coreMin
          error := errorNotImplemented } :: nodes)

/-- The manager is the last enabled one of its priority. -/
structure LastOfPriority (managers : List GraphManager) (m : Nat) (priority : BitVec 32) : Prop where
  get : ∃ manager, managers[m]? = some manager ∧ manager.enabled = true ∧
    manager.priority = priority
  last : ∀ (j : Nat) other, managers[j]? = some other → other.enabled = true →
    other.priority = priority → j ≤ m

/-- The last enabled manager of the smallest priority of those that support the kernel does so
too. -/
def TiesSupport (managers : List GraphManager) (kernel : Int) : Prop :=
  ∀ manager ∈ managers, manager.Supports kernel →
    (∀ other ∈ managers, other.Supports kernel → manager.priority ≤ other.priority) →
      ∀ m last, managers[m]? = some last → LastOfPriority managers m manager.priority →
        last.Supports kernel

/-- No tie hides the manager of a node that a configuration comes to. -/
def NoneHidden (managers : List GraphManager) (nodes : List NodeHeader) : Prop :=
  ∀ before node, before ++ [node] <+: nodes →
    (∀ earlier ∈ before, SomeSupports managers earlier.kernel) →
      Wanted managers node ∨ TiesSupport managers node.kernel

/-- The manager `m` with its function for the kernel. -/
def managerFor (managers : List GraphManager) (kernel : Int) (m : Nat) : Option (Nat × Nat) :=
  (managers[m]?.bind fun manager => dvpGetManagerKernelIndex manager kernel).map fun f => (m, f)

section Search

variable {managers : List GraphManager} {manager : GraphManager} {kernel : Int} {m f : Nat}
  {priority : BitVec 32}

theorem dvpGetManagerKernelIndex_isSome :
    (dvpGetManagerKernelIndex manager kernel).isSome ↔ manager.Supports kernel := by
  unfold dvpGetManagerKernelIndex GraphManager.Supports
  by_cases husable : manager.enabled = true ∧ manager.hasHandle = true
  · rw [if_neg (by simp [husable.1, husable.2]), and_iff_right husable.1,
      and_iff_right husable.2]
    match manager.kernels with
    | none => simp
    | some kernels => simp [List.findIdx?_isSome]
  · rw [if_pos (by simpa [imp_iff_not_or] using husable)]
    exact iff_of_false Bool.false_ne_true fun h => husable ⟨h.1, h.2.1⟩

/-- `DVP_GetNextManagerIndex` is a scan of the enabled managers after the priority. -/
theorem dvpGetNextManagerIndex_eq :
    dvpGetNextManagerIndex managers priority =
      let next := managers.scanLastMin
        (fun manager => manager.enabled && priority < manager.priority) GraphManager.priority
        (0, priorityMax)
      if next.2 = priorityMax then none else some next := by
  -- both scans make the same three tests of a manager
  have htests : ∀ (next : Nat × BitVec 32) (manager : GraphManager),
      (manager.enabled && manager.priority ≤ next.2 && priority < manager.priority) = true ↔
        (manager.enabled && priority < manager.priority) = true ∧ manager.priority ≤ next.2 := by
    intro next manager
    simp only [Bool.and_eq_true, decide_eq_true_eq]
    exact and_right_comm
  unfold dvpGetNextManagerIndex List.scanLastMin
  simp only [htests]

/-- `DVP_GetNextManagerIndex` goes through the last enabled managers of the priorities. -/
theorem managers_ascend (hmax : ∀ manager ∈ managers, manager.priority < priorityMax) :
    Sweep.Ascends (dvpGetNextManagerIndex managers) (LastOfPriority managers) := by
  -- an answer is never what the scan starts with, whose key is `priorityMax`
  have hnext : ∀ {priority : BitVec 32} {m : Nat} {k : BitVec 32},
      dvpGetNextManagerIndex managers priority = some (m, k) →
        List.IsLastMin (fun manager => manager.enabled && priority < manager.priority)
          GraphManager.priority managers m k := by
    intro priority m k h
    rw [dvpGetNextManagerIndex_eq] at h
    dsimp only at h
    split_ifs at h with hnone
    rcases List.scanLastMin_spec (fun manager : GraphManager =>
      manager.enabled && priority < manager.priority) GraphManager.priority managers
      (0, priorityMax) with ⟨heq, -⟩ | ⟨-, hmin⟩
    · rw [heq] at hnone
      exact absurd rfl hnone
    · rw [Option.some.inj h] at hmin
      exact hmin
  have hpasses : ∀ {priority : BitVec 32} {manager : GraphManager},
      (manager.enabled && decide (priority < manager.priority)) = true ↔
        manager.enabled = true ∧ priority < manager.priority := by
    intro priority manager
    rw [Bool.and_eq_true, decide_eq_true_eq]
  refine ⟨fun {i j k} hi hj => ?_, fun {b m k} h => ?_, fun {b m k} h => ?_,
    fun {b m k} h {j l} hj hb => ?_, fun {b} h {j l} hj hb => ?_⟩
  · obtain ⟨manager, hget, henabled, hpriority⟩ := hi.get
    obtain ⟨other, hget', henabled', hpriority'⟩ := hj.get
    exact Nat.le_antisymm (hj.last i manager hget henabled hpriority)
      (hi.last j other hget' henabled' hpriority')
  · obtain ⟨manager, hget, hpass, hkey⟩ := (hnext h).get
    -- the scan passes over managers up to `b` only, and none of those has this priority
    refine ⟨⟨manager, hget, (hpasses.mp hpass).1, hkey⟩, fun j other hj henabled hsame => ?_⟩
    refine (hnext h).last j other hj (hpasses.mpr ⟨henabled, ?_⟩) hsame
    rw [hsame, ← hkey]
    exact (hpasses.mp hpass).2
  · obtain ⟨manager, -, hpass, hkey⟩ := (hnext h).get
    exact hkey ▸ (hpasses.mp hpass).2
  · obtain ⟨other, hget, henabled, rfl⟩ := hj.get
    exact (hnext h).least j other hget (hpasses.mpr ⟨henabled, hb⟩)
  · -- every priority is below the one that the scan starts with
    obtain ⟨other, hget, henabled, rfl⟩ := hj.get
    have hmem := List.mem_of_getElem? hget
    rw [dvpGetNextManagerIndex_eq] at h
    dsimp only at h
    split_ifs at h with hmax'
    rcases List.scanLastMin_spec (fun manager : GraphManager =>
      manager.enabled && b < manager.priority) GraphManager.priority managers
      (0, priorityMax) with ⟨-, hnone⟩ | ⟨-, hmin⟩
    · exact absurd (hnone other hmem (hpasses.mpr ⟨henabled, hb⟩)) (hmax other hmem).le.not_gt
    · obtain ⟨found, hfound, -, hkey⟩ := hmin.get
      have hlt := hmax found (List.mem_of_getElem? hfound)
      rw [hkey, hmax'] at hlt
      exact lt_irrefl _ hlt

/-- The loop of `DVP_ConfigureNodes` by priority is a sweep. -/
theorem tryManagers_eq {tries : Nat} :
    tryManagers managers kernel tries priority =
      Sweep.sweep (dvpGetNextManagerIndex managers) (managerFor managers kernel) 0 tries
        priority := by
  induction tries generalizing priority with
  | zero => rfl
  | succ tries ih =>
    unfold tryManagers Sweep.sweep managerFor
    cases dvpGetNextManagerIndex managers priority with
    | none => exact ih
    | some next =>
      obtain ⟨m, mgrPriority⟩ := next
      dsimp only
      cases managers[m]?.bind fun manager => dvpGetManagerKernelIndex manager kernel with
      | none => exact ih
      | some f => rfl

/-- Where the enabled managers of a priority are. -/
def ofPriority (managers : List GraphManager) (priority : BitVec 32) : Set Nat :=
  {j | ∃ other, managers[j]? = some other ∧ other.enabled = true ∧ other.priority = priority}

theorem finite_ofPriority : (ofPriority managers priority).Finite := by
  refine (Set.finite_Iio managers.length).subset fun j => ?_
  rintro ⟨other, hget, -⟩
  exact (List.getElem?_eq_some_iff.mp hget).choose

/-- An enabled manager has a last one of its priority. -/
theorem exists_lastOfPriority (hmem : manager ∈ managers) (henabled : manager.enabled = true) :
    ∃ m, LastOfPriority managers m manager.priority := by
  obtain ⟨i, hi⟩ := List.mem_iff_getElem?.mp hmem
  obtain ⟨m, hm, hlast⟩ := Set.exists_max_image (ofPriority managers manager.priority) id
    finite_ofPriority ⟨i, manager, hi, henabled, rfl⟩
  exact ⟨m, hm, fun j other hget hother hpriority => hlast j ⟨other, hget, hother, hpriority⟩⟩

/-- A manager that supports the kernel has a first one by priority. -/
theorem exists_least (h : SomeSupports managers kernel) :
    ∃ manager ∈ managers, manager.Supports kernel ∧
      ∀ other ∈ managers, other.Supports kernel → manager.priority ≤ other.priority := by
  have hfinite : {manager | manager ∈ managers ∧ manager.Supports kernel}.Finite :=
    (List.finite_toSet managers).subset fun _ h => h.1
  obtain ⟨manager, ⟨hmem, hsupports⟩, hleast⟩ :=
    Set.exists_min_image _ GraphManager.priority hfinite h
  exact ⟨manager, hmem, hsupports, fun other hother hsupports' =>
    hleast other ⟨hother, hsupports'⟩⟩

section Priorities

variable (hpriorities : ∀ manager ∈ managers, 0 < manager.priority ∧ manager.priority < priorityMax)
include hpriorities

/-- The search by priority finds a manager exactly when there is one, and one of the smallest priority
then. -/
theorem tryManagers_spec (hties : TiesSupport managers kernel) :
    (tryManagers managers kernel (max 1 managers.length) 0 = none ↔
        ¬SomeSupports managers kernel) ∧
      ∀ m f, tryManagers managers kernel (max 1 managers.length) 0 = some (m, f) →
        ∀ manager, managers[m]? = some manager →
          ∀ other ∈ managers, other.Supports kernel → manager.priority ≤ other.priority := by
  have hascends := managers_ascend fun manager hmem => (hpriorities manager hmem).2
  have hfirst : ∀ {m : Nat} {k : BitVec 32}, LastOfPriority managers m k → 0 < k := by
    intro m k hlast
    obtain ⟨manager, hget, -, rfl⟩ := hlast.get
    exact (hpriorities manager (List.mem_of_getElem? hget)).1
  -- the last manager of the smallest priority is one that the sweep can take
  have htaken : ∀ manager ∈ managers, manager.Supports kernel →
      (∀ other ∈ managers, other.Supports kernel → manager.priority ≤ other.priority) →
        ∃ m, LastOfPriority managers m manager.priority ∧
          (managerFor managers kernel m).isSome := by
    intro manager hmem hsupports hleast
    obtain ⟨m, hlast⟩ := exists_lastOfPriority hmem hsupports.1
    obtain ⟨last, hget, -⟩ := hlast.get
    refine ⟨m, hlast, ?_⟩
    unfold managerFor
    rw [Option.isSome_map, hget, Option.bind_some, dvpGetManagerKernelIndex_isSome]
    exact hties manager hmem hsupports hleast m last hget hlast
  constructor
  · constructor
    · rintro hnone hsome
      obtain ⟨manager, hmem, hsupports, hleast⟩ := exists_least hsome
      obtain ⟨m, hlast, htake⟩ := htaken manager hmem hsupports hleast
      -- as many tries as managers are enough, since every try has a priority of its own
      have hkeys : ∀ {j : Nat} {l : BitVec 32}, LastOfPriority managers j l →
          l ∈ (managers.map GraphManager.priority).toFinset := by
        intro j l hj
        obtain ⟨other, hget, -, rfl⟩ := hj.get
        exact List.mem_toFinset.mpr (List.mem_map_of_mem (List.mem_of_getElem? hget))
      have htries : ((managers.map GraphManager.priority).toFinset.filter fun l =>
          0 < l ∧ l < manager.priority).card < max 1 managers.length := by
        have hless : ((managers.map GraphManager.priority).toFinset.filter fun l =>
            0 < l ∧ l < manager.priority).card <
              (managers.map GraphManager.priority).toFinset.card := by
          apply Finset.card_lt_card
          apply Finset.filter_ssubset.mpr
          exact ⟨manager.priority, hkeys hlast, fun h => lt_irrefl manager.priority h.2⟩
        have hall := List.toFinset_card_le (managers.map GraphManager.priority)
        rw [List.length_map] at hall
        exact (hless.trans_le hall).trans_le (le_max_right 1 _)
      have hfound : (Sweep.sweep (dvpGetNextManagerIndex managers) (managerFor managers kernel) 0
          (max 1 managers.length) 0).isSome :=
        hascends.isSome_sweep hkeys hlast (hfirst hlast) htake htries
      rw [← tryManagers_eq, hnone] at hfound
      exact absurd hfound Bool.false_ne_true
    · intro hnone
      by_contra hsome
      obtain ⟨⟨m, f⟩, hfound⟩ := Option.ne_none_iff_exists'.mp hsome
      obtain ⟨manager, hget, hindex⟩ := tryManagers_eq_some hfound
      refine hnone ⟨manager, List.mem_of_getElem? hget, ?_⟩
      rw [← dvpGetManagerKernelIndex_isSome, hindex]
      rfl
  · intro m f hfound manager hget other hother hsupports
    rw [tryManagers_eq] at hfound
    obtain ⟨i, k, hlast, htake, hleast⟩ := hascends.sweep_eq_some hfirst
      (fun hj hle => absurd (hfirst hj) hle.not_gt) hfound
    obtain ⟨f', -, heq⟩ := Option.map_eq_some_iff.mp htake
    obtain ⟨rfl, -⟩ := Prod.mk.inj heq
    obtain ⟨manager', hget', -, rfl⟩ := hlast.get
    obtain rfl : manager = manager' := Option.some.inj (hget.symm.trans hget')
    -- the sweep came to its manager no later than to one of the smallest priority
    obtain ⟨best, hmem, hbest, hsmallest⟩ := exists_least ⟨other, hother, hsupports⟩
    obtain ⟨j, hj, htake'⟩ := htaken best hmem hbest hsmallest
    exact (hleast hj htake').trans (hsmallest other hother hsupports)

variable {node : NodeHeader}

omit hpriorities in
/-- The search by affinity finds a manager exactly when there is one. -/
theorem wanted_eq_none : wanted managers node = none ↔ ¬Wanted managers node := by
  have hfind : findAffinity managers node.kernel node.affinity = none ↔
      ¬Wanted managers node := by
    unfold findAffinity Wanted
    rw [List.findSome?_eq_none_iff]
    constructor
    · rintro hnone ⟨manager, hmem, hcore, hsupports⟩
      obtain ⟨m, hget⟩ := List.mem_iff_getElem?.mp hmem
      have hthis := hnone (manager, m) (List.mem_zipIdx_iff_getElem?.mpr hget)
      dsimp only at hthis
      rw [if_pos hcore, Option.map_eq_none_iff] at hthis
      rw [← dvpGetManagerKernelIndex_isSome, hthis] at hsupports
      exact absurd hsupports Bool.false_ne_true
    · rintro hnone ⟨manager, m⟩ hmem
      dsimp only
      split_ifs with hcore
      · rw [Option.map_eq_none_iff, ← Option.not_isSome_iff_eq_none,
          dvpGetManagerKernelIndex_isSome]
        have hget := List.mem_zipIdx_iff_getElem?.mp hmem
        exact fun hsupports => hnone ⟨manager, List.mem_of_getElem? hget, hcore, hsupports⟩
      · rfl
  unfold wanted
  split_ifs with haffinity
  · exact hfind
  · -- no manager is on a core of this number
    refine iff_of_true rfl ?_
    rintro ⟨manager, -, hcore, -⟩
    rw [not_not.mp haffinity] at hcore
    have hmin : coreMin = -1 := rfl
    omega

/-- What a node gets. -/
theorem choice_spec (hties : Wanted managers node ∨ TiesSupport managers node.kernel) :
    (choice managers node = none ↔ ¬SomeSupports managers node.kernel) ∧
      ∀ m f, choice managers node = some (m, f) →
        Selected managers node ((node.settle managers).configure m f) := by
  have hkernel : (node.settle managers).kernel = node.kernel := kernel_settle
  have hindex : ∀ {manager : GraphManager} {f : Nat},
      dvpGetManagerKernelIndex manager node.kernel = some f → manager.Supports node.kernel := by
    intro manager f hindex
    rw [← dvpGetManagerKernelIndex_isSome, hindex]
    rfl
  match hwanted : wanted managers node with
  | some (i, g) =>
    have hchoice : choice managers node = some (i, g) := by
      unfold choice
      rw [hwanted]
    -- a manager of the affinity of the node
    have hhas : Wanted managers node := by
      by_contra hnot
      rw [wanted_eq_none.mpr hnot] at hwanted
      exact absurd hwanted (Option.some_ne_none _).symm
    have hfind : findAffinity managers node.kernel node.affinity = some (i, g) := by
      unfold wanted at hwanted
      split_ifs at hwanted
      exact hwanted
    obtain ⟨manager, hget, hcore, hfunction⟩ := findAffinity_eq_some hfind
    rw [hchoice]
    refine ⟨iff_of_false (Option.some_ne_none _) fun hnot => hnot ?_, fun m f heq => ?_⟩
    · obtain ⟨other, hmem, -, hsupports⟩ := hhas
      exact ⟨other, hmem, hsupports⟩
    · obtain ⟨rfl, rfl⟩ := Prod.mk.inj (Option.some.inj heq)
      exact ⟨rfl, hkernel, manager, hget, hindex hfunction, hfunction,
        fun _ => hcore, fun hnot => absurd hhas hnot⟩
  | none =>
    have hchoice : choice managers node =
        tryManagers managers node.kernel (max 1 managers.length) 0 := by
      unfold choice
      rw [hwanted]
    -- the search by priority, for which no tie may hide a manager
    have hnot := wanted_eq_none.mp hwanted
    obtain ⟨hnone, hleast⟩ := tryManagers_spec hpriorities (hties.resolve_left hnot)
    rw [hchoice]
    refine ⟨hnone, fun m f hfound => ?_⟩
    obtain ⟨manager, hget, hfunction⟩ := tryManagers_eq_some hfound
    exact ⟨rfl, hkernel, manager, hget, hindex hfunction, hfunction,
      fun hhas => absurd hhas hnot, fun _ => hleast m f hfound manager hget⟩

omit hpriorities in
theorem NoneHidden.head {nodes : List NodeHeader} (h : NoneHidden managers (node :: nodes)) :
    Wanted managers node ∨ TiesSupport managers node.kernel :=
  h [] node (List.prefix_append [node] nodes) fun _ hmem => absurd hmem List.not_mem_nil

omit hpriorities in
theorem NoneHidden.tail {nodes : List NodeHeader} (h : NoneHidden managers (node :: nodes))
    (hsupports : SomeSupports managers node.kernel) : NoneHidden managers nodes :=
  fun before other hprefix hbefore => h (node :: before) other
    ((List.prefix_cons_inj node).mpr hprefix) (List.forall_mem_cons.mpr ⟨hsupports, hbefore⟩)

/-- A forced configuration of the nodes. -/
theorem configureNodes_configuration {nodes : List NodeHeader} (coreLoad : Core → BitVec 32)
    (hties : NoneHidden managers nodes) :
    Configuration managers nodes (configureNodes managers true nodes coreLoad).1
      (configureNodes managers true nodes coreLoad).2.1 := by
  induction nodes generalizing coreLoad with
  | nil => exact .done
  | cons node nodes ih =>
    obtain ⟨hnone, hselected⟩ := choice_spec hpriorities hties.head
    unfold configureNodes
    rw [if_pos (.inr rfl), configureNode_eq]
    cases hchoice : choice managers node with
    | some found =>
      obtain ⟨m, f⟩ := found
      have hsupports : SomeSupports managers node.kernel := by
        by_contra hnot
        rw [hnone.mpr hnot] at hchoice
        exact absurd hchoice (Option.some_ne_none _).symm
      exact .select hsupports (hselected m f hchoice) (ih _ (hties.tail hsupports))
    | none =>
      -- the search by affinity comes first and found nothing, which resets the affinity
      have hsettle : node.settle managers = { node with affinity := coreMin } := by
        unfold NodeHeader.settle
        cases hwanted : wanted managers node with
        | none => rfl
        | some found =>
          unfold choice at hchoice
          rw [hwanted] at hchoice
          exact absurd hchoice (Option.some_ne_none _)
      rw [hsettle]
      exact .fault (hnone.mp hchoice)

end Priorities

end Search

/-- A configuration has a fault exactly when some node cannot be configured. -/
theorem Configuration.faults_iff {managers : List GraphManager} {nodes nodes' : List NodeHeader}
    {faults : Nat} (h : Configuration managers nodes faults nodes') :
    faults ≠ 0 ↔ ∃ node ∈ nodes, ¬SomeSupports managers node.kernel := by
  induction h with
  | done => simp
  | select hsupports _ _ ih =>
    rw [ih]
    simp only [List.mem_cons, exists_eq_or_imp]
    exact (or_iff_right fun hnot => hnot hsupports).symm
  | fault hnot => exact iff_of_true Nat.one_ne_zero ⟨_, List.mem_cons_self, hnot⟩

/-- A forced configuration selects a manager for every node up to the first one whose kernel no
enabled manager supports, where it ends, and has a fault exactly when there is one. -/
theorem dvpConfigureNodes_selects (managers : List GraphManager) (graphSection : BossSection)
    (hpriorities : ∀ manager ∈ managers,
      0 < manager.priority ∧ manager.priority < priorityMax)
    (hties : NoneHidden managers graphSection.pNodes) :
    Configuration managers graphSection.pNodes (dvpConfigureNodes managers graphSection true).1
        (dvpConfigureNodes managers graphSection true).2.pNodes ∧
      ((dvpConfigureNodes managers graphSection true).1 ≠ 0 ↔
        ∃ node ∈ graphSection.pNodes, ¬SomeSupports managers node.kernel) := by
  have hconfiguration := configureNodes_configuration hpriorities graphSection.coreLoad hties
  exact ⟨hconfiguration, hconfiguration.faults_iff⟩

/-- Managers of different priorities have no ties. -/
theorem tiesSupport_of_nodup {managers : List GraphManager} {kernel : Int}
    (h : (managers.map GraphManager.priority).Nodup) : TiesSupport managers kernel := by
  intro manager hmem hsupports _ m last hget hlast
  obtain ⟨last', hget', -, hpriority⟩ := hlast.get
  obtain rfl : last = last' := Option.some.inj (hget.symm.trans hget')
  have hsame := List.inj_on_of_nodup_map h (List.mem_of_getElem? hget) hmem hpriority
  rw [hsame]
  exact hsupports

/-- A manager with one kernel. -/
def managerOf (kernel : Int) (priority : BitVec 32) : GraphManager where
  enabled := true
  hasHandle := true
  kernels := some [{
    kernel := kernel
    load := 1
  }]
  core := coreDsp
  priority := priority

/-- A section of new nodes for these kernels. -/
def newSection (kernels : List Int) : BossSection where
  pNodes := kernels.map fun kernel => {
    kernel := kernel
    affinity := coreMin
    error := 0
    configured := false
    mgrIndex := 0
    funcIndex := 0
  }
  coreLoad _ := 0

theorem dvpConfigureNodes_selects_two :
    Configuration [managerOf 7 2, managerOf 7 1] (newSection [7, 8]).pNodes
        (dvpConfigureNodes [managerOf 7 2, managerOf 7 1] (newSection [7, 8]) true).1
        (dvpConfigureNodes [managerOf 7 2, managerOf 7 1] (newSection [7, 8]) true).2.pNodes ∧
      ((dvpConfigureNodes [managerOf 7 2, managerOf 7 1] (newSection [7, 8]) true).1 ≠ 0 ↔
        ∃ node ∈ (newSection [7, 8]).pNodes,
          ¬SomeSupports [managerOf 7 2, managerOf 7 1] node.kernel) :=
  dvpConfigureNodes_selects [managerOf 7 2, managerOf 7 1] (newSection [7, 8]) (by decide)
    fun _ _ _ _ => .inr (tiesSupport_of_nodup (by decide))

/-- A node after one that no manager supports is not configured. Of two managers of one priority only
the last one is asked, so that a node for the first one is a fault. -/
theorem dvpConfigureNodes_ends_early :
    (managerOf 7 1).Supports 7 ∧
      (dvpConfigureNodes [managerOf 7 1] (newSection [8, 7]) true).2.pNodes.map
        NodeHeader.configured = [false, false] ∧
      (dvpConfigureNodes [managerOf 7 1, managerOf 8 1] (newSection [7]) true).1 = 1 :=
  ⟨⟨rfl, rfl, _, rfl, _, List.mem_singleton_self _, rfl⟩, by decide, by decide⟩

end DVP.Kgraph
