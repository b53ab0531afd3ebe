import DVP.Kgraph.Order
import DVP.Kgraph.Teardown

/-!
# The graph lock is balanced

Without a teardown the lock stays enabled, and `m_count` counts, modulo 2³², the calls that have the
lock and the calls of `DVP_KernelGraph_Process` that returned without unlocking (`Tallied`). The only
return that does not unlock is the one in a round whose order is overfull.

* `lock_balance_iff`: a call leaves `m_count` as it was, alone or in any interleaving, exactly when
  it has no such round.
* `process_leaves_locked`: a graph with a section after four of one order leaves the lock taken.
-/

namespace DVP.Kgraph

/-! ## What a step does to the lock -/

namespace Moves

variable {gl gl' : GraphLock} {l l' : Location} {k : Nat}

/-- The count of an enabled lock follows the callers, also where it wraps. -/
theorem count_add (h : Moves gl l l' gl' k) (henabled : gl.enabled = true) (hunheld : l.unheld = false) :
    gl'.count + BitVec.ofNat 32 l.counted = gl.count + BitVec.ofNat 32 (l'.counted + k) := by
  rw [Location.counted, Location.counted]
  cases h with
  | within hholds hreturning hreturning' => rw [hholds, hreturning, hreturning', Nat.add_zero]
  | lock _ hholds hholds' hreturning hreturning' =>
    rw [hholds, hholds', hreturning, hreturning', dvpGraphLock, if_pos henabled]
    exact BitVec.add_zero _
  | enter hholds hreturning hreturning' hholds' =>
    rw [hholds, hholds', hreturning, hreturning', henabled]
    rfl
  | unlock hholds hreturning hholds' hreturning' =>
    have hheld : l.holds = true := hholds.resolve_right fun hfree =>
      absurd (hunheld.symm.trans hfree) (by rintro ⟨⟩)
    rw [hheld, hholds', hreturning, hreturning', dvpGraphUnlock, if_pos henabled]
    exact (BitVec.sub_add_cancel gl.count 1).trans (BitVec.add_zero _).symm
  | abandon hreturning hholds' hreturning' =>
    rw [hreturning, hholds', hreturning']
    cases l.holds <;> rfl

/-- The event is reset where a call is counted, and set where the count gets to zero. -/
theorem wait_cases (h : Moves gl l l' gl' k) (henabled : gl.enabled = true) :
    0 < l'.counted ∨ (gl'.wait = gl.wait ∧ l'.counted + k = l.counted) ∨
      gl'.wait = (gl'.count == 0 || gl.wait) := by
  rw [Location.counted, Location.counted]
  cases h with
  | within hholds hreturning hreturning' =>
    rw [hholds, hreturning, hreturning']
    exact .inr (.inl ⟨rfl, rfl⟩)
  | lock _ _ _ _ hreturning' =>
    rw [hreturning']
    exact .inl (Nat.lt_add_right _ Nat.one_pos)
  | enter hholds hreturning hreturning' hholds' =>
    rw [hholds, hholds', hreturning, hreturning', henabled]
    exact .inr (.inl ⟨rfl, rfl⟩)
  | unlock =>
    rw [dvpGraphUnlock, if_pos henabled]
    exact .inr (.inr rfl)
  | abandon hreturning hholds' hreturning' =>
    rw [hreturning, hholds', hreturning']
    exact .inr (.inl ⟨rfl, by cases l.holds <;> rfl⟩)

end Moves

/-- No caller goes on in `DVP_KernelGraph_Process` without the lock, which is enabled. -/
structure Enabled (s : GraphSystem) : Prop where
  enabled : s.lock.enabled = true
  unheld : ∀ c, (s.callers c).unheld = false

/-- The numbers that `m_count` is made of, and when the event is set for sure. -/
structure Tallied (s : GraphSystem) : Prop extends Enabled s where
  idle : ∀ c, s.numCallers ≤ c → s.callers c = .idle
  count : s.lock.count =
    BitVec.ofNat 32 (Threads.total s.numCallers s.callers Location.counted + s.abandoned)
  wait : Threads.total s.numCallers s.callers Location.counted + s.abandoned = 0 →
    s.lock.wait = true

section Step

variable {s s' : GraphSystem} {act : GraphAct} {c : Nat} {l : Location}

theorem Enabled.callerStep (h : Enabled s) (hstep : CallerStep s s' c l) : Enabled s' := by
  obtain ⟨hcallers, -, -, k, -, hmoves⟩ := hstep
  have henabled := hmoves.enabled.trans h.enabled
  refine ⟨henabled, fun v => ?_⟩
  rw [hcallers]
  by_cases hvc : v = c
  · subst hvc
    rw [Function.update_self, ← Bool.not_eq_true]
    intro hunheld
    rcases hmoves.unheld hunheld with hbefore | hoff
    · exact absurd ((h.unheld v).symm.trans hbefore) nofun
    · exact absurd (h.enabled.symm.trans hoff) nofun
  · rw [Function.update_of_ne hvc]
    exact h.unheld v

theorem Enabled.step (h : Enabled s) (hact : act ≠ .deinit) : Enabled (graphStep s act) := by
  rcases graphStep_spec s act hact with heq | ⟨c, -, l, hstep, -⟩
  · rwa [heq]
  · exact h.callerStep hstep

theorem Tallied.initial (graphs : Nat → KernelGraph) (verified : Nat → Bool) (numCallers : Nat) :
    Tallied (.initial graphs verified numCallers) where
  enabled := rfl
  unheld _ := rfl
  idle _ _ := rfl
  count := by
    have hzero : Threads.total numCallers (fun _ => Location.idle) Location.counted = 0 :=
      Threads.total_eq_zero_of_forall fun _ => rfl
    exact (congrArg (BitVec.ofNat 32) hzero).symm
  wait _ := rfl

/-- Every step but those of the teardown keeps the numbers. -/
theorem Tallied.step (h : Tallied s) (hact : act ≠ .deinit) : Tallied (graphStep s act) := by
  have hon := h.toEnabled.step hact
  rcases graphStep_spec s act hact with heq | ⟨c, hc, l, ⟨hcallers, hnum, -, k, habandoned, hmoves⟩, -⟩
  · rwa [heq]
  have htotal := Threads.total_update s.callers Location.counted hc l
  refine ⟨hon, fun v hv => ?_, ?_, fun hzero => ?_⟩
  · rw [hnum] at hv
    rw [hcallers, Function.update_of_ne (by omega)]
    exact h.idle v hv
  · have hcount := hmoves.count_add h.enabled (h.unheld c)
    rw [h.count, ← BitVec.ofNat_add] at hcount
    rw [hcallers, hnum, habandoned]
    refine (BitVec.add_left_inj (BitVec.ofNat 32 (s.callers c).counted)).mp ?_
    rw [hcount, ← BitVec.ofNat_add]
    exact congrArg _ (by omega)
  · rw [hcallers, hnum, habandoned] at hzero
    rcases hmoves.wait_cases h.enabled with hpos | ⟨hwait, hcounted⟩ | hwait
    · have hle : l.counted ≤ Threads.total s.numCallers (Function.update s.callers c l)
          Location.counted := by
        have := Threads.le_total (Function.update s.callers c l) Location.counted hc
        rwa [Function.update_self] at this
      omega
    · rw [hwait]
      exact h.wait (by omega)
    · -- The count is zero after the unlock.
      have hcount := hmoves.count_add h.enabled (h.unheld c)
      rw [h.count, ← BitVec.ofNat_add] at hcount
      have hnone : (graphStep s act).lock.count = 0 := by
        refine (BitVec.add_left_inj (BitVec.ofNat 32 (s.callers c).counted)).mp ?_
        rw [hcount]
        exact (congrArg _ (by omega)).trans (BitVec.zero_add _).symm
      rw [hwait, hnone]
      rfl

/-! ## The round that returns with the lock -/

/-- A round of the loop over the orders that has the lock is not in an order that is overfull: no
section of the graph follows in the array after `MAX_SECTIONS` that run in the order. -/
def RoundNotOverfull (s : GraphSystem) : GraphAct → Prop
  | .caller c _ =>
    match s.callers c with
    | .processing g true order => ¬(s.graphs g).Overfull order
    | _ => True
  | _ => True

/-- `selectSections` ends the call in the rounds whose order is overfull. -/
theorem selectSections_eq_none_iff {graph : KernelGraph} {order : BitVec 32} :
    selectSections order graph.sections [] = none ↔ graph.Overfull order := by
  have hlength : (selectSections order graph.sections []).map List.length =
      (selectIndices order 0 graph.sections []).map List.length := selectSections_map_length 0 rfl
  rw [← KernelGraph.selectIndices_eq_none, ← Option.map_eq_none_iff (f := List.length), hlength,
    Option.map_eq_none_iff]

/-- No lock is abandoned by a step that meets the condition. -/
theorem abandoned_of_roundNotOverfull (hon : Enabled s) (h : RoundNotOverfull s act)
    (hact : act ≠ .deinit) : (graphStep s act).abandoned = s.abandoned := by
  have hcall : ∀ c g site, (s.call c g site).abandoned = s.abandoned := fun c g site => by
    rw [GraphSystem.call]
    split <;> rfl
  cases act with
  | verify c g =>
    rw [graphStep]
    split_ifs
    · exact hcall c g _
    · rfl
  | process c g =>
    rw [graphStep]
    split_ifs
    · exact hcall c g _
    · rfl
  | deinit => exact absurd rfl hact
  | caller c boss =>
    have hunheld := hon.unheld c
    rw [RoundNotOverfull] at h
    rw [graphStep]
    split_ifs
    · rw [GraphSystem.stepCaller]
      cases hl : s.callers c with
      | locked site g => cases site <;> rfl
      | verifying byProcess g i numNodes numNodesVerified =>
        dsimp only
        rw [GraphSystem.verifySection]
        split <;> rfl
      -- only a round of the loop over the orders can return without the unlock
      | processing g held order =>
        rw [hl] at h hunheld
        obtain rfl : held = true := by
          rwa [Location.unheld, Bool.not_eq_false'] at hunheld
        dsimp only
        rw [GraphSystem.processOrder]
        split
        · next hnone => exact absurd (selectSections_eq_none_iff.mp hnone) h
        · rfl
        · rfl
      | _ => rfl
    · rfl

/-- A round whose order is overfull abandons its lock. -/
theorem step_of_overfull {g : Nat} {order : BitVec 32} (boss : BitVec 32) (hc : c < s.numCallers)
    (hl : s.callers c = .processing g true order) (h : (s.graphs g).Overfull order) :
    graphStep s (.caller c boss) = { s.goto c .idle with abandoned := s.abandoned + 1 } := by
  rw [graphStep, if_pos hc, GraphSystem.stepCaller, hl]
  dsimp only
  rw [GraphSystem.processOrder, selectSections_eq_none_iff.mpr h]
  rfl

/-- Such a round hands no section to the boss or the pool. -/
theorem usesFreed_of_overfull {g : Nat} {held : Bool} {order : BitVec 32} (boss : BitVec 32)
    (hl : s.callers c = .processing g held order) (h : (s.graphs g).Overfull order) :
    s.usesFreed (.caller c boss) = false := by
  rw [GraphSystem.usesFreed, hl, Location.reachesDvp, selectSections_eq_none_iff.mpr h]
  exact Bool.and_false _

/-- A step that does not meet the condition is such a round. -/
theorem exists_of_not_roundNotOverfull (h : ¬RoundNotOverfull s act) :
    ∃ c boss g order, act = .caller c boss ∧ s.callers c = .processing g true order ∧
      (s.graphs g).Overfull order := by
  cases act with
  | caller c boss =>
    rw [RoundNotOverfull] at h
    split at h
    · next g order hl => exact ⟨c, boss, g, order, rfl, hl, not_not.mp h⟩
    · exact absurd trivial h
  | _ => exact absurd trivial h

end Step

/-! ## Balance -/

/-- `m_count` counts the calls that are between a `dvp_graph_lock` and its unlock, so that a call
that has returned leaves nothing in it, and the event is set when all callers have returned. -/
structure LockBalanced (s : GraphSystem) : Prop where
  count : s.lock.count = BitVec.ofNat 32 (Threads.total s.numCallers s.callers Location.counted)
  returned : (∀ c, s.callers c = .idle) → s.lock.count = 0 ∧ s.lock.wait = true

/-- The caller that makes the step. -/
def GraphAct.thread : GraphAct → Option Nat
  | .verify c _ | .process c _ | .caller c _ => some c
  | .deinit => none

section Balance

variable {s : GraphSystem} {act : GraphAct} {acts : List GraphAct} {c : Nat}

/-- Nothing is abandoned in a balanced state. -/
theorem Tallied.lockBalanced (h : Tallied s) (hnone : s.abandoned = 0) : LockBalanced s where
  count := by rw [h.count, hnone, Nat.add_zero]
  returned hidle := by
    have hzero : Threads.total s.numCallers s.callers Location.counted + s.abandoned = 0 := by
      rw [hnone, Threads.total_eq_zero_of_forall fun c => by rw [hidle c]; rfl]
    exact ⟨by rw [h.count, hzero]; rfl, h.wait hzero⟩

theorem add_one_ne_self (x : BitVec 32) : x + 1 ≠ x := by
  intro h
  have hzero := (BitVec.add_right_inj x).mp (h.trans (BitVec.add_zero x).symm)
  exact absurd hzero (by decide)

/-- A lock that was abandoned stays counted. -/
theorem Tallied.not_lockBalanced (h : Tallied s) (hone : s.abandoned = 1) : ¬LockBalanced s := by
  intro hbalanced
  have hcount := h.count.symm.trans hbalanced.count
  rw [hone, BitVec.ofNat_add] at hcount
  exact add_one_ne_self _ hcount

/-- Over the runs without a teardown, in which all callers are interleaved. -/
theorem lockBalanced_iff (graphs : Nat → KernelGraph) (verified : Nat → Bool) (numCallers : Nat)
    (hacts : ∀ act ∈ acts, act ≠ .deinit) :
    Machine.Always graphMachine LockBalanced (.initial graphs verified numCallers) acts ↔
      Machine.Meets graphMachine RoundNotOverfull (.initial graphs verified numCallers) acts := by
  refine Machine.always_iff_meets_of (I := fun s => Tallied s ∧ s.abandoned = 0)
    (fun s h => h.1.lockBalanced h.2) ?_ ?_ ⟨.initial graphs verified numCallers, rfl⟩
    (Machine.meets_of_forall fun s act hact => hacts act hact)
  · rintro s act s' r ⟨htallied, hnone⟩ hact hround hstep
    obtain rfl := eq_graphStep_of_ok hstep
    exact ⟨htallied.step hact,
      (abandoned_of_roundNotOverfull htallied.toEnabled hround hact).trans hnone⟩
  -- the first round that is overfull makes the count differ, since nothing was abandoned before
  · rintro s act ⟨htallied, hnone⟩ hact hround
    obtain ⟨c, boss, g, order, rfl, hl, hoverfull⟩ := exists_of_not_roundNotOverfull hround
    refine ⟨_, (), graphMachine_eq_ok (usesFreed_of_overfull boss hl hoverfull),
      (htallied.step hact).not_lockBalanced ?_⟩
    have hc : c < s.numCallers := by
      by_contra hge
      rw [htallied.idle c (Nat.not_lt.mp hge)] at hl
      cases hl
    rw [step_of_overfull _ hc hl hoverfull]
    exact congrArg (· + 1) hnone

/-- A step of the caller `c` is one that `CallerStep` describes. -/
theorem callerStep_of_thread (h : act.thread = some c) :
    graphStep s act = s ∨ c < s.numCallers ∧ ∃ l, CallerStep s (graphStep s act) c l := by
  cases act with
  | verify c' g =>
    obtain rfl := Option.some.inj h
    rw [graphStep]
    split_ifs with hc
    · rcases call_spec s c' g (.verify false) with heq | ⟨l, hstep, -⟩
      · exact .inl heq
      · exact .inr ⟨hc, l, hstep⟩
    · exact .inl rfl
  | process c' g =>
    obtain rfl := Option.some.inj h
    rw [graphStep]
    split_ifs with hc
    · rcases call_spec s c' g .process with heq | ⟨l, hstep, -⟩
      · exact .inl heq
      · exact .inr ⟨hc, l, hstep⟩
    · exact .inl rfl
  | caller c' boss =>
    obtain rfl := Option.some.inj h
    rw [graphStep]
    split_ifs with hc
    · exact .inr ⟨hc, stepCaller_spec s c' boss⟩
    · exact .inl rfl
  | deinit => cases h

/-- The steps of one caller add to `m_count` what they abandon, and what is counted of the caller. -/
structure OwnCount (s₀ : GraphSystem) (c : Nat) (s : GraphSystem) : Prop extends Enabled s where
  isCaller : c < s.numCallers
  abandoned : s₀.abandoned ≤ s.abandoned
  count : s.lock.count =
    s₀.lock.count + BitVec.ofNat 32 ((s.callers c).counted + (s.abandoned - s₀.abandoned))

theorem OwnCount.step {s₀ : GraphSystem} (h : OwnCount s₀ c s) (hact : act.thread = some c) :
    OwnCount s₀ c (graphStep s act) := by
  rcases callerStep_of_thread (s := s) hact with heq | ⟨-, l, hstep⟩
  · rwa [heq]
  refine ⟨h.toEnabled.callerStep hstep, ?_, ?_, ?_⟩
  · rw [hstep.numCallers]
    exact h.isCaller
  · obtain ⟨-, -, -, k, habandoned, -⟩ := hstep
    have := h.abandoned
    omega
  · obtain ⟨hcallers, -, -, k, habandoned, hmoves⟩ := hstep
    have hcount := hmoves.count_add h.enabled (h.unheld c)
    have hle := h.abandoned
    rw [h.count, BitVec.add_assoc, ← BitVec.ofNat_add] at hcount
    rw [hcallers, Function.update_self, habandoned]
    -- what was counted of the caller before goes to both sides
    refine (BitVec.add_left_inj (BitVec.ofNat 32 (s.callers c).counted)).mp ?_
    rw [hcount, BitVec.add_assoc, ← BitVec.ofNat_add]
    exact congrArg (fun n => s₀.lock.count + BitVec.ofNat 32 n) (by omega)

/-- Over the runs of one caller, from any state in which the caller is idle. -/
theorem count_of_idle_iff (henabled : Enabled s) (hc : c < s.numCallers) (hidle : s.callers c = .idle)
    (hacts : ∀ act ∈ acts, act.thread = some c) :
    Machine.Always graphMachine (fun s' => s'.callers c = .idle → s'.lock.count = s.lock.count)
        s acts ↔
      Machine.Meets graphMachine RoundNotOverfull s acts := by
  have hne : ∀ act : GraphAct, act.thread = some c → act ≠ .deinit := by
    rintro act hact rfl
    cases hact
  refine Machine.always_iff_meets_of
    (I := fun s' => OwnCount s c s' ∧ s'.abandoned = s.abandoned) ?_ ?_ ?_ ?_
    (Machine.meets_of_forall (C := fun _ act => act.thread = some c) fun s act hact => hacts act hact)
  · rintro s' ⟨hown, hnone⟩ hdone
    rw [hown.count, hnone, hdone, Nat.sub_self]
    exact BitVec.add_zero _
  · rintro s' act s'' r ⟨hown, hnone⟩ hact hround hstep
    obtain rfl := eq_graphStep_of_ok hstep
    exact ⟨hown.step hact,
      (abandoned_of_roundNotOverfull hown.toEnabled hround (hne act hact)).trans hnone⟩
  · rintro s' act ⟨hown, hnone⟩ hact hround
    have hown' := hown.step hact
    obtain ⟨c', boss, g, order, rfl, hl, hoverfull⟩ := exists_of_not_roundNotOverfull hround
    refine ⟨_, (), graphMachine_eq_ok (usesFreed_of_overfull boss hl hoverfull), fun hdone => ?_⟩
    obtain rfl := Option.some.inj hact
    have hstep := step_of_overfull boss hown.isCaller hl hoverfull
    -- the caller is idle again after the round, with one more lock abandoned
    have hone : (graphStep s' (.caller c' boss)).abandoned = s.abandoned + 1 := by
      rw [hstep]
      exact congrArg (· + 1) hnone
    have hback : (graphStep s' (.caller c' boss)).callers c' = .idle := by
      rw [hstep]
      exact Function.update_self ..
    have hcount := hown'.count
    rw [hdone hback, hback, hone, Nat.add_sub_cancel_left] at hcount
    exact add_one_ne_self _ hcount.symm
  · refine ⟨⟨henabled, hc, Nat.le_refl _, ?_⟩, rfl⟩
    rw [hidle, Nat.sub_self]
    exact (BitVec.add_zero _).symm

end Balance

/-- Without a teardown a call leaves `m_count` as it found it, alone from any state or interleaved with
other callers, and the count is 0 and the event set when all have returned, exactly when no round of
its loop over the orders is in an overfull order. A state of the first kind is any with an enabled lock
and a caller that is idle. -/
theorem lock_balance_iff (acts : List GraphAct) :
    (∀ (s : GraphSystem) (c : Nat), Enabled s → c < s.numCallers → s.callers c = .idle →
      (∀ act ∈ acts, act.thread = some c) →
      (Machine.Always graphMachine (fun s' => s'.callers c = .idle → s'.lock.count = s.lock.count)
          s acts ↔
        Machine.Meets graphMachine RoundNotOverfull s acts)) ∧
    ∀ (graphs : Nat → KernelGraph) (verified : Nat → Bool) (numCallers : Nat),
      (∀ act ∈ acts, act ≠ .deinit) →
      (Machine.Always graphMachine LockBalanced (.initial graphs verified numCallers) acts ↔
        Machine.Meets graphMachine RoundNotOverfull (.initial graphs verified numCallers) acts) :=
  ⟨fun _ _ henabled hc hidle hacts => count_of_idle_iff henabled hc hidle hacts,
    fun graphs verified numCallers hacts => lockBalanced_iff graphs verified numCallers hacts⟩

/-- A graph of five sections of the same order. -/
def fiveSections : KernelGraph := ⟨List.replicate 5 ⟨1, false, 0⟩⟩

/-- One call of `DVP_KernelGraph_Process`, up to its last `dvp_graph_unlock`. -/
def processOnce : List GraphAct := .process 0 0 :: List.replicate 6 (.caller 0 0)

theorem lock_balance_iff_oneSection :
    (Machine.Always graphMachine (fun s' => s'.callers 0 = .idle → s'.lock.count = 0)
        (.initial (fun _ => oneSection) (fun _ => true) 1) processOnce ↔
      Machine.Meets graphMachine RoundNotOverfull (.initial (fun _ => oneSection) (fun _ => true) 1)
        processOnce) ∧
    (Machine.Always graphMachine LockBalanced (.initial (fun _ => oneSection) (fun _ => true) 1)
        processOnce ↔
      Machine.Meets graphMachine RoundNotOverfull (.initial (fun _ => oneSection) (fun _ => true) 1)
        processOnce) :=
  ⟨(lock_balance_iff processOnce).1 _ 0 ⟨rfl, fun _ => rfl⟩ Nat.one_pos rfl (by decide),
    (lock_balance_iff processOnce).2 _ _ 1 (by decide)⟩

/-- The call returns in its first round, and the lock stays counted. -/
theorem process_leaves_locked :
    ¬∀ (graphs : Nat → KernelGraph) (verified : Nat → Bool) (numCallers : Nat) (acts : List GraphAct),
      (∀ act ∈ acts, act ≠ .deinit) →
      Machine.Always graphMachine LockBalanced (.initial graphs verified numCallers) acts := by
  intro h
  have hbalanced := ((((((h (fun _ => fiveSections) (fun _ => true) 1 processOnce (by decide)).2 _ ()
    rfl).2 _ () rfl).2 _ () rfl).2 _ () rfl).2 _ () rfl).head
  exact absurd hbalanced.count (by decide +kernel)

end DVP.Kgraph
