import DVP.Kgraph.GraphLock
import DVP.Lib.Threads

/-!
# The graph lock excludes teardown

* `graphLock_sound_iff`: over the runs in which `m_count` does not overflow, no step uses `DVP_t` after it
  was freed, no caller has the lock once `dvp_graphlock_wait` has returned and no caller touches a graph or
  the boss without the lock in all states if and only if four things do not happen: the mutex region of
  `dvp_graphlock_wait` finds a call counted that has the lock, `DVP_KernelGraph_Verify` returns
  `pGraph->verified` after its unlock, the second `dvp_graph_lock` of `DVP_KernelGraph_Process` is refused,
  and a call is in `dvp_graph_lock` after `DVP_KernelGraphBossDeinit`.
* `disable_finds_free_of_window`: nothing is counted there if `event_wait` found the event set and
  no call takes the mutex between `event_wait` and that region.
-/

namespace DVP.Kgraph

/-! ## What is expected -/

/-- The caller is between a `dvp_graph_lock` that returned true and the matching unlock. -/
def Location.holds : Location → Bool
  | .verifyTest _ _ | .verifying _ _ _ _ _ | .verifyUnlock _ _ => true
  | .processTest _ | .processRelease _ => true
  | .processing _ held _ | .processUnlock _ held => held
  | _ => false

/-- The next step of the caller touches its graph or the boss. -/
def Location.touches : Location → Bool
  | .verifyTest _ _ | .verifying _ _ _ _ _ | .verifyReturn _ _ => true
  | .processTest _ | .processing _ _ _ => true
  | _ => false

/-- The caller is about to take the mutex in `dvp_graph_lock`. -/
def Location.entering : Location → Bool
  | .locking _ _ => true
  | _ => false

/-- The caller is in `dvp_graph_lock` after its mutex region. -/
def Location.returning : Location → Bool
  | .locked _ _ => true
  | _ => false

/-- The caller goes on in `DVP_KernelGraph_Process` although `dvp_graph_lock` has refused it. -/
def Location.unheld : Location → Bool
  | .processing _ held _ | .processUnlock _ held => !held
  | _ => false

/-- `dvp_graphlock_wait` has returned. -/
def DeinitLocation.returned : DeinitLocation → Bool
  | .excluded | .done => true
  | _ => false

/-- Once `dvp_graphlock_wait` has returned no call has the lock, be it one that still runs or one that
returned without unlocking. -/
def TeardownExcluded (s : GraphSystem) : Prop :=
  s.deinit.returned = true → (∀ c, (s.callers c).holds = false) ∧ s.abandoned = 0

/-- No caller touches its graph or the boss without the lock. -/
def TouchesLocked (s : GraphSystem) : Prop :=
  ∀ c, (s.callers c).touches = true → (s.callers c).holds = true

/-- What is expected of the graph lock. -/
def GraphLockSound (s : GraphSystem) : Prop := TeardownExcluded s ∧ TouchesLocked s

/-! ## The conditions -/

/-- `m_count++` does not overflow. -/
def LockCountFits (s : GraphSystem) : GraphAct → Prop
  | .caller c _ => (s.callers c).entering = true → s.lock.enabled = true →
      s.lock.count.toNat + 1 < 2 ^ 32
  | _ => True

instance (s : GraphSystem) : ∀ act, Decidable (LockCountFits s act)
  | .caller c _ => inferInstanceAs (Decidable ((s.callers c).entering = true →
      s.lock.enabled = true → s.lock.count.toNat + 1 < 2 ^ 32))
  | .verify _ _ | .process _ _ | .deinit => isTrue trivial

/-- The number of the calls of `dvp_graph_lock` that are after their mutex region. -/
def numReturning (s : GraphSystem) : Nat :=
  Threads.total s.numCallers s.callers fun l => l.returning.toNat

/-- When `dvp_graphlock_wait` takes the mutex, every call that `m_count` counts is still in
`dvp_graph_lock`. -/
def DisableFindsFree (s : GraphSystem) : GraphAct → Prop
  | .deinit => s.deinit = .window → s.lock.count.toNat = numReturning s
  | _ => True

/-- `DVP_KernelGraph_Verify` does not get to its last statement with a lock it had, and the second
`dvp_graph_lock` of `DVP_KernelGraph_Process` returns true. -/
def KeepsLock (s : GraphSystem) : GraphAct → Prop
  | .caller c _ =>
    match s.callers c with
    | .verifyUnlock _ _ => False
    | .locked .again _ => s.lock.enabled = true
    | _ => True
  | _ => True

/-- No call is in `dvp_graph_lock` when the memory of the lock is gone. -/
def LockAlive (s : GraphSystem) : GraphAct → Prop
  | .caller c _ =>
    s.deinit = .done → (s.callers c).entering = false ∧ (s.callers c).returning = false
  | _ => True

instance (s : GraphSystem) : ∀ act, Decidable (LockAlive s act)
  | .caller c _ => inferInstanceAs (Decidable (s.deinit = .done →
      (s.callers c).entering = false ∧ (s.callers c).returning = false))
  | .verify _ _ | .process _ _ | .deinit => isTrue trivial

/-! ## What a caller does -/

/-- A step of a caller from `l` to `l'`, as the lock sees it, with the new lock and the number of locks
that were abandoned. -/
inductive Moves (gl : GraphLock) (l l' : Location) : GraphLock → Nat → Prop
  | within (hholds : l'.holds = l.holds) (hreturning : l.returning = false)
      (hreturning' : l'.returning = false) (hunheld : l'.unheld = l.unheld) : Moves gl l l' gl 0
  | lock (hentering : l.entering = true) (hholds : l.holds = false) (hholds' : l'.holds = false)
      (hreturning : l.returning = false) (hreturning' : l'.returning = true)
      (hunheld : l'.unheld = false) : Moves gl l l' (dvpGraphLock gl) 0
  | enter (hholds : l.holds = false) (hreturning : l.returning = true)
      (hreturning' : l'.returning = false) (hholds' : l'.holds = gl.enabled)
      (hunheld : l'.unheld = true → gl.enabled = false) : Moves gl l l' gl 0
  | unlock (hholds : l.holds = true ∨ l.unheld = true) (hreturning : l.returning = false)
      (hholds' : l'.holds = false) (hreturning' : l'.returning = false) (hunheld : l'.unheld = false) :
      Moves gl l l' (dvpGraphUnlock gl) 0
  | abandon (hreturning : l.returning = false) (hholds' : l'.holds = false)
      (hreturning' : l'.returning = false) (hunheld : l'.unheld = false) :
      Moves gl l l' gl l.holds.toNat

/-- What `m_count` counts of a caller. -/
def Location.counted (l : Location) : Nat := l.returning.toNat + l.holds.toNat

namespace Moves

variable {gl gl' : GraphLock} {l l' : Location} {k : Nat}

/-- Only `dvp_graphlock_wait` disables the lock. -/
theorem enabled (h : Moves gl l l' gl' k) : gl'.enabled = gl.enabled := by
  cases h with
  | lock =>
    rw [dvpGraphLock]
    split <;> rfl
  | unlock =>
    rw [dvpGraphUnlock]
    split <;> rfl
  | _ => rfl

/-- The count of an enabled lock follows the callers, and an abandoned lock stays counted. -/
theorem count (h : Moves gl l l' gl' k) (henabled : gl.enabled = true)
    (hunheld : l.unheld = true → gl.enabled = false) (hle : l.counted ≤ gl.count.toNat)
    (hfits : l.entering = true → gl.count.toNat + 1 < 2 ^ 32) :
    gl'.count.toNat + l.counted = gl.count.toNat + l'.counted + k := by
  rw [Location.counted] at hle ⊢
  rw [Location.counted]
  cases h with
  | within hholds hreturning hreturning' =>
    rw [hholds, hreturning, hreturning']
    exact (Nat.add_zero _).symm
  | lock hentering hholds hholds' hreturning hreturning' =>
    have hlt := hfits hentering
    rw [hholds, hholds', hreturning, hreturning', dvpGraphLock, if_pos henabled]
    dsimp only
    rw [BitVec.toNat_add_of_lt (by simpa using hlt)]
    rfl
  | enter hholds hreturning hreturning' hholds' =>
    rw [hholds, hholds', hreturning, hreturning', henabled]
    rfl
  | unlock hholds hreturning hholds' hreturning' =>
    have hheld : l.holds = true := hholds.resolve_right fun hfree =>
      absurd (henabled.symm.trans (hunheld hfree)) nofun
    rw [hheld, hreturning] at hle
    have hone : 1 ≤ gl.count.toNat := hle
    rw [hheld, hholds', hreturning, hreturning', dvpGraphUnlock, if_pos henabled]
    dsimp only
    rw [BitVec.toNat_sub_of_le (by simpa [BitVec.le_def] using hone)]
    exact Nat.sub_add_cancel hone
  | abandon hreturning hholds' hreturning' =>
    rw [hreturning, hholds', hreturning']
    exact Nat.add_comm _ _ |>.trans (by simp [Nat.add_comm])

/-- A call that goes on without the lock does so since the lock was disabled. -/
theorem unheld (h : Moves gl l l' gl' k) (hunheld : l'.unheld = true) :
    l.unheld = true ∨ gl.enabled = false := by
  cases h with
  | within _ _ _ heq => exact .inl (heq.symm.trans hunheld)
  | enter _ _ _ _ hoff => exact .inr (hoff hunheld)
  | lock _ _ _ _ _ hno => exact absurd (hno.symm.trans hunheld) nofun
  | unlock _ _ _ _ hno => exact absurd (hno.symm.trans hunheld) nofun
  | abandon _ _ _ hno => exact absurd (hno.symm.trans hunheld) nofun

/-- Nobody gets the lock, and nobody abandons it, when it is disabled and nobody has it. -/
theorem excluded (h : Moves gl l l' gl' k) (henabled : gl.enabled = false) (hholds : l.holds = false) :
    l'.holds = false ∧ k = 0 := by
  cases h with
  | within heq => exact ⟨heq.trans hholds, rfl⟩
  | lock _ _ hholds' => exact ⟨hholds', rfl⟩
  | enter _ _ _ hholds' => exact ⟨hholds'.trans henabled, rfl⟩
  | unlock _ _ hholds' => exact ⟨hholds', rfl⟩
  | abandon _ hholds' =>
    rw [hholds]
    exact ⟨hholds', rfl⟩

/-- The event follows the count. -/
theorem wait (h : Moves gl l l' gl' k) (henabled : gl.enabled = true)
    (hunheld : l.unheld = true → gl.enabled = false) (hle : l.counted ≤ gl.count.toNat)
    (hfits : l.entering = true → gl.count.toNat + 1 < 2 ^ 32)
    (hwait : gl.wait = true ↔ gl.count = 0) : gl'.wait = true ↔ gl'.count = 0 := by
  cases h with
  | lock hentering =>
    have hlt := hfits hentering
    rw [dvpGraphLock, if_pos henabled]
    refine iff_of_false nofun fun hzero => ?_
    have hnat := congrArg BitVec.toNat hzero
    dsimp only at hnat
    rw [BitVec.toNat_add_of_lt (by simpa using hlt)] at hnat
    cases hnat
  | unlock hholds hreturning =>
    -- The caller that unlocks is counted, so the event was not set.
    have hheld : l.holds = true := hholds.resolve_right fun hfree =>
      absurd (henabled.symm.trans (hunheld hfree)) nofun
    have hreset : gl.wait = false := by
      rw [← Bool.not_eq_true, hwait]
      intro hzero
      rw [Location.counted, hreturning, hheld, hzero] at hle
      exact absurd hle (by decide)
    rw [dvpGraphUnlock, if_pos henabled]
    dsimp only
    rw [hreset, Bool.or_false, beq_iff_eq]
  | within => exact hwait
  | enter => exact hwait
  | abandon => exact hwait

/-- As long as nothing is counted and no call takes the mutex, the lock does not change. -/
theorem still (h : Moves gl l l' gl' k) (henabled : gl.enabled = true)
    (hunheld : l.unheld = true → gl.enabled = false) (hzero : l.counted = 0)
    (hentering : l.entering = false) : gl' = gl := by
  cases h with
  | lock henter => exact absurd (hentering.symm.trans henter) nofun
  | unlock hholds hreturning =>
    have hheld : l.holds = true := hholds.resolve_right fun hfree =>
      absurd (henabled.symm.trans (hunheld hfree)) nofun
    rw [Location.counted, hheld] at hzero
    exact absurd hzero (Nat.succ_ne_zero _)
  | within => rfl
  | enter => rfl
  | abandon => rfl

end Moves

/-- What a step of a caller changes. -/
structure CallerStep (s s' : GraphSystem) (c : Nat) (l : Location) : Prop where
  callers : s'.callers = Function.update s.callers c l
  numCallers : s'.numCallers = s.numCallers
  deinit : s'.deinit = s.deinit
  moves : ∃ k, s'.abandoned = s.abandoned + k ∧ Moves s.lock (s.callers c) l s'.lock k

section Caller

variable (s : GraphSystem) {c : Nat} {l l' : Location}

/-- A caller that does nothing the lock sees, or nothing at all. -/
theorem callerStep_within (hl : s.callers c = l) (verified : Nat → Bool)
    (hholds : l'.holds = l.holds) (hreturning : l.returning = false)
    (hreturning' : l'.returning = false) (hunheld : l'.unheld = l.unheld) :
    CallerStep s { s.goto c l' with verified := verified } c l' := by
  subst hl
  exact ⟨rfl, rfl, rfl, 0, rfl, .within hholds hreturning hreturning' hunheld⟩

/-- A caller that unlocks. -/
theorem callerStep_unlock (hl : s.callers c = l) (hholds : l.holds = true ∨ l.unheld = true)
    (hreturning : l.returning = false) (hholds' : l'.holds = false) (hreturning' : l'.returning = false)
    (hunheld : l'.unheld = false) :
    CallerStep s { s.goto c l' with lock := dvpGraphUnlock s.lock } c l' := by
  subst hl
  exact ⟨rfl, rfl, rfl, 0, rfl, .unlock hholds hreturning hholds' hreturning' hunheld⟩

/-- Every step of a caller is one of these. -/
theorem stepCaller_spec (c : Nat) (boss : BitVec 32) :
    ∃ l, CallerStep s (s.stepCaller c boss) c l := by
  rw [GraphSystem.stepCaller]
  cases hl : s.callers c with
  | idle =>
    exact ⟨.idle, (hl ▸ Function.update_eq_self c s.callers).symm, rfl, rfl, 0, rfl,
      by rw [hl]; exact .within rfl rfl rfl rfl⟩
  | locking site g =>
    exact ⟨_, rfl, rfl, rfl, 0, rfl, by rw [hl]; exact .lock rfl rfl rfl rfl rfl rfl⟩
  | locked site g =>
    dsimp only
    cases site with
    | verify byProcess =>
      refine ⟨_, rfl, rfl, rfl, 0, rfl, ?_⟩
      rw [hl]
      cases henabled : s.lock.enabled
      · exact .enter rfl rfl rfl henabled.symm nofun
      · exact .enter rfl rfl rfl henabled.symm nofun
    | process =>
      refine ⟨_, rfl, rfl, rfl, 0, rfl, ?_⟩
      rw [hl]
      cases henabled : s.lock.enabled
      · exact .enter rfl rfl rfl henabled.symm nofun
      · exact .enter rfl rfl rfl henabled.symm nofun
    -- the value of this `dvp_graph_lock` is not used: the caller goes on without the lock, too
    | again =>
      refine ⟨_, rfl, rfl, rfl, 0, rfl, ?_⟩
      rw [hl]
      refine .enter rfl rfl rfl rfl fun hunheld => ?_
      rw [Location.unheld, Bool.not_eq_true'] at hunheld
      exact hunheld
  | verifyTest byProcess g =>
    refine ⟨_, callerStep_within s hl s.verified ?_ rfl ?_ ?_⟩ <;>
      cases s.verified g <;> rfl
  | verifying byProcess g i numNodes numNodesVerified =>
    dsimp only
    rw [GraphSystem.verifySection]
    split
    · exact ⟨_, callerStep_within s hl s.verified rfl rfl rfl rfl⟩
    · exact ⟨_, callerStep_within s hl _ rfl rfl rfl rfl⟩
  | verifyUnlock byProcess g => exact ⟨_, callerStep_unlock s hl (.inl rfl) rfl rfl rfl rfl⟩
  | verifyReturn byProcess g =>
    refine ⟨_, callerStep_within s hl s.verified ?_ rfl ?_ ?_⟩ <;>
      cases byProcess && s.verified g <;> rfl
  | processTest g =>
    refine ⟨_, callerStep_within s hl s.verified ?_ rfl ?_ ?_⟩ <;>
      cases s.verified g <;> rfl
  | processRelease g => exact ⟨_, callerStep_unlock s hl (.inl rfl) rfl rfl rfl rfl⟩
  | processing g held order =>
    dsimp only
    rw [GraphSystem.processOrder]
    split
    -- a processing that ends early leaves the lock as it is
    · refine ⟨.idle, rfl, rfl, rfl, held.toNat, ?_, ?_⟩
      · cases held <;> rfl
      · rw [hl]
        exact .abandon rfl rfl rfl rfl
    · exact ⟨_, callerStep_within s hl s.verified rfl rfl rfl rfl⟩
    · exact ⟨_, callerStep_within s hl s.verified rfl rfl rfl rfl⟩
  | processUnlock g held =>
    refine ⟨_, callerStep_unlock s hl ?_ rfl rfl rfl rfl⟩
    cases held
    · exact .inr rfl
    · exact .inl rfl

/-- A caller that is idle starts a call. -/
theorem call_spec (c g : Nat) (site : LockSite) :
    s.call c g site = s ∨
      ∃ l, CallerStep s (s.call c g site) c l ∧ (s.callers c).entering = false := by
  rw [GraphSystem.call]
  split
  · next hl =>
    exact .inr ⟨_, callerStep_within s hl s.verified rfl rfl rfl rfl, by rw [hl]; rfl⟩
  · exact .inl rfl

/-- A step is one of the teardown, or one of a caller, or nothing. -/
theorem graphStep_spec (act : GraphAct) (hact : act ≠ .deinit) :
    graphStep s act = s ∨ ∃ c < s.numCallers, ∃ l, CallerStep s (graphStep s act) c l ∧
      ((s.callers c).entering = true → ∃ boss, act = .caller c boss) := by
  cases act with
  | verify c g =>
    rw [graphStep]
    split_ifs with hc
    · rcases call_spec s c g (.verify false) with heq | ⟨l, hstep, hidle⟩
      · exact .inl heq
      · exact .inr ⟨c, hc, l, hstep, fun h => absurd (hidle.symm.trans h) nofun⟩
    · exact .inl rfl
  | process c g =>
    rw [graphStep]
    split_ifs with hc
    · rcases call_spec s c g .process with heq | ⟨l, hstep, hidle⟩
      · exact .inl heq
      · exact .inr ⟨c, hc, l, hstep, fun h => absurd (hidle.symm.trans h) nofun⟩
    · exact .inl rfl
  | caller c boss =>
    rw [graphStep]
    split_ifs with hc
    · obtain ⟨l, hstep⟩ := stepCaller_spec s c boss
      exact .inr ⟨c, hc, l, hstep, fun _ => ⟨boss, rfl⟩⟩
    · exact .inl rfl
  | deinit => exact absurd rfl hact

end Caller

/-! ## The count of the lock -/

/-- Until `dvp_graphlock_wait` disables it, the lock counts the calls that have it, those that are about
to get it, and those that returned with it. -/
structure Counted (s : GraphSystem) : Prop where
  idle : ∀ c, s.numCallers ≤ c → s.callers c = .idle
  enabled : s.lock.enabled = true ↔ s.deinit.returned = false
  count : s.lock.enabled = true →
    s.lock.count.toNat = Threads.total s.numCallers s.callers Location.counted + s.abandoned
  unheld : ∀ c, (s.callers c).unheld = true → s.lock.enabled = false

namespace Counted

variable {s s' : GraphSystem} {c : Nat} {l : Location}

theorem initial (graphs : Nat → KernelGraph) (verified : Nat → Bool) (numCallers : Nat) :
    Counted (.initial graphs verified numCallers) where
  idle _ _ := rfl
  enabled := iff_of_true rfl rfl
  count _ := (Threads.total_eq_zero_of_forall fun _ => rfl).symm
  unheld _ h := nomatch h

/-- A step of a caller keeps the invariant, if its `m_count++` does not overflow. -/
theorem callerStep (h : Counted s) (hc : c < s.numCallers) (hstep : CallerStep s s' c l)
    (hfits : (s.callers c).entering = true → s.lock.enabled = true →
      s.lock.count.toNat + 1 < 2 ^ 32) : Counted s' := by
  obtain ⟨hcallers, hnum, hdeinit, k, habandoned, hmoves⟩ := hstep
  have htotal := Threads.total_update s.callers Location.counted hc l
  have hle : (s.callers c).counted ≤ Threads.total s.numCallers s.callers Location.counted :=
    Threads.le_total _ _ hc
  refine ⟨fun v hv => ?_, ?_, fun hon => ?_, fun v hv => ?_⟩
  · rw [hnum] at hv
    rw [hcallers, Function.update_of_ne (by omega)]
    exact h.idle v hv
  · rw [hmoves.enabled, hdeinit]
    exact h.enabled
  · rw [hmoves.enabled] at hon
    have hcount := h.count hon
    have hmove := hmoves.count hon (h.unheld c) (by omega) fun hl => hfits hl hon
    rw [hcallers, hnum, habandoned]
    omega
  · rw [hmoves.enabled]
    rw [hcallers] at hv
    by_cases hvc : v = c
    · subst hvc
      rw [Function.update_self] at hv
      exact (hmoves.unheld hv).elim (h.unheld v) id
    · rw [Function.update_of_ne hvc] at hv
      exact h.unheld v hv

/-- The teardown disables the lock and leaves the callers alone. -/
theorem stepDeinit (h : Counted s) : Counted s.stepDeinit := by
  rw [GraphSystem.stepDeinit]
  cases hd : s.deinit with
  | before =>
    have henabled : s.lock.enabled = true := h.enabled.mpr (by rw [hd]; rfl)
    refine ⟨h.idle, iff_of_true henabled ?_, h.count, h.unheld⟩
    dsimp only
    split <;> rfl
  | waiting => exact ⟨h.idle, iff_of_true (h.enabled.mpr (by rw [hd]; rfl)) rfl, h.count, h.unheld⟩
  | window => exact ⟨h.idle, iff_of_false nofun nofun, nofun, fun _ _ => rfl⟩
  | excluded => exact ⟨h.idle, iff_of_false nofun nofun, nofun, fun _ _ => rfl⟩
  | done => exact h

/-- Every step whose `m_count++` does not overflow keeps the invariant. -/
theorem step (h : Counted s) {act : GraphAct} (hfits : LockCountFits s act) :
    Counted (graphStep s act) := by
  by_cases hact : act = .deinit
  · subst hact
    exact h.stepDeinit
  · rcases graphStep_spec s act hact with heq | ⟨c, hc, l, hstep, hcaller⟩
    · rwa [heq]
    · refine h.callerStep hc hstep fun hentering henabled => ?_
      obtain ⟨boss, rfl⟩ := hcaller hentering
      exact hfits hentering henabled

/-- The calls that the lock counts are those in `dvp_graph_lock` and those that have it. -/
theorem count_eq (h : Counted s) (henabled : s.lock.enabled = true) :
    s.lock.count.toNat = numReturning s +
      Threads.total s.numCallers s.callers (fun l => l.holds.toNat) + s.abandoned := by
  rw [h.count henabled, numReturning, ← Threads.total_add]
  rfl

/-- No call has the lock exactly when `m_count` counts only the calls in `dvp_graph_lock`. -/
theorem free_iff (h : Counted s) (henabled : s.lock.enabled = true) :
    s.lock.count.toNat = numReturning s ↔ (∀ c, (s.callers c).holds = false) ∧ s.abandoned = 0 := by
  have hcount := h.count_eq henabled
  have hzero : Threads.total s.numCallers s.callers (fun l => l.holds.toNat) = 0 ↔
      ∀ c, (s.callers c).holds = false := by
    rw [Threads.total_eq_zero_iff]
    constructor
    · intro hall c
      by_cases hc : c < s.numCallers
      · exact Bool.toNat_eq_zero.mp (hall c hc)
      · rw [h.idle c (by omega)]
        rfl
    · exact fun hall c _ => Bool.toNat_eq_zero.mpr (hall c)
  rw [← hzero]
  omega

end Counted

/-! ## Teardown -/

section Teardown

variable {s : GraphSystem} {act : GraphAct}

/-- Once the lock is disabled nobody gets it. -/
theorem TeardownExcluded.step (h : TeardownExcluded s) (hcounted : Counted s)
    (hfree : DisableFindsFree s act) : TeardownExcluded (graphStep s act) := by
  by_cases hact : act = .deinit
  · subst hact
    rw [graphStep, GraphSystem.stepDeinit]
    cases hd : s.deinit with
    | before =>
      intro hreturned
      dsimp only at hreturned
      split at hreturned <;> cases hreturned
    | waiting => exact nofun
    | window =>
      intro _
      exact (hcounted.free_iff (hcounted.enabled.mpr (by rw [hd]; rfl))).mp (hfree hd)
    | excluded => exact fun _ => h (by rw [hd]; rfl)
    | done => exact fun _ => h (by rw [hd]; rfl)
  · rcases graphStep_spec s act hact with heq | ⟨c, hc, l, ⟨hcallers, -, hdeinit, k, habandoned, hmoves⟩, -⟩
    · rwa [heq]
    · intro hreturned
      rw [hdeinit] at hreturned
      obtain ⟨hholds, hnone⟩ := h hreturned
      have henabled : s.lock.enabled = false := by
        rw [← Bool.not_eq_true, hcounted.enabled, hreturned]
        exact nofun
      obtain ⟨hl, rfl⟩ := hmoves.excluded henabled (hholds c)
      refine ⟨fun v => ?_, habandoned.trans hnone⟩
      rw [hcallers]
      by_cases hvc : v = c
      · rw [hvc, Function.update_self]
        exact hl
      · rw [Function.update_of_ne hvc]
        exact hholds v

/-- Only the teardown disables the lock. -/
theorem eq_deinit_of_not_disableFindsFree (hfree : ¬DisableFindsFree s act) : act = .deinit := by
  cases act with
  | deinit => rfl
  | _ => exact absurd trivial hfree

/-- If the teardown disables the lock while a call has it, then a call has it afterwards. -/
theorem not_teardownExcluded (hcounted : Counted s) (hfree : ¬DisableFindsFree s act) :
    ¬TeardownExcluded (graphStep s act) := by
  obtain rfl := eq_deinit_of_not_disableFindsFree hfree
  rw [DisableFindsFree, Classical.not_imp] at hfree
  obtain ⟨hd, hcount⟩ := hfree
  intro hexcluded
  have henabled : s.lock.enabled = true := hcounted.enabled.mpr (by rw [hd]; rfl)
  rw [graphStep, GraphSystem.stepDeinit, hd] at hexcluded
  exact hcount ((hcounted.free_iff henabled).mpr (hexcluded rfl))

/-- Over the runs in which `m_count` does not overflow, teardown is excluded exactly when the mutex
region of `dvp_graphlock_wait` never finds a call counted that has the lock. -/
theorem teardown_excluded_iff {graphs : Nat → KernelGraph} {verified : Nat → Bool} {numCallers : Nat}
    {acts : List GraphAct}
    (hfits : Machine.Meets graphMachine LockCountFits (.initial graphs verified numCallers) acts) :
    Machine.Always graphMachine TeardownExcluded (.initial graphs verified numCallers) acts ↔
      Machine.Meets graphMachine DisableFindsFree (.initial graphs verified numCallers) acts := by
  refine Machine.always_iff_meets_of (I := fun s => Counted s ∧ TeardownExcluded s)
    (fun s h => h.2) ?_ ?_ ⟨.initial graphs verified numCallers, nofun⟩ hfits
  · rintro s act s' r ⟨hcounted, hexcluded⟩ hfits hfree hstep
    obtain rfl := eq_graphStep_of_ok hstep
    exact ⟨hcounted.step hfits, hexcluded.step hcounted hfree⟩
  · rintro s act ⟨hcounted, -⟩ - hfree
    obtain rfl : act = .deinit := eq_deinit_of_not_disableFindsFree hfree
    exact ⟨_, (), graphMachine_eq_ok rfl, not_teardownExcluded hcounted hfree⟩

end Teardown

/-! ## Touching graphs and the boss -/

section Touch

variable {s : GraphSystem} {act : GraphAct} {c : Nat} {l : Location}

/-- A caller that goes to `l` touches nothing there, or has the lock, and it has not been refused. -/
def Location.Guarded (l : Location) : Prop :=
  (l.touches = true → l.holds = true) ∧ l.unheld = false

/-- All callers are guarded. -/
def Guarded (s : GraphSystem) : Prop := ∀ c, (s.callers c).Guarded

/-- Only the caller that makes the step can become unguarded. -/
theorem Guarded.update {s' : GraphSystem} (h : Guarded s)
    (hcallers : s'.callers = Function.update s.callers c l) (hl : l.Guarded) : Guarded s' := by
  intro v
  rw [hcallers]
  by_cases hvc : v = c
  · rw [hvc, Function.update_self]
    exact hl
  · rw [Function.update_of_ne hvc]
    exact h v

/-- Callers that have the lock keep it as long as they touch something. -/
theorem Guarded.stepCaller (h : Guarded s) {boss : BitVec 32}
    (hkeeps : KeepsLock s (.caller c boss)) : Guarded (s.stepCaller c boss) := by
  have hguarded := h c
  rw [KeepsLock] at hkeeps
  rw [GraphSystem.stepCaller]
  cases hl : s.callers c with
  | idle => exact h
  | locking site g => exact h.update rfl ⟨nofun, rfl⟩
  | locked site g =>
    dsimp only
    cases site with
    | verify byProcess =>
      refine h.update rfl ?_
      cases s.lock.enabled
      · exact ⟨nofun, rfl⟩
      · exact ⟨fun _ => rfl, rfl⟩
    | process =>
      refine h.update rfl ?_
      cases s.lock.enabled
      · exact ⟨nofun, rfl⟩
      · exact ⟨fun _ => rfl, rfl⟩
    | again =>
      rw [hl] at hkeeps
      -- the condition says that the second `dvp_graph_lock` is not refused
      refine h.update rfl ⟨fun _ => hkeeps, ?_⟩
      rw [Location.unheld, Bool.not_eq_false']
      exact hkeeps
  | verifyTest byProcess g =>
    refine h.update rfl ?_
    cases s.verified g <;> exact ⟨fun _ => rfl, rfl⟩
  | verifying byProcess g i numNodes numNodesVerified =>
    dsimp only
    rw [GraphSystem.verifySection]
    split
    · exact h.update rfl ⟨fun _ => rfl, rfl⟩
    · exact h.update rfl ⟨nofun, rfl⟩
  | verifyUnlock byProcess g =>
    rw [hl] at hkeeps
    exact hkeeps.elim
  | verifyReturn byProcess g =>
    rw [hl] at hguarded
    -- here the graph is read without the lock
    cases hguarded.1 rfl
  | processTest g =>
    refine h.update rfl ?_
    cases s.verified g <;> exact ⟨fun _ => rfl, rfl⟩
  | processRelease g => exact h.update rfl ⟨nofun, rfl⟩
  | processing g held order =>
    rw [hl] at hguarded
    dsimp only
    rw [GraphSystem.processOrder]
    split
    · exact h.update rfl ⟨nofun, rfl⟩
    · exact h.update rfl ⟨nofun, hguarded.2⟩
    · exact h.update rfl hguarded
  | processUnlock g held => exact h.update rfl ⟨nofun, rfl⟩

/-- A call touches nothing before it has been in `dvp_graph_lock`. -/
theorem Guarded.call (h : Guarded s) (c g : Nat) (site : LockSite) :
    Guarded (s.call c g site) := by
  rw [GraphSystem.call]
  split
  · exact h.update rfl ⟨nofun, rfl⟩
  · exact h

/-- Every step that keeps the lock keeps the callers guarded. -/
theorem Guarded.step (h : Guarded s) (hkeeps : KeepsLock s act) :
    Guarded (graphStep s act) := by
  cases act with
  | verify c g =>
    rw [graphStep]
    split_ifs
    · exact h.call c g _
    · exact h
  | process c g =>
    rw [graphStep]
    split_ifs
    · exact h.call c g _
    · exact h
  | caller c boss =>
    rw [graphStep]
    split_ifs
    · exact h.stepCaller hkeeps
    · exact h
  | deinit =>
    rw [graphStep, GraphSystem.stepDeinit]
    cases s.deinit <;> exact h

/-- A caller that loses the lock where it touches its graph is without the lock then. -/
theorem not_touchesLocked (hcounted : Counted s) (hkeeps : ¬KeepsLock s act) :
    ¬TouchesLocked (graphStep s act) := by
  cases act with
  | caller c boss =>
    have hc : c < s.numCallers := by
      by_contra hge
      rw [KeepsLock, hcounted.idle c (by omega)] at hkeeps
      exact hkeeps trivial
    rw [KeepsLock] at hkeeps
    rw [graphStep, if_pos hc, GraphSystem.stepCaller]
    split at hkeeps
    · next byProcess g hl =>
      rw [hl]
      intro h
      have hguarded := h c
      dsimp only [GraphSystem.goto] at hguarded
      rw [Function.update_self] at hguarded
      cases hguarded rfl
    · next g hl =>
      rw [hl]
      intro h
      have hguarded := h c
      dsimp only [GraphSystem.afterLock, GraphSystem.goto] at hguarded
      rw [Function.update_self] at hguarded
      exact hkeeps (hguarded rfl)
    · exact absurd trivial hkeeps
  | _ => exact absurd trivial hkeeps

end Touch

/-! ## Freed memory -/

section Freed

variable {s : GraphSystem} {act : GraphAct}

/-- A caller reaches `DVP_t` in `dvp_graph_lock`, with the lock, or because it goes on without. -/
theorem Location.of_reachesDvp {graphs : Nat → KernelGraph} {l : Location}
    (h : l.reachesDvp graphs = true) :
    l.entering = true ∨ l.returning = true ∨ l.holds = true ∨ l.unheld = true := by
  cases l with
  | locking => exact .inl rfl
  | locked => exact .inr (.inl rfl)
  | verifying => exact .inr (.inr (.inl rfl))
  | verifyUnlock => exact .inr (.inr (.inl rfl))
  | processRelease => exact .inr (.inr (.inl rfl))
  | processing g held order =>
    cases held
    · exact .inr (.inr (.inr rfl))
    · exact .inr (.inr (.inl rfl))
  | processUnlock g held =>
    cases held
    · exact .inr (.inr (.inr rfl))
    · exact .inr (.inr (.inl rfl))
  | _ => cases h

/-- Where teardown is excluded and the callers are guarded, only a call of `dvp_graph_lock` can use the
memory that was freed. -/
theorem usesFreed_eq_false (hexcluded : TeardownExcluded s) (hguarded : Guarded s)
    (halive : LockAlive s act) : s.usesFreed act = false := by
  cases act with
  | caller c boss =>
    rw [← Bool.not_eq_true]
    intro hfreed
    rw [GraphSystem.usesFreed, Bool.and_eq_true, beq_iff_eq] at hfreed
    obtain ⟨hdone, hreaches⟩ := hfreed
    obtain ⟨hentering, hreturning⟩ := halive hdone
    have hholds := (hexcluded (by rw [hdone]; rfl)).1 c
    have hunheld := (hguarded c).2
    have := Location.of_reachesDvp hreaches
    rw [hentering, hreturning, hholds, hunheld] at this
    simp at this
  | _ => rfl

/-- A call that is in `dvp_graph_lock` when the lock is gone uses freed memory. -/
theorem lockAlive_of_usesFreed_eq_false (h : s.usesFreed act = false) : LockAlive s act := by
  cases act with
  | caller c boss =>
    intro hdone
    rw [GraphSystem.usesFreed, hdone, beq_self_eq_true, Bool.true_and] at h
    cases hl : s.callers c with
    | locking => rw [hl] at h; cases h
    | locked => rw [hl] at h; cases h
    | _ => exact ⟨rfl, rfl⟩
  | _ => trivial

end Freed

/-! ## The graph lock -/

/-- Over the runs in which `m_count` does not overflow, no step uses memory that was freed and the lock does
what is expected in all states exactly when the teardown finds no call counted that has the lock, the callers
keep the lock as long as they touch something, and no call is in `dvp_graph_lock` when its memory is gone.
The first condition alone is that for the exclusion of teardown. -/
theorem graphLock_sound_iff {graphs : Nat → KernelGraph} {verified : Nat → Bool} {numCallers : Nat}
    {acts : List GraphAct}
    (hfits : Machine.Meets graphMachine LockCountFits (.initial graphs verified numCallers) acts) :
    ((∃ r, Machine.run graphMachine (.initial graphs verified numCallers) acts = .ok r) ∧
        Machine.Always graphMachine GraphLockSound (.initial graphs verified numCallers) acts ↔
      Machine.Meets graphMachine
        (fun s act => DisableFindsFree s act ∧ KeepsLock s act ∧ LockAlive s act)
        (.initial graphs verified numCallers) acts) ∧
    (Machine.Always graphMachine TeardownExcluded (.initial graphs verified numCallers) acts ↔
      Machine.Meets graphMachine DisableFindsFree (.initial graphs verified numCallers) acts) := by
  refine ⟨?_, teardown_excluded_iff hfits⟩
  refine Machine.run_and_always_iff_meets
    (I := fun s => Counted s ∧ TeardownExcluded s ∧ Guarded s)
    (fun s h => ⟨h.2.1, fun c => (h.2.2 c).1⟩) ?_ ?_
    ⟨.initial graphs verified numCallers, nofun, fun _ => ⟨nofun, rfl⟩⟩ hfits
  · rintro s act ⟨hcounted, hexcluded, hguarded⟩ hfits ⟨hfree, hkeeps, halive⟩
    exact ⟨_, (), graphMachine_eq_ok (usesFreed_eq_false hexcluded hguarded halive),
      hcounted.step hfits, hexcluded.step hcounted hfree, hguarded.step hkeeps⟩
  -- the step that ends breaks what is expected, unless it is the one that uses freed memory
  · rintro s act s' r ⟨hcounted, -, -⟩ - hbreaks hstep hsound
    have halive := lockAlive_of_usesFreed_eq_false (usesFreed_eq_false_of_ok hstep)
    obtain rfl := eq_graphStep_of_ok hstep
    refine hbreaks ⟨?_, ?_, halive⟩
    · by_contra hfree
      exact not_teardownExcluded hcounted hfree hsound.1
    · by_contra hkeeps
      exact not_touchesLocked hcounted hkeeps hsound.2

/-- A graph of one section of two nodes. -/
def oneSection : KernelGraph := ⟨[⟨2, false, 0⟩]⟩

/-- A caller processes a verified graph, and then the teardown comes. -/
def processThenDeinit : List GraphAct :=
  .process 0 0 :: List.replicate 6 (.caller 0 0) ++ List.replicate 4 .deinit

theorem graphLock_sound_iff_processThenDeinit :
    ((∃ r, Machine.run graphMachine (.initial (fun _ => oneSection) (fun _ => true) 1)
          processThenDeinit = .ok r) ∧
        Machine.Always graphMachine GraphLockSound (.initial (fun _ => oneSection) (fun _ => true) 1)
          processThenDeinit ↔
      Machine.Meets graphMachine
        (fun s act => DisableFindsFree s act ∧ KeepsLock s act ∧ LockAlive s act)
        (.initial (fun _ => oneSection) (fun _ => true) 1) processThenDeinit) ∧
    (Machine.Always graphMachine TeardownExcluded (.initial (fun _ => oneSection) (fun _ => true) 1)
        processThenDeinit ↔
      Machine.Meets graphMachine DisableFindsFree
        (.initial (fun _ => oneSection) (fun _ => true) 1) processThenDeinit) :=
  graphLock_sound_iff (Machine.check_eq_true_iff.mp (by decide +kernel))

/-- A caller takes the lock after `event_wait` has returned in `dvp_graphlock_wait` and before the lock
is disabled, and has it after `dvp_graphlock_wait` has returned. -/
theorem graphLock_in_window :
    ¬∀ acts, Machine.Always graphMachine GraphLockSound
      (.initial (fun _ => oneSection) (fun _ => true) 1) acts := by
  intro h
  have hsound := ((((((h [.deinit, .process 0 0, .caller 0 0, .caller 0 0, .deinit]).2 _ () rfl).2 _ ()
    rfl).2 _ () rfl).2 _ () rfl).2 _ () rfl).head
  exact absurd ((hsound.1 rfl).1 0) (by decide)

/-! ## The window -/

/-- A thread that wakes in `event_wait` finds the event set, and no call takes the mutex between the
`event_wait` and the mutex region of `dvp_graphlock_wait`. -/
def WindowClosed (s : GraphSystem) : GraphAct → Prop
  | .caller c _ => s.deinit = .window → (s.callers c).entering = false
  | .deinit => s.deinit = .waiting → s.lock.wait = true
  | _ => True

/-- The event is set exactly when nothing is counted, and nothing is counted in the window. -/
structure Quiet (s : GraphSystem) : Prop extends Counted s where
  wait : s.lock.enabled = true → (s.lock.wait = true ↔ s.lock.count = 0)
  window : s.deinit = .window → s.lock.count = 0

namespace Quiet

variable {s : GraphSystem} {act : GraphAct}

theorem initial (graphs : Nat → KernelGraph) (verified : Nat → Bool) (numCallers : Nat) :
    Quiet (.initial graphs verified numCallers) where
  toCounted := .initial graphs verified numCallers
  wait _ := iff_of_true rfl rfl
  window h := nomatch h

theorem stepDeinit (h : Quiet s) (hclosed : WindowClosed s .deinit) : Quiet s.stepDeinit := by
  have hcounted := h.toCounted.stepDeinit
  rw [GraphSystem.stepDeinit] at hcounted ⊢
  cases hd : s.deinit with
  | before =>
    rw [hd] at hcounted
    refine ⟨hcounted, h.wait, fun hwindow => ?_⟩
    dsimp only at hwindow
    split at hwindow
    · next hset => exact (h.wait (h.enabled.mpr (by rw [hd]; rfl))).mp hset
    · cases hwindow
  | waiting =>
    rw [hd] at hcounted
    exact ⟨hcounted, h.wait, fun _ => (h.wait (h.enabled.mpr (by rw [hd]; rfl))).mp (hclosed hd)⟩
  | window =>
    rw [hd] at hcounted
    exact ⟨hcounted, nofun, nofun⟩
  | excluded =>
    rw [hd] at hcounted
    exact ⟨hcounted, nofun, nofun⟩
  | done => exact h

theorem step (h : Quiet s) (hfits : LockCountFits s act) (hclosed : WindowClosed s act) :
    Quiet (graphStep s act) := by
  by_cases hact : act = .deinit
  · subst hact
    exact h.stepDeinit hclosed
  · rcases graphStep_spec s act hact with heq | ⟨c, hc, l, hstep, hcaller⟩
    · rwa [heq]
    · refine ⟨h.toCounted.step hfits, ?_, ?_⟩
      · obtain ⟨-, -, -, k, -, hmoves⟩ := hstep
        intro hon
        rw [hmoves.enabled] at hon
        have hcount := h.count hon
        have hle : (s.callers c).counted ≤ _ := Threads.le_total _ _ hc
        refine hmoves.wait hon (h.unheld c) (by omega) (fun hentering => ?_) (h.wait hon)
        obtain ⟨boss, rfl⟩ := hcaller hentering
        exact hfits hentering hon
      · obtain ⟨-, -, hdeinit, k, -, hmoves⟩ := hstep
        intro hwindow
        rw [hdeinit] at hwindow
        have hon : s.lock.enabled = true := h.enabled.mpr (by rw [hwindow]; rfl)
        have hcount := h.count hon
        have hzero := h.window hwindow
        have hnone : s.lock.count.toNat = 0 := congrArg BitVec.toNat hzero
        have hle : (s.callers c).counted ≤ _ := Threads.le_total _ _ hc
        have hentering : (s.callers c).entering = false := by
          rw [← Bool.not_eq_true]
          intro hentering
          obtain ⟨boss, rfl⟩ := hcaller hentering
          exact absurd ((hclosed hwindow).symm.trans hentering) nofun
        rw [hmoves.still hon (h.unheld c) (by omega) hentering]
        exact hzero

/-- Nothing is counted when the lock is disabled. -/
theorem disableFindsFree (h : Quiet s) : DisableFindsFree s act := by
  cases act with
  | deinit =>
    intro hwindow
    have hon : s.lock.enabled = true := h.enabled.mpr (by rw [hwindow]; rfl)
    have hcount := h.toCounted.count_eq hon
    have hnone : s.lock.count.toNat = 0 := congrArg BitVec.toNat (h.window hwindow)
    omega
  | _ => trivial

end Quiet

/-- The count and the event do their part: the lock is disabled with nothing counted if nothing happens
in the window. -/
theorem disable_finds_free_of_window {graphs : Nat → KernelGraph} {verified : Nat → Bool}
    {numCallers : Nat} {acts : List GraphAct}
    (hfits : Machine.Meets graphMachine LockCountFits (.initial graphs verified numCallers) acts)
    (hclosed : Machine.Meets graphMachine WindowClosed (.initial graphs verified numCallers) acts) :
    Machine.Meets graphMachine DisableFindsFree (.initial graphs verified numCallers) acts := by
  refine Machine.Meets.of_invariant (I := Quiet) ?_ (fun s act h _ => h.disableFindsFree)
    (.initial graphs verified numCallers) (hfits.and hclosed)
  rintro s act s' r h ⟨hfits, hclosed⟩ hstep
  obtain rfl := eq_graphStep_of_ok hstep
  exact h.step hfits hclosed

end DVP.Kgraph
