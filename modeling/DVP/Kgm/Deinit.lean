import DVP.Kgm.Progress
import DVP.Lib.Schedule

/-!
# The end of a manager

`DVP_KernelGraphManagerDeinit` pops both queues, joins the worker threads, and destroys the queues
(`deinitStep`). In every schedule that lets the workers go on, all workers exit after the pops, so that the
joins return (`kgm_deinit`). The calls that are in progress get no result any more: a caller of the DSP and
SIMCOP managers returns 0, and one of the CPU manager tries again until the queues are destroyed, and then
uses a queue that was freed.
-/

namespace DVP.Kgm

open DVP.Sosal (Arch Fault Queue)

variable {a : Arch} {m : Manager} {Q : Type}

/-! ## The joins and the end of the queues -/

/-- A manager whose queues were popped, and whether they have been destroyed. -/
structure Deinitializing (Q : Type) (a : Arch) where
  system : KgmSystem Q a
  destroyed : Bool

/-- The atomic steps. -/
inductive DeinitAct (a : Arch) where
  /-- A step of a caller, of a worker, or of the kernels. -/
  | go (act : KgmAct a)
  /-- The last `thread_join` returns, and `queue_destroy` frees both queues. -/
  | destroy

/-- The step uses one of the queues. -/
def KgmSystem.usesQueue (m : Manager) (s : KgmSystem Q a) : KgmAct a → Bool
  | .caller c => decide (c < s.numCallers) && s.callers c != .outside
  | .worker w =>
    decide (w < m.numWorkers) &&
      match s.workers w with
      | .reading _ | .writing _ _ => true
      | .executing _ | .exited => false
  | .popWork | .popRet => true
  | .call .. | .finish .. => false

/-- All worker threads have exited. -/
def KgmSystem.joined (m : Manager) (s : KgmSystem Q a) : Bool :=
  (List.range m.numWorkers).all fun w => s.workers w == .exited

/-- One atomic step. The joins wait until all worker threads have exited. A step that uses a queue after
that is a fault. -/
def deinitStep (calls : QueueCalls Q (KgmThread a)) (m : Manager) (s : Deinitializing Q a) :
    DeinitAct a → Except Fault (Deinitializing Q a × Unit)
  | .go act =>
    if s.destroyed && s.system.usesQueue m act then .error .badPointer
    else do
      let (system, ()) ← kgmStep calls m s.system act
      return ({ s with system := system }, ())
  | .destroy => .ok (if s.system.joined m then { s with destroyed := true } else s, ())

/-- A call that is in progress uses a queue in its next step. -/
theorem deinitStep_caller {calls : QueueCalls Q (KgmThread a)} {s : Deinitializing Q a} {c : Nat}
    (hdestroyed : s.destroyed = true) (hc : c < s.system.numCallers)
    (hplace : s.system.callers c ≠ .outside) :
    deinitStep calls m s (.go (.caller c)) = .error .badPointer := by
  have huses : s.system.usesQueue m (.caller c) = true := by
    rw [KgmSystem.usesQueue, decide_eq_true hc, Bool.true_and, bne_iff_ne]
    exact hplace
  rw [deinitStep, hdestroyed, huses]
  rfl

/-- A step that ends is one of the manager, or none. -/
theorem exists_of_deinitStep_eq_ok {calls : QueueCalls Q (KgmThread a)} {s s' : Deinitializing Q a}
    {act : DeinitAct a} (h : deinitStep calls m s act = .ok (s', ())) :
    s'.system = s.system ∨ ∃ act', kgmStep calls m s.system act' = .ok (s'.system, ()) := by
  cases act with
  | go act =>
    rw [deinitStep] at h
    split at h
    · cases h
    · cases hstep : kgmStep calls m s.system act with
      | error e =>
        rw [hstep] at h
        cases h
      | ok x =>
        obtain ⟨system, ⟨⟩⟩ := x
        rw [hstep] at h
        cases h
        exact .inr ⟨act, hstep⟩
  | destroy =>
    cases h
    left
    split <;> rfl

/-! ## Schedules -/

/-- The steps as a function of the state: a step that faults leaves it as it is. -/
def kgmGo (calls : QueueCalls Q (KgmThread a)) (m : Manager) (s : KgmSystem Q a) (act : KgmAct a) :
    KgmSystem Q a :=
  match kgmStep calls m s act with
  | .ok (s', ()) => s'
  | .error _ => s

/-- Every worker goes on again and again, and every execution ends. -/
def FairToWorkers (m : Manager) (acts : Nat → KgmAct a) : Prop :=
  ∀ w < m.numWorkers, ∀ n,
    (∃ k, n ≤ k ∧ acts k = .worker w) ∧ ∃ k processed, n ≤ k ∧ acts k = .finish w processed

/-- How far a worker is from its exit once the queues are popped. -/
def WorkerPlace.toExit : WorkerPlace a → Nat
  | .exited => 0
  | .reading .locking => 1
  | .reading .waiting => 2
  | .writing _ .locking => 3
  | .writing _ .waiting => 4
  | .executing _ => 5

section Mailboxes

variable {s s' : MailSystem a} {act : KgmAct a}

theorem kgmGo_moves (m : Manager) (s : MailSystem a) (act : KgmAct a) :
    Moves m s act (kgmGo (mailboxCalls _) m s act) := by
  obtain ⟨s', hstep, hmoves⟩ := kgmStep_moves m s act
  rw [kgmGo, hstep]
  exact hmoves

/-- Both mailboxes are closed. -/
def Closed (s : MailSystem a) : Prop := s.workqueue.closed = true ∧ s.retqueue.closed = true

/-- A closed mailbox takes nothing and gives nothing. -/
theorem not_puts {q q' : Mailbox (KgmThread a)} {x : KgmThread a} (hclosed : q.closed = true) :
    ¬Puts q q' x := by
  intro hputs
  exact Bool.false_ne_true (hputs.wasOpen.symm.trans hclosed)

theorem not_takes {q q' : Mailbox (KgmThread a)} {x : KgmThread a} (hclosed : q.closed = true) :
    ¬Takes q q' x := by
  intro htakes
  exact Bool.false_ne_true (htakes.wasOpen.symm.trans hclosed)

/-- Closed mailboxes stay closed. -/
theorem Closed.step (h : Closed s) (hmoves : Moves m s act s') : Closed s' := by
  obtain ⟨hwork, hret⟩ := h
  cases hmoves with
  | issue hc hplace hputs => exact absurd hputs (not_puts hwork)
  | read hw hplace htakes => exact absurd htakes (not_takes hwork)
  | collectOwn hc hplace htakes => exact absurd htakes (not_takes hret)
  | collectOther hc hplace htakes => exact absurd htakes (not_takes hret)
  | putBack hc hplace hputs => exact absurd hputs (not_puts hret)
  | write hw hplace hputs => exact absurd hputs (not_puts hret)
  | popWork => exact ⟨rfl, hret⟩
  | popRet => exact ⟨hwork, rfl⟩
  | _ => exact ⟨hwork, hret⟩

/-- What the calls of `s` have returned and await, as seen from a later state `s'`. -/
structure Stranded (m : Manager) (s s' : KgmSystem Q a) : Prop where
  returns : ∃ later, s'.returns = s.returns ++ later ∧ ∀ r ∈ later, r.value = 0
  awaits : m.retries = true → ∀ c, (s.callers c).awaits ≠ [] →
    (s'.callers c).awaits = (s.callers c).awaits

/-- A caller that moves on with what it awaits. -/
theorem awaits_update {s₀ : MailSystem a} {c : Nat} {place place' : CallerPlace a}
    (h : ∀ c, (s₀.callers c).awaits ≠ [] → (s.callers c).awaits = (s₀.callers c).awaits)
    (hplace : s.callers c = place) (hawaits : place.awaits ≠ [] → place'.awaits = place.awaits) :
    ∀ d, (s₀.callers d).awaits ≠ [] →
      (Function.update s.callers c place' d).awaits = (s₀.callers d).awaits := by
  intro d hd
  by_cases heq : d = c
  · subst heq
    rw [Function.update_self, ← h d hd, hplace]
    refine hawaits ?_
    rw [← hplace, h d hd]
    exact hd
  · rw [Function.update_of_ne heq]
    exact h d hd

/-- A call that returns without a result is one more that returns 0. -/
theorem returns_append {s₀ : MailSystem a} {r : Returned a}
    (h : ∃ later, s.returns = s₀.returns ++ later ∧ ∀ r ∈ later, r.value = 0) (hr : r.value = 0) :
    ∃ later, s.returns ++ [r] = s₀.returns ++ later ∧ ∀ r ∈ later, r.value = 0 := by
  obtain ⟨later, hreturns, hzero⟩ := h
  refine ⟨later ++ [r], by rw [hreturns, List.append_assoc], fun r' hr' => ?_⟩
  rcases List.mem_append.mp hr' with hr' | hr'
  · exact hzero r' hr'
  · rw [List.mem_singleton.mp hr']
    exact hr

/-- No step brings a call a result any more. -/
theorem Stranded.step {s₀ : MailSystem a} (h : Stranded m s₀ s) (hclosed : Closed s)
    (hmoves : Moves m s act s') : Stranded m s₀ s' := by
  obtain ⟨hwork, hret⟩ := hclosed
  obtain ⟨hreturns, hawaits⟩ := h
  have hmove : ∀ {c : Nat} {place place' : CallerPlace a}, s.callers c = place →
      (place.awaits ≠ [] → place'.awaits = place.awaits) →
      Stranded m s₀ (s.setCaller c place') := fun hplace hsame =>
    ⟨hreturns, fun hretries => awaits_update (hawaits hretries) hplace hsame⟩
  cases hmoves with
  | stay => exact ⟨hreturns, hawaits⟩
  | call hc hplace => exact hmove hplace fun hne => absurd rfl hne
  | issueWait hc hplace => exact hmove hplace fun _ => rfl
  | issue hc hplace hputs => exact absurd hputs (not_puts hwork)
  | refuse hc hplace =>
    exact ⟨returns_append hreturns rfl, fun hretries =>
      awaits_update (hawaits hretries) hplace fun hne => absurd rfl hne⟩
  | collectWait hc hplace => exact hmove hplace fun _ => rfl
  | collectOwn hc hplace htakes => exact absurd htakes (not_takes hret)
  | collectOther hc hplace htakes => exact absurd htakes (not_takes hret)
  | retry hc hplace => exact hmove hplace fun _ => rfl
  | giveUp hc hplace hempty hretries =>
    refine ⟨returns_append hreturns rfl, fun htries => ?_⟩
    rw [hretries] at htries
    cases htries
  | returnWait hc hplace => exact hmove hplace fun _ => rfl
  | putBack hc hplace hputs => exact absurd hputs (not_puts hret)
  | loseOther hc hplace =>
    exact ⟨hreturns, fun hretries => awaits_update (hawaits hretries) hplace fun _ => rfl⟩
  | read hw hplace htakes => exact absurd htakes (not_takes hwork)
  | write hw hplace hputs => exact absurd hputs (not_puts hret)
  | _ => exact ⟨hreturns, hawaits⟩

/-! ## The workers exit -/

/-- How far the workers are from their exits. -/
def toExit (m : Manager) (s : MailSystem a) : Nat :=
  Threads.total m.numWorkers s.workers WorkerPlace.toExit

/-- A worker that moves closer to its exit. -/
theorem toExit_lt {w : Nat} {place : WorkerPlace a} (place' : WorkerPlace a)
    (hw : w < m.numWorkers) (hplace : s.workers w = place)
    (hworkers : s'.workers = Function.update s.workers w place')
    (hcloser : place'.toExit < place.toExit) : toExit m s' < toExit m s := by
  have hsum := Threads.total_update s.workers WorkerPlace.toExit hw place'
  rw [hplace] at hsum
  rw [toExit, toExit, hworkers]
  omega

/-- A step leaves the workers where they are, or brings one closer to its exit. -/
theorem workers_or_lt (hclosed : Closed s) (hmoves : Moves m s act s') :
    s'.workers = s.workers ∨ toExit m s' < toExit m s := by
  obtain ⟨hwork, hret⟩ := hclosed
  cases hmoves with
  | readWait hw hplace => exact .inr (toExit_lt _ hw hplace rfl (Nat.lt_succ_self 1))
  | read hw hplace htakes => exact absurd htakes (not_takes hwork)
  | exit hw hplace => exact .inr (toExit_lt _ hw hplace rfl (Nat.lt_succ_self 0))
  | writeWait hw hplace => exact .inr (toExit_lt _ hw hplace rfl (Nat.lt_succ_self 3))
  | write hw hplace hputs => exact absurd hputs (not_puts hret)
  | loseResult hw hplace => exact .inr (toExit_lt _ hw hplace rfl (Nat.lt_succ_self 2))
  | finish hw hplace => exact .inr (toExit_lt _ hw hplace rfl (Nat.lt_succ_self 4))
  | _ => exact .inl rfl

/-- A worker that has not exited moves when it is its turn. -/
theorem turn_lt (hclosed : Closed s) {w : Nat} (hw : w < m.numWorkers)
    (hpresent : s.workers w ≠ .exited)
    (hturn : (act = .worker w ∧ ∀ kgmt, s.workers w ≠ .executing kgmt) ∨
      ∃ kgmt processed, s.workers w = .executing kgmt ∧ act = .finish w processed) :
    toExit m (kgmGo (mailboxCalls _) m s act) < toExit m s := by
  obtain ⟨hwork, hret⟩ := hclosed
  have hreadable : s.workqueue.readable = true := by rw [Mailbox.readable, hwork, Bool.true_or]
  have hwritable : s.retqueue.writable = true := by rw [Mailbox.writable, hret, Bool.true_or]
  rcases hturn with ⟨rfl, hidle⟩ | ⟨kgmt, processed, hplace, rfl⟩
  -- both queues were popped, so that no wait holds the worker and no attempt succeeds
  · cases hplace : s.workers w with
    | reading gate =>
      cases gate with
      | waiting =>
        refine toExit_lt (.reading .locking) hw hplace ?_ (Nat.lt_succ_self 1)
        simp only [kgmGo, kgmStep, if_pos hw, KgmSystem.stepWorker, hplace, mailboxCalls, hreadable]
        rfl
      | locking =>
        have htake : s.workqueue.take = (s.workqueue, none) := if_pos hwork
        refine toExit_lt (.exited) hw hplace ?_ (Nat.lt_succ_self 0)
        simp only [kgmGo, kgmStep, if_pos hw, KgmSystem.stepWorker, hplace, mailboxCalls, htake]
        rfl
    | executing kgmt => exact absurd hplace (hidle kgmt)
    | writing kgmt gate =>
      cases gate with
      | waiting =>
        refine toExit_lt (.writing kgmt .locking) hw hplace ?_ (Nat.lt_succ_self 3)
        simp only [kgmGo, kgmStep, if_pos hw, KgmSystem.stepWorker, hplace, mailboxCalls, hwritable]
        rfl
      | locking =>
        have hput : s.retqueue.put kgmt = (s.retqueue, false) := if_pos hret
        refine toExit_lt (.reading .waiting) hw hplace ?_ (Nat.lt_succ_self 2)
        simp only [kgmGo, kgmStep, if_pos hw, KgmSystem.stepWorker, hplace, mailboxCalls, hput]
        rfl
    | exited => exact absurd hplace hpresent
  · refine toExit_lt (.writing { kgmt with numNodesExecuted := processed } .waiting) hw hplace ?_
      (Nat.lt_succ_self 4)
    simp only [kgmGo, kgmStep, if_pos hw, KgmSystem.finish, hplace]
    rfl

/-- The workers stay where they are, or one comes closer to its exit. -/
theorem workers_after_or_lt {acts : Nat → KgmAct a} {n : Nat}
    (hclosed : ∀ k, Closed (Schedule.after (kgmGo (mailboxCalls _) m) s acts k)) (d : Nat) :
    (Schedule.after (kgmGo (mailboxCalls _) m) s acts (n + d)).workers =
        (Schedule.after (kgmGo (mailboxCalls _) m) s acts n).workers ∨
      ∃ k, n ≤ k ∧ toExit m (Schedule.after (kgmGo (mailboxCalls _) m) s acts (k + 1)) <
        toExit m (Schedule.after (kgmGo (mailboxCalls _) m) s acts k) := by
  induction d with
  | zero => exact .inl rfl
  | succ d ih =>
    rcases ih with hsame | hcloser
    · rcases workers_or_lt (hclosed (n + d)) (kgmGo_moves m _ (acts (n + d))) with hstays | hcloser
      · exact .inl (hstays.trans hsame)
      · exact .inr ⟨n + d, Nat.le_add_right _ _, hcloser⟩
    · exact .inr hcloser

/-- As long as some worker has not exited, one comes closer to its exit. -/
theorem exists_closer {acts : Nat → KgmAct a} (hfair : FairToWorkers m acts)
    (hclosed : ∀ k, Closed (Schedule.after (kgmGo (mailboxCalls _) m) s acts k)) (n : Nat)
    (hpos : 0 < toExit m (Schedule.after (kgmGo (mailboxCalls _) m) s acts n)) :
    ∃ k, n ≤ k ∧ toExit m (Schedule.after (kgmGo (mailboxCalls _) m) s acts (k + 1)) <
      toExit m (Schedule.after (kgmGo (mailboxCalls _) m) s acts k) := by
  obtain ⟨w, hw, hfar⟩ : ∃ w < m.numWorkers, WorkerPlace.toExit
      ((Schedule.after (kgmGo (mailboxCalls _) m) s acts n).workers w) ≠ 0 := by
    by_contra hnone
    push Not at hnone
    exact Nat.ne_of_gt hpos (Threads.total_eq_zero_iff.mpr hnone)
  have hpresent : (Schedule.after (kgmGo (mailboxCalls _) m) s acts n).workers w ≠ .exited := by
    intro hexited
    rw [hexited] at hfar
    exact hfar rfl
  -- If no worker has moved before its turn, this one moves then.
  have hturn : ∃ k, n ≤ k ∧
      ((Schedule.after (kgmGo (mailboxCalls _) m) s acts k).workers =
        (Schedule.after (kgmGo (mailboxCalls _) m) s acts n).workers →
      toExit m (Schedule.after (kgmGo (mailboxCalls _) m) s acts (k + 1)) <
        toExit m (Schedule.after (kgmGo (mailboxCalls _) m) s acts k)) := by
    obtain ⟨⟨k, hk, hact⟩, k', processed, hk', hact'⟩ := hfair w hw n
    by_cases hexecuting : ∃ kgmt,
        (Schedule.after (kgmGo (mailboxCalls _) m) s acts n).workers w = .executing kgmt
    · obtain ⟨kgmt, hplace⟩ := hexecuting
      refine ⟨k', hk', fun hsame => turn_lt (hclosed k') hw (hsame ▸ hpresent) (.inr ?_)⟩
      exact ⟨kgmt, processed, hsame ▸ hplace, hact'⟩
    · refine ⟨k, hk, fun hsame => turn_lt (hclosed k) hw (hsame ▸ hpresent) (.inl ⟨hact, ?_⟩)⟩
      intro kgmt hplace
      exact hexecuting ⟨kgmt, hsame ▸ hplace⟩
  obtain ⟨k, hk, hlower⟩ := hturn
  obtain ⟨d, rfl⟩ := Nat.exists_eq_add_of_le hk
  rcases workers_after_or_lt (n := n) hclosed d with hsame | hcloser
  · exact ⟨n + d, hk, hlower hsame⟩
  · exact hcloser

/-- Over closed mailboxes all workers exit in the end. -/
theorem exists_all_exited (hclosed : Closed s) {acts : Nat → KgmAct a} (hfair : FairToWorkers m acts) :
    ∃ n, ∀ w < m.numWorkers,
      (Schedule.after (kgmGo (mailboxCalls _) m) s acts n).workers w = .exited := by
  have hkeep : ∀ (s : MailSystem a) act, Closed s → Closed (kgmGo (mailboxCalls _) m s act) :=
    fun s act h => h.step (kgmGo_moves m s act)
  have hle : ∀ (s : MailSystem a) act, Closed s →
      toExit m (kgmGo (mailboxCalls _) m s act) ≤ toExit m s := by
    intro s act h
    rcases workers_or_lt h (kgmGo_moves m s act) with hsame | hcloser
    · rw [toExit, toExit, hsame]
    · exact Nat.le_of_lt hcloser
  have hafter := Schedule.after_invariant hkeep hclosed acts
  obtain ⟨n, -, -, hzero⟩ := Schedule.eventually_zero (toExit m) hkeep hle (hafter 0)
    fun n _ _ hpos =>
      let ⟨k, hk, hcloser⟩ := exists_closer hfair hafter n hpos
      ⟨k, hk, fun _ => hcloser⟩
  refine ⟨n, fun w hw => ?_⟩
  have hexit := Threads.total_eq_zero_iff.mp hzero w hw
  cases hplace : (Schedule.after (kgmGo (mailboxCalls _) m) s acts n).workers w with
  | exited => rfl
  | reading gate =>
    rw [hplace] at hexit
    cases gate <;> cases hexit
  | executing kgmt =>
    rw [hplace] at hexit
    cases hexit
  | writing kgmt gate =>
    rw [hplace] at hexit
    cases gate <;> cases hexit

end Mailboxes

/-- The popped queues behave as closed mailboxes. -/
theorem exists_closed {workqueue retqueue : Queue} (hcreate : CreatesQueues a workqueue retqueue)
    {numCallers : Nat} {acts : List (KgmAct a)} {s : KgmSystem Queue a} {answers : List Unit}
    (hrun : Machine.run (kgmStep (sosalCalls a) m) (.init workqueue retqueue numCallers) acts =
      .ok (s, answers))
    (hwork : s.workqueue.popped = true) (hret : s.retqueue.popped = true) :
    ∃ t : MailSystem a, SameManager s t ∧ Closed t := by
  obtain ⟨s₁, t, rs, hrunS, -, hsame⟩ := (kgm_lockstep m).run (hcreate.same numCallers) acts
  cases hrun.symm.trans hrunS
  refine ⟨t, hsame, ?_⟩
  obtain ⟨work, ret, hmirrorW, hmirrorR, rfl⟩ := hsame
  exact ⟨hmirrorW.popped.symm.trans hwork, hmirrorR.popped.symm.trans hret⟩

/-- Until the queues are destroyed, and after that, no call gets a result. -/
theorem stranded_of_run {s : KgmSystem Queue a} {t : MailSystem a} (hsame : SameManager s t)
    (hclosed : Closed t) {acts : List (DeinitAct a)} {d : Deinitializing Queue a} {answers : List Unit}
    (hrun : Machine.run (deinitStep (sosalCalls a) m) ⟨s, false⟩ acts = .ok (d, answers)) :
    Stranded m s d.system := by
  have hstart : Stranded m t t :=
    ⟨⟨[], (List.append_nil _).symm, fun r hr => absurd hr List.not_mem_nil⟩, fun _ _ _ => rfl⟩
  obtain ⟨t', hsame', -, hstranded⟩ := Machine.run_invariant_of_ok (C := fun _ _ => True)
    (I := fun d : Deinitializing Queue a =>
      ∃ t', SameManager d.system t' ∧ Closed t' ∧ Stranded m t t')
    (by
      rintro d act d' r ⟨t₁, hsame₁, hclosed₁, hstranded₁⟩ - hstep
      rcases exists_of_deinitStep_eq_ok hstep with heq | ⟨act', hstep'⟩
      · exact ⟨t₁, heq ▸ hsame₁, hclosed₁, hstranded₁⟩
      · obtain ⟨s₂, t₂, r₂, hs₂, ht₂, hsame₂⟩ := kgm_lockstep m d.system t₁ act' hsame₁
        cases hstep'.symm.trans hs₂
        obtain ⟨t₃, ht₃, hmoves⟩ := kgmStep_moves m t₁ act'
        cases ht₂.symm.trans ht₃
        exact ⟨t₂, hsame₂, hclosed₁.step hmoves, hstranded₁.step hclosed₁ hmoves⟩)
    ⟨t, hsame, hclosed, hstart⟩ (Machine.meets_of_forall fun _ _ _ => trivial) hrun
  obtain ⟨work, ret, -, -, rfl⟩ := hsame
  obtain ⟨work', ret', -, -, rfl⟩ := hsame'
  exact ⟨hstranded.returns, hstranded.awaits⟩

/-- After any run of a manager that leaves both queues popped, its calls get no result any more: what
is returned from then on is 0, and a call of the CPU manager that awaits a result goes on to await it. Once
the joins have returned and the queues are destroyed, the next step of a call that is in progress uses a
queue that was freed. In every schedule that is fair to the workers all of them exit, so that the joins
return. -/
theorem kgm_deinit {workqueue retqueue : Queue} (hcreate : CreatesQueues a workqueue retqueue)
    {numCallers : Nat} {acts : List (KgmAct a)} {s : KgmSystem Queue a} {answers : List Unit}
    (hrun : Machine.run (kgmStep (sosalCalls a) m) (.init workqueue retqueue numCallers) acts =
      .ok (s, answers))
    (hwork : s.workqueue.popped = true) (hret : s.retqueue.popped = true) :
    (∀ later d answers', Machine.run (deinitStep (sosalCalls a) m) ⟨s, false⟩ later = .ok (d, answers') →
      Stranded m s d.system ∧
        (d.destroyed = true → ∀ c < d.system.numCallers, d.system.callers c ≠ .outside →
          deinitStep (sosalCalls a) m d (.go (.caller c)) = .error .badPointer)) ∧
      ∀ later, FairToWorkers m later → ∃ n, ∀ w < m.numWorkers,
        (Schedule.after (kgmGo (sosalCalls a) m) s later n).workers w = .exited := by
  obtain ⟨t, hsame, hclosed⟩ := exists_closed hcreate hrun hwork hret
  constructor
  · intro later d answers' hlater
    exact ⟨stranded_of_run hsame hclosed hlater,
      fun hdestroyed c hc hplace => deinitStep_caller hdestroyed hc hplace⟩
  · intro later hfair
    -- from here on both managers go in lockstep
    have hafter : ∀ n, SameManager (Schedule.after (kgmGo (sosalCalls a) m) s later n)
        (Schedule.after (kgmGo (mailboxCalls _) m) t later n) := by
      intro n
      induction n with
      | zero => exact hsame
      | succ n ih =>
        obtain ⟨s', t', r, hs, ht, hsame'⟩ := kgm_lockstep m _ _ (later n) ih
        rw [Schedule.after, Schedule.after, kgmGo, kgmGo, hs, ht]
        exact hsame'
    obtain ⟨n, hall⟩ := exists_all_exited hclosed hfair
    refine ⟨n, fun w hw => ?_⟩
    obtain ⟨work, ret, -, -, htn⟩ := hafter n
    have hexited := hall w hw
    rw [htn] at hexited
    exact hexited

/-- A caller of a CPU manager awaits the result of what a worker executes, and the queues are popped. -/
def awaitThenPop : List (KgmAct .arch32) :=
  [.call 0 4096 0 3, .caller 0, .caller 0, .worker 0, .worker 0, .popWork, .popRet]

/-- The two workers and the caller take turns. -/
def takeTurns : Nat → KgmAct .arch32 := fun n =>
  match n % 5 with
  | 0 => .worker 0
  | 1 => .finish 0 3
  | 2 => .worker 1
  | 3 => .finish 1 3
  | _ => .caller 0

theorem fairToWorkers_takeTurns : FairToWorkers (.cpu 2) takeTurns := by
  have hturn : ∀ n i, i < 5 → takeTurns (5 * n + i) = takeTurns i := by
    intro n i hi
    rw [takeTurns, takeTurns, Nat.mul_add_mod, Nat.mod_eq_of_lt hi]
  intro w hw n
  obtain rfl | rfl : w = 0 ∨ w = 1 := by
    have : w < 2 := hw
    omega
  · exact ⟨⟨5 * n + 0, by omega, hturn n 0 (by decide)⟩, 5 * n + 1, 3, by omega, hturn n 1 (by decide)⟩
  · exact ⟨⟨5 * n + 2, by omega, hturn n 2 (by decide)⟩, 5 * n + 3, 3, by omega, hturn n 3 (by decide)⟩

theorem kgm_deinit_one :
    ∃ workqueue retqueue s answers, CreatesQueues .arch32 workqueue retqueue ∧
      Machine.run (kgmStep (sosalCalls .arch32) (.cpu 2)) (.init workqueue retqueue 1) awaitThenPop =
        .ok (s, answers) ∧
      (∀ later d answers',
        Machine.run (deinitStep (sosalCalls .arch32) (.cpu 2)) ⟨s, false⟩ later = .ok (d, answers') →
        Stranded (.cpu 2) s d.system ∧
          (d.destroyed = true → ∀ c < d.system.numCallers, d.system.callers c ≠ .outside →
            deinitStep (sosalCalls .arch32) (.cpu 2) d (.go (.caller c)) = .error .badPointer)) ∧
      ∃ n, ∀ w < 2,
        (Schedule.after (kgmGo (sosalCalls .arch32) (.cpu 2)) s takeTurns n).workers w = .exited := by
  have hcreate : CreatesQueues .arch32 _ _ := ⟨⟨some 4096, rfl⟩, ⟨some 8192, rfl⟩⟩
  obtain ⟨s, t, answers, hrun, hrunT, work, ret, hmirrorW, hmirrorR, ht⟩ :=
    (kgm_lockstep (.cpu 2)).run (hcreate.same 1) awaitThenPop
  cases hrunT.symm.trans (rfl : Machine.run _ _ awaitThenPop = .ok _)
  have hwork : s.workqueue.popped = true :=
    hmirrorW.popped.trans (congrArg (fun t : MailSystem .arch32 => t.workqueue.closed) ht).symm
  have hret : s.retqueue.popped = true :=
    hmirrorR.popped.trans (congrArg (fun t : MailSystem .arch32 => t.retqueue.closed) ht).symm
  obtain ⟨hlater, hexit⟩ := kgm_deinit hcreate hrun hwork hret
  exact ⟨_, _, s, _, hcreate, hrun, hlater, hexit takeTurns fairToWorkers_takeTurns⟩

end DVP.Kgm
