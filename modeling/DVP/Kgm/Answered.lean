import DVP.Kgm.Ledger
import DVP.Lib.Lockstep
import Mathlib.Data.List.Perm.Subperm

/-!
# What the callers of a manager get

`KgmSound` says what the callers of `DVP_KernelGraphManager` rely on: a call that returned has the
result of an execution of its own nodes, no result goes to two calls or is lost, and some worker is
still there. With no more calls at a time than the queues have room for, and as long as no queue is
popped, this holds of the mailbox model in every run in which no caller gives up (`mail_sound_iff`). A
caller of the CPU manager never gives up, and one of the other two does when another caller took the
result both were woken for.
-/

namespace DVP.Kgm

open DVP.Sosal (Arch Fault)

variable {a : Arch} {m : Manager} {Q : Type}

/-- Whether a call is in progress. -/
def CallerPlace.active : CallerPlace a → Nat
  | .outside => 0
  | _ => 1

/-- The number of the calls in progress. -/
def KgmSystem.active (s : KgmSystem Q a) : Nat :=
  Threads.total s.numCallers s.callers CallerPlace.active

theorem KgmSystem.active_le (s : KgmSystem Q a) : s.active ≤ s.numCallers := by
  refine (Threads.total_le (b := 1) fun c _ => ?_).trans (Nat.mul_one _).le
  cases s.callers c <;> simp [CallerPlace.active]

/-- A call starts only while fewer than `capacity` are in progress, and no queue is popped. -/
def Quiet (capacity : Nat) (s : KgmSystem Q a) : KgmAct a → Prop
  | .call .. => s.active < capacity
  | .popWork => False
  | .popRet => False
  | _ => True

/-- A caller that does not try again finds something to read when it has the lock of `retqueue`. -/
def FindsResult (calls : QueueCalls Q (KgmThread a)) (m : Manager) (s : KgmSystem Q a) :
    KgmAct a → Prop
  | .caller c => m.retries = true ∨ ∀ kgmt, c < s.numCallers →
      s.callers c = .collecting kgmt .locking → calls.readEvent s.retqueue = true
  | _ => True

/-- What callers rely on. -/
structure KgmSound (m : Manager) (s : KgmSystem Q a) : Prop where
  /-- A call that returned has a result of its own nodes. -/
  answered : ∀ r ∈ s.returns, ∃ kgmr, r.outcome = .result kgmr ∧ kgmr.nodes = r.kgmt.nodes
  /-- Every execution answers at most one call. -/
  once : (s.returns.filterMap Returned.result?).Subperm s.executed
  /-- Nothing is executed that no call asked for. -/
  asked : (s.executed.map KgmThread.nodes).Subperm (s.accepted.map KgmThread.nodes)
  kept : s.lost = []
  /-- Between the calls everything that was asked for has been executed and answered. -/
  complete : (∀ c < s.numCallers, s.callers c = .outside) →
    s.executed.Perm (s.returns.filterMap Returned.result?) ∧
      (s.accepted.map KgmThread.nodes).Perm (s.executed.map KgmThread.nodes)
  staffed : ∃ w < m.numWorkers, s.workers w ≠ .exited

/-! ## The invariant -/

variable {s s' : MailSystem a} {act : KgmAct a} {capacity : Nat}

/-- Whether a worker is neither gone nor about to find out if there is an item. -/
def WorkerPlace.spare : WorkerPlace a → Nat
  | .reading .locking => 0
  | .exited => 0
  | _ => 1

/-- Whether a worker is about to find out if there is an item. -/
def WorkerPlace.peers : WorkerPlace a → Nat
  | .reading .locking => 1
  | _ => 0

/-- Both mailboxes are open and have this capacity. -/
structure Ready (capacity : Nat) (s : MailSystem a) : Prop where
  workOpen : s.workqueue.closed = false
  retOpen : s.retqueue.closed = false
  workCapacity : s.workqueue.fifo.capacity = capacity
  retCapacity : s.retqueue.fifo.capacity = capacity

/-- Not all workers are about to find out that there is no item. -/
structure Staffed (m : Manager) (s : MailSystem a) : Prop where
  spare : s.workqueue.items = [] → 1 ≤ Threads.total m.numWorkers s.workers WorkerPlace.spare
  present : 1 ≤ Threads.total m.numWorkers s.workers WorkerPlace.spare +
    Threads.total m.numWorkers s.workers WorkerPlace.peers

/-- What every step keeps in a run without pops, full queues and callers that give up. -/
structure Kept (m : Manager) (capacity : Nat) (s : MailSystem a) : Prop where
  ledger : Ledger m s
  ready : Ready capacity s
  load : s.active ≤ capacity
  staffed : Staffed m s
  answered : ∀ r ∈ s.returns, ∃ kgmr, r.outcome = .result kgmr ∧ kgmr.nodes = r.kgmt.nodes
  kept : s.lost = []

/-- A call in progress issues an item or awaits a result. -/
theorem active_eq (s : MailSystem a) :
    s.active = countAt s.numCallers s.callers CallerPlace.issues (fun _ => true) +
      countAt s.numCallers s.callers CallerPlace.awaits (fun _ => true) := by
  rw [countAt, countAt, ← Threads.total_add, KgmSystem.active]
  congr 1
  funext place
  cases place <;> rfl

/-- The results that went to callers are as many as the calls that returned. -/
theorem served_eq_result {returns : List (Returned a)}
    (h : ∀ r ∈ returns, ∃ kgmr, r.outcome = .result kgmr ∧ kgmr.nodes = r.kgmt.nodes) :
    (returns.filterMap Returned.served?).map KgmThread.nodes =
      (returns.filterMap Returned.result?).map KgmThread.nodes := by
  induction returns with
  | nil => rfl
  | cons r returns ih =>
    obtain ⟨kgmr, hresult, hnodes⟩ := h r List.mem_cons_self
    have hserved : r.served? = some r.kgmt := by rw [Returned.served?, hresult]
    have hgot : r.result? = some kgmr := by rw [Returned.result?, hresult]
    rw [List.filterMap_cons_some hserved, List.filterMap_cons_some hgot, List.map_cons,
      List.map_cons, hnodes, ih fun r' hr' => h r' (List.mem_cons_of_mem _ hr')]

/-- Counting by the nodes is counting among the nodes. -/
theorem countP_nodes (p : NodesKey a → Bool) (items : List (KgmThread a)) :
    items.countP (p ·.nodes) = (items.map KgmThread.nodes).countP p := by
  rw [List.countP_map]
  rfl

namespace Kept

/-- What was accepted is under way or went to a caller. -/
theorem under_way (h : Kept m capacity s) (p : NodesKey a → Bool) :
    countAt s.numCallers s.callers CallerPlace.awaits (p ·.nodes) =
      s.workqueue.items.countP (p ·.nodes) +
        countAt m.numWorkers s.workers WorkerPlace.executes (p ·.nodes) +
        countAt m.numWorkers s.workers WorkerPlace.holds (p ·.nodes) +
        s.retqueue.items.countP (p ·.nodes) +
        countAt s.numCallers s.callers CallerPlace.holds (p ·.nodes) := by
  have hwork := h.ledger.work p
  have hresults := h.ledger.results (p ·.nodes)
  have hcallers := h.ledger.callers p
  rw [h.kept, List.countP_nil] at hresults
  rw [countP_nodes p (s.returns.filterMap _), ← served_eq_result h.answered, ← countP_nodes] at hresults
  omega

/-- The items that are under way, the calls about to issue one included, are no more than the
capacity. -/
theorem load_le (h : Kept m capacity s) :
    s.workqueue.items.length + s.retqueue.items.length +
      countAt m.numWorkers s.workers WorkerPlace.holds (fun _ => true) +
      countAt s.numCallers s.callers CallerPlace.holds (fun _ => true) +
      countAt s.numCallers s.callers CallerPlace.issues (fun _ => true) ≤ capacity := by
  have hway := h.under_way fun _ => true
  have hload := h.load
  rw [active_eq] at hload
  simp only [List.countP_true] at hway
  omega

/-- There is room for the item of a call. -/
theorem not_refuses_work {c : Nat} {kgmt : KgmThread a} {gate : Gate} (h : Kept m capacity s)
    (hc : c < s.numCallers) (hplace : s.callers c = .issuing kgmt gate) :
    ¬Refuses s.workqueue := by
  have hle := h.load_le
  have hone := Threads.le_total s.callers
    (fun place => (CallerPlace.issues place).countP fun _ => true) hc
  rw [hplace] at hone
  change 1 ≤ countAt s.numCallers s.callers CallerPlace.issues _ at hone
  rintro (hclosed | hfull)
  · rw [h.ready.workOpen] at hclosed
    cases hclosed
  · rw [h.ready.workCapacity] at hfull
    omega

/-- There is room for a result that a caller puts back. -/
theorem not_refuses_back {c : Nat} {kgmt kgmr : KgmThread a} {gate : Gate} (h : Kept m capacity s)
    (hc : c < s.numCallers) (hplace : s.callers c = .returning kgmt kgmr gate) :
    ¬Refuses s.retqueue := by
  have hle := h.load_le
  have hone := Threads.le_total s.callers
    (fun place => (CallerPlace.holds place).countP fun _ => true) hc
  rw [hplace] at hone
  change 1 ≤ countAt s.numCallers s.callers CallerPlace.holds _ at hone
  rintro (hclosed | hfull)
  · rw [h.ready.retOpen] at hclosed
    cases hclosed
  · rw [h.ready.retCapacity] at hfull
    omega

/-- There is room for the result of a worker. -/
theorem not_refuses_result {w : Nat} {kgmt : KgmThread a} {gate : Gate} (h : Kept m capacity s)
    (hw : w < m.numWorkers) (hplace : s.workers w = .writing kgmt gate) :
    ¬Refuses s.retqueue := by
  have hle := h.load_le
  have hone := Threads.le_total s.workers
    (fun place => (WorkerPlace.holds place).countP fun _ => true) hw
  rw [hplace] at hone
  change 1 ≤ countAt m.numWorkers s.workers WorkerPlace.holds _ at hone
  rintro (hclosed | hfull)
  · rw [h.ready.retOpen] at hclosed
    cases hclosed
  · rw [h.ready.retCapacity] at hfull
    omega

end Kept

/-- The mailboxes stay open. -/
theorem Ready.step (h : Ready capacity s) (hquiet : Quiet capacity s act)
    (hmoves : Moves m s act s') : Ready capacity s' := by
  obtain ⟨hwork, hret, hworkCap, hretCap⟩ := h
  cases hmoves with
  | issue hc hplace hputs => exact ⟨hputs.isOpen, hret, hputs.capacity.trans hworkCap, hretCap⟩
  | read hw hplace htakes => exact ⟨htakes.isOpen, hret, htakes.capacity.trans hworkCap, hretCap⟩
  | collectOwn hc hplace htakes =>
    exact ⟨hwork, htakes.isOpen, hworkCap, htakes.capacity.trans hretCap⟩
  | collectOther hc hplace htakes =>
    exact ⟨hwork, htakes.isOpen, hworkCap, htakes.capacity.trans hretCap⟩
  | putBack hc hplace hputs => exact ⟨hwork, hputs.isOpen, hworkCap, hputs.capacity.trans hretCap⟩
  | write hw hplace hputs => exact ⟨hwork, hputs.isOpen, hworkCap, hputs.capacity.trans hretCap⟩
  | popWork => exact hquiet.elim
  | popRet => exact hquiet.elim
  | _ => exact ⟨hwork, hret, hworkCap, hretCap⟩

/-- A caller that moves on inside its call is one call in progress as before. -/
theorem active_update {c : Nat} {place : CallerPlace a} (hc : c < s.numCallers)
    (hplace : s.callers c = place) (place' : CallerPlace a) :
    Threads.total s.numCallers (Function.update s.callers c place') CallerPlace.active +
      place.active = s.active + place'.active := by
  have hsum := Threads.total_update s.callers CallerPlace.active hc place'
  rwa [hplace] at hsum

/-- No more calls are in progress than the queues have room for. -/
theorem load_step (h : s.active ≤ capacity) (hquiet : Quiet capacity s act)
    (hmoves : Moves m s act s') : s'.active ≤ capacity := by
  have hstays : ∀ {c : Nat} {place place' : CallerPlace a}, c < s.numCallers →
      s.callers c = place → place'.active ≤ place.active →
      Threads.total s.numCallers (Function.update s.callers c place') CallerPlace.active ≤
        capacity := by
    intro c place place' hc hplace hle
    have hsum := active_update hc hplace place'
    omega
  cases hmoves with
  | call hc hplace pSubNodes startNode numNodes =>
    have hsum := active_update hc hplace (.issuing ⟨pSubNodes, startNode, numNodes, 0⟩ .waiting)
    simp only [CallerPlace.active] at hsum
    simp only [Quiet] at hquiet
    simp only [KgmSystem.active, KgmSystem.setCaller] at hsum hquiet ⊢
    omega
  | issueWait hc hplace => exact hstays hc hplace (Nat.le_refl 1)
  | issue hc hplace => exact hstays hc hplace (Nat.le_refl 1)
  | refuse hc hplace => exact hstays hc hplace (Nat.zero_le 1)
  | collectWait hc hplace => exact hstays hc hplace (Nat.le_refl 1)
  | collectOwn hc hplace => exact hstays hc hplace (Nat.zero_le 1)
  | collectOther hc hplace => exact hstays hc hplace (Nat.le_refl 1)
  | retry hc hplace => exact hstays hc hplace (Nat.le_refl 1)
  | giveUp hc hplace => exact hstays hc hplace (Nat.zero_le 1)
  | returnWait hc hplace => exact hstays hc hplace (Nat.le_refl 1)
  | putBack hc hplace => exact hstays hc hplace (Nat.le_refl 1)
  | loseOther hc hplace => exact hstays hc hplace (Nat.le_refl 1)
  | _ => exact h

namespace Staffed

/-- A worker that moves while `workqueue` keeps its items. -/
theorem of_worker {w : Nat} {place place' : WorkerPlace a} (h : Staffed m s) (hw : w < m.numWorkers)
    (hplace : s.workers w = place) {s' : MailSystem a}
    (hworkers : s'.workers = Function.update s.workers w place')
    (hitems : s'.workqueue.items = [] → s.workqueue.items = [])
    (hspare : place'.spare = place.spare) (hpeers : place'.peers = place.peers) :
    Staffed m s' := by
  have hsum := Threads.total_update s.workers WorkerPlace.spare hw place'
  have hsum' := Threads.total_update s.workers WorkerPlace.peers hw place'
  rw [hplace, hspare] at hsum
  rw [hplace, hpeers] at hsum'
  refine ⟨fun hempty => ?_, ?_⟩
  · have hspare := h.spare (hitems hempty)
    rw [hworkers]
    omega
  · have hpresent := h.present
    rw [hworkers]
    omega

/-- A worker is left, whatever the workers do. -/
theorem step (h : Staffed m s) (hopen : s.workqueue.closed = false) (hmoves : Moves m s act s') :
    Staffed m s' := by
  cases hmoves with
  | issue hc hplace hputs =>
    refine ⟨fun hempty => ?_, h.present⟩
    have hitems := hputs.items.symm.trans hempty
    simp at hitems
  | @readWait w hw hplace hready =>
    have hitems := (Mailbox.readable_iff hopen).mp hready
    have hsum := Threads.total_update s.workers WorkerPlace.spare hw (.reading .locking)
    have hsum' := Threads.total_update s.workers WorkerPlace.peers hw (.reading .locking)
    rw [hplace] at hsum hsum'
    simp only [WorkerPlace.spare, WorkerPlace.peers] at hsum hsum'
    refine ⟨fun hempty => absurd hempty hitems, ?_⟩
    have hpresent := h.present
    simp only [KgmSystem.setWorker]
    omega
  | @read w kgmt q' hw hplace htakes =>
    have hsum := Threads.total_update s.workers WorkerPlace.spare hw
      (.executing { kgmt with numNodesExecuted := 0 })
    rw [hplace] at hsum
    simp only [WorkerPlace.spare] at hsum
    refine ⟨fun _ => ?_, ?_⟩
    · simp only [KgmSystem.setWorker]
      omega
    · simp only [KgmSystem.setWorker]
      omega
  | @exit w hw hplace hempty =>
    -- the worker lost a race for the last item, so another worker took it
    have hitems : s.workqueue.items = [] := hempty.resolve_left (by simp [hopen])
    have hspare := h.spare hitems
    have hsum := Threads.total_update s.workers WorkerPlace.spare hw .exited
    rw [hplace] at hsum
    simp only [WorkerPlace.spare] at hsum
    refine ⟨fun _ => ?_, ?_⟩
    · simp only [KgmSystem.setWorker]
      omega
    · simp only [KgmSystem.setWorker]
      omega
  | writeWait hw hplace => exact h.of_worker hw hplace rfl id rfl rfl
  | write hw hplace => exact h.of_worker hw hplace rfl id rfl rfl
  | loseResult hw hplace => exact h.of_worker hw hplace rfl id rfl rfl
  | finish hw hplace => exact h.of_worker hw hplace rfl id rfl rfl
  | _ => exact ⟨h.spare, h.present⟩

/-- Some worker has not exited. -/
theorem exists_worker (h : Staffed m s) : ∃ w < m.numWorkers, s.workers w ≠ .exited := by
  by_contra hnone
  push Not at hnone
  have hspare : Threads.total m.numWorkers s.workers WorkerPlace.spare = 0 :=
    Threads.total_eq_zero_iff.mpr fun w hw => by rw [hnone w hw]; rfl
  have hpeers : Threads.total m.numWorkers s.workers WorkerPlace.peers = 0 :=
    Threads.total_eq_zero_iff.mpr fun w hw => by rw [hnone w hw]; rfl
  have hpresent := h.present
  omega

end Staffed

namespace Kept

/-- A call that returns with a result of its own nodes joins those that did. -/
theorem answered_append (h : Kept m capacity s) {kgmt kgmr : KgmThread a}
    (hown : kgmt.nodes = kgmr.nodes) :
    ∀ r ∈ s.returns ++ [⟨kgmt, .result kgmr⟩],
      ∃ kgmr, r.outcome = .result kgmr ∧ kgmr.nodes = r.kgmt.nodes := by
  intro r hr
  rcases List.mem_append.mp hr with hr | hr
  · exact h.answered r hr
  · rw [List.mem_singleton.mp hr]
    exact ⟨kgmr, rfl, hown.symm⟩

/-- The mailbox of results has one when its readers go on. -/
theorem not_withholds (h : Kept m capacity s) (hready : s.retqueue.readable = true) :
    ¬Withholds s.retqueue := by
  rintro (hclosed | hempty)
  · rw [h.ready.retOpen] at hclosed
    cases hclosed
  · exact (Mailbox.readable_iff h.ready.retOpen).mp hready hempty

/-- Every step in a run without pops, full queues and callers that give up keeps the invariant. -/
theorem step (h : Kept m capacity s) (hquiet : Quiet capacity s act)
    (hfinds : FindsResult (mailboxCalls _) m s act) (hmoves : Moves m s act s') :
    Kept m capacity s' := by
  have hledger := h.ledger.step hmoves
  have hready := h.ready.step hquiet hmoves
  have hload := load_step h.load hquiet hmoves
  have hstaffed := h.staffed.step h.ready.workOpen hmoves
  refine ⟨hledger, hready, hload, hstaffed, ?_, ?_⟩
  · cases hmoves with
    | refuse hc hplace hfull => exact absurd hfull (h.not_refuses_work hc hplace)
    | collectOwn hc hplace htakes hown => exact h.answered_append hown
    | giveUp hc hplace hempty hretries =>
      rcases hfinds with htries | hfinds
      · rw [hretries] at htries
        cases htries
      · exact absurd hempty (h.not_withholds (hfinds _ hc hplace))
    | _ => exact h.answered
  · cases hmoves with
    | loseOther hc hplace hfull => exact absurd hfull (h.not_refuses_back hc hplace)
    | loseResult hw hplace hfull => exact absurd hfull (h.not_refuses_result hw hplace)
    | _ => exact h.kept

/-- A manager that was just created. -/
theorem init (m : Manager) (hworkers : 0 < m.numWorkers) (capacity numCallers : Nat) :
    Kept m capacity (KgmSystem.init (.create capacity) (.create capacity) numCallers :
      MailSystem a) := by
  have hspare : 1 ≤ Threads.total m.numWorkers (fun _ => (.reading .waiting : WorkerPlace a))
      WorkerPlace.spare :=
    Threads.le_total (fun _ => (.reading .waiting : WorkerPlace a)) WorkerPlace.spare hworkers
  refine ⟨.init m capacity numCallers, ⟨rfl, rfl, rfl, rfl⟩, ?_, ⟨fun _ => hspare, ?_⟩, ?_, rfl⟩
  · exact (Threads.total_eq_zero_of_forall fun _ => rfl).trans_le (Nat.zero_le _)
  · exact Nat.le_add_right_of_le hspare
  · exact fun r hr => absurd hr List.not_mem_nil

/-- Without calls in progress the callers neither await results nor hold any. -/
theorem idle_counts (hidle : ∀ c < s.numCallers, s.callers c = .outside)
    (p : KgmThread a → Bool) :
    countAt s.numCallers s.callers CallerPlace.awaits p = 0 ∧
      countAt s.numCallers s.callers CallerPlace.holds p = 0 := by
  constructor
  · exact Threads.total_eq_zero_iff.mpr fun c hc => by rw [hidle c hc]; rfl
  · exact Threads.total_eq_zero_iff.mpr fun c hc => by rw [hidle c hc]; rfl

/-- A part of a count is nothing if the whole is. -/
theorem countAt_eq_zero_of_true {β : Type} {n : Nat} {places : Nat → β}
    {items : β → List (KgmThread a)} (h : countAt n places items (fun _ => true) = 0)
    (p : KgmThread a → Bool) : countAt n places items p = 0 := by
  refine Threads.total_eq_zero_iff.mpr fun t ht => ?_
  have hzero := Threads.total_eq_zero_iff.mp h t ht
  rw [List.countP_true] at hzero
  rw [List.eq_nil_of_length_eq_zero hzero, List.countP_nil]

theorem count_eq_countP {β : Type} [DecidableEq β] (x : β) (items : List β) :
    items.count x = items.countP fun y => decide (y = x) := rfl

/-- Between the calls nothing is under way. -/
theorem idle_empty (h : Kept m capacity s) (hidle : ∀ c < s.numCallers, s.callers c = .outside) :
    s.workqueue.items = [] ∧ s.retqueue.items = [] ∧
      countAt m.numWorkers s.workers WorkerPlace.executes (fun _ => true) = 0 ∧
      countAt m.numWorkers s.workers WorkerPlace.holds (fun _ => true) = 0 := by
  -- nothing is awaited
  have hway := h.under_way fun _ => true
  rw [(idle_counts hidle _).1] at hway
  refine ⟨List.eq_nil_of_length_eq_zero ?_, List.eq_nil_of_length_eq_zero ?_, ?_, ?_⟩
  · rw [← List.countP_true]
    omega
  · rw [← List.countP_true]
    omega
  · omega
  · omega

/-- The invariant has what callers rely on. -/
theorem sound (h : Kept m capacity s) : KgmSound m s := by
  have hresults : ∀ p, s.executed.countP p =
      countAt m.numWorkers s.workers WorkerPlace.holds p + s.retqueue.items.countP p +
        countAt s.numCallers s.callers CallerPlace.holds p +
        (s.returns.filterMap Returned.result?).countP p := by
    intro p
    have hsum := h.ledger.results p
    rwa [h.kept, List.countP_nil, Nat.add_zero] at hsum
  refine ⟨h.answered, ?_, ?_, h.kept, fun hidle => ?_, h.staffed.exists_worker⟩
  · rw [List.subperm_iff_count]
    intro kgmr
    rw [count_eq_countP, count_eq_countP, hresults]
    exact Nat.le_add_left _ _
  · rw [List.subperm_iff_count]
    intro key
    rw [count_eq_countP, count_eq_countP, ← countP_nodes, ← countP_nodes,
      h.ledger.work fun nodes => decide (nodes = key)]
    exact Nat.le_add_left _ _
  · obtain ⟨hwork, hret, hexecutes, hholds⟩ := h.idle_empty hidle
    constructor
    · rw [List.perm_iff_count]
      intro kgmr
      rw [count_eq_countP, count_eq_countP, hresults, hret, List.countP_nil,
        countAt_eq_zero_of_true hholds, (idle_counts hidle _).2, Nat.zero_add]
    · rw [List.perm_iff_count]
      intro key
      rw [List.count_eq_countP, List.count_eq_countP, ← countP_nodes, ← countP_nodes,
        h.ledger.work (· == key), hwork, List.countP_nil, countAt_eq_zero_of_true hexecutes,
        Nat.zero_add]

/-- A caller that gives up has no result. -/
theorem broken (h : Kept m capacity s) (hfinds : ¬FindsResult (mailboxCalls _) m s act) :
    ∃ s', kgmStep (mailboxCalls _) m s act = .ok (s', ()) ∧ ¬KgmSound m s' := by
  cases act with
  | caller c =>
    simp only [FindsResult, not_or, not_forall, Bool.not_eq_true] at hfinds
    obtain ⟨hretries, kgmt, hc, hplace, hready⟩ := hfinds
    have hempty : s.retqueue.items = [] := by
      by_contra hitems
      have hread := (Mailbox.readable_iff h.ready.retOpen).mpr hitems
      exact Bool.false_ne_true (hready.symm.trans hread)
    have htake : s.retqueue.take = (s.retqueue, none) := by
      rcases s.retqueue.take_cases with ⟨-, x, q', -, hitems, -⟩ | ⟨-, htake⟩
      · rw [hempty] at hitems
        cases hitems
      · exact htake
    refine ⟨s.leave c kgmt .gaveUp, ?_, fun hsound => ?_⟩
    · simp only [kgmStep, if_pos hc, KgmSystem.stepCaller, hplace, mailboxCalls, htake, hretries]
      rfl
    · obtain ⟨kgmr, hresult, -⟩ := hsound.answered ⟨kgmt, .gaveUp⟩
        (List.mem_append_right _ List.mem_cons_self)
      cases hresult
  | _ => exact absurd trivial hfinds

end Kept

/-- Over mailboxes: callers get what they rely on in all states of a run, if and only if none of them
gives up. -/
theorem mail_sound_iff (hworkers : 0 < m.numWorkers) {numCallers : Nat} {acts : List (KgmAct a)}
    (hquiet : Machine.Meets (kgmStep (mailboxCalls _) m) (Quiet capacity)
      (.init (.create capacity) (.create capacity) numCallers) acts) :
    Machine.Always (kgmStep (mailboxCalls _) m) (KgmSound m)
        (.init (.create capacity) (.create capacity) numCallers) acts ↔
      Machine.Meets (kgmStep (mailboxCalls _) m) (FindsResult (mailboxCalls _) m)
        (.init (.create capacity) (.create capacity) numCallers) acts := by
  refine Machine.always_iff_meets_of (I := Kept m capacity) (fun s h => h.sound) ?_ ?_
    (.init m hworkers capacity numCallers) hquiet
  · intro s act s' r h hquiet hfinds hstep
    obtain ⟨s₁, hstep₁, hmoves⟩ := kgmStep_moves m s act
    cases hstep.symm.trans hstep₁
    exact h.step hquiet hfinds hmoves
  · intro s act h _ hfinds
    obtain ⟨s', hstep, hbroken⟩ := h.broken hfinds
    exact ⟨s', (), hstep, hbroken⟩

end DVP.Kgm
