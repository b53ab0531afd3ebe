import DVP.Kgm.Queues
import Mathlib.Data.Prod.Lex

/-!
# No call is stranded

The callers of a manager wait for each other: a result that is not its own keeps a caller from reading
on until it is back in `retqueue`. With a manager whose callers try again, and at most as many calls
at a time as the queues have room for, the threads can still always go on so that all calls return
(`kgm_completes`), from every state that a run without pops reaches. First everything that is under way
goes to `retqueue` (`exists_lower_rank`), and then a caller goes through the queue until its own result
comes out (`exists_return`).

No such thing holds of every fair schedule: two callers can take each other's results and put them
back again and again.
-/

namespace DVP.Kgm

open DVP.Sosal (Arch Fault Queue)

variable {a : Arch} {m : Manager} {s s' s'' : MailSystem a} {capacity : Nat}

/-- A step of a thread that is inside a call, or of a worker. -/
def KgmAct.GoesOn : KgmAct a → Prop
  | .caller _ => True
  | .worker _ => True
  | .finish _ _ => True
  | _ => False

/-- Such a step neither starts a call nor pops a queue. -/
theorem KgmAct.GoesOn.quiet {Q : Type} {act : KgmAct a} (h : act.GoesOn) (s : KgmSystem Q a) :
    Quiet capacity s act := by
  cases act with
  | call => exact h.elim
  | popWork => exact h.elim
  | popRet => exact h.elim
  | _ => trivial

/-- The threads can bring the manager there, without new calls. -/
def Reaches (m : Manager) (s s' : MailSystem a) : Prop :=
  ∃ acts : List (KgmAct a), (∀ act ∈ acts, act.GoesOn) ∧
    ∃ answers, Machine.run (kgmStep (mailboxCalls _) m) s acts = .ok (s', answers)

namespace Reaches

/-- No steps reach the same state. -/
theorem refl (m : Manager) (s : MailSystem a) : Reaches m s s :=
  ⟨[], fun _ hact => absurd hact List.not_mem_nil, [], rfl⟩

/-- Steps after steps are steps. -/
theorem trans (h : Reaches m s s') (h' : Reaches m s' s'') : Reaches m s s'' := by
  obtain ⟨acts, hon, answers, hrun⟩ := h
  obtain ⟨acts', hon', answers', hrun'⟩ := h'
  refine ⟨acts ++ acts', fun act hact => ?_, _, Machine.run_append hrun hrun'⟩
  rcases List.mem_append.mp hact with hact | hact
  · exact hon act hact
  · exact hon' act hact

/-- One step reaches its state. -/
theorem single (act : KgmAct a) (hon : act.GoesOn)
    (hstep : kgmStep (mailboxCalls _) m s act = .ok (s', ())) : Reaches m s s' := by
  refine ⟨[act], fun act' hact => ?_, [()], Machine.run_cons_ok hstep rfl⟩
  rwa [List.mem_singleton.mp hact]

end Reaches

/-- A manager whose callers try again keeps its invariant. -/
theorem Kept.reaches (h : Kept m capacity s) (hretries : m.retries = true)
    (hreach : Reaches m s s') : Kept m capacity s' := by
  obtain ⟨acts, hon, answers, hrun⟩ := hreach
  have hmeets : Machine.Meets (kgmStep (mailboxCalls _) m) (fun _ act => act.GoesOn) s acts :=
    Machine.meets_of_forall fun _ => hon
  refine Machine.run_invariant_of_ok (I := Kept m capacity) ?_ h hmeets hrun
  intro s act s' r h hon hstep
  obtain ⟨s₁, hstep₁, hmoves⟩ := kgmStep_moves m s act
  cases hstep.symm.trans hstep₁
  refine h.step (hon.quiet s) ?_ hmoves
  cases act with
  | caller c => exact .inl hretries
  | _ => trivial

/-! ## Through the event waits -/

section Waits

variable {c w : Nat} {kgmt kgmr : KgmThread a} {gate : Gate}

/-- A caller that is where it is stays there. -/
theorem setCaller_self {place : CallerPlace a} (hplace : s.callers c = place) :
    s.setCaller c place = s := by
  rw [KgmSystem.setCaller, ← hplace, Function.update_eq_self]

/-- A worker that is where it is stays there. -/
theorem setWorker_self {place : WorkerPlace a} (hplace : s.workers w = place) :
    s.setWorker w place = s := by
  rw [KgmSystem.setWorker, ← hplace, Function.update_eq_self]

/-- A caller that issues gets past the wait while there is room. -/
theorem reaches_issuing (hc : c < s.numCallers) (hplace : s.callers c = .issuing kgmt gate)
    (hready : s.workqueue.writable = true) :
    Reaches m s (s.setCaller c (.issuing kgmt .locking)) := by
  cases gate with
  | waiting =>
    refine .single (.caller c) trivial ?_
    simp only [kgmStep, if_pos hc, KgmSystem.stepCaller, hplace, mailboxCalls, hready, if_true]
    rfl
  | locking => exact (setCaller_self hplace).symm ▸ .refl m s

/-- A caller that collects gets past the wait while there are results. -/
theorem reaches_collecting (hc : c < s.numCallers) (hplace : s.callers c = .collecting kgmt gate)
    (hready : s.retqueue.readable = true) :
    Reaches m s (s.setCaller c (.collecting kgmt .locking)) := by
  cases gate with
  | waiting =>
    refine .single (.caller c) trivial ?_
    simp only [kgmStep, if_pos hc, KgmSystem.stepCaller, hplace, mailboxCalls, hready, if_true]
    rfl
  | locking => exact (setCaller_self hplace).symm ▸ .refl m s

/-- A caller that puts a result back gets past the wait while there is room. -/
theorem reaches_returning (hc : c < s.numCallers)
    (hplace : s.callers c = .returning kgmt kgmr gate) (hready : s.retqueue.writable = true) :
    Reaches m s (s.setCaller c (.returning kgmt kgmr .locking)) := by
  cases gate with
  | waiting =>
    refine .single (.caller c) trivial ?_
    simp only [kgmStep, if_pos hc, KgmSystem.stepCaller, hplace, mailboxCalls, hready, if_true]
    rfl
  | locking => exact (setCaller_self hplace).symm ▸ .refl m s

/-- A worker that reads gets past the wait while there is work. -/
theorem reaches_reading (hw : w < m.numWorkers) (hplace : s.workers w = .reading gate)
    (hready : s.workqueue.readable = true) :
    Reaches m s (s.setWorker w (.reading .locking)) := by
  cases gate with
  | waiting =>
    refine .single (.worker w) trivial ?_
    simp only [kgmStep, if_pos hw, KgmSystem.stepWorker, hplace, mailboxCalls, hready, if_true]
    rfl
  | locking => exact (setWorker_self hplace).symm ▸ .refl m s

/-- A worker that writes gets past the wait while there is room. -/
theorem reaches_writing (hw : w < m.numWorkers) (hplace : s.workers w = .writing kgmt gate)
    (hready : s.retqueue.writable = true) :
    Reaches m s (s.setWorker w (.writing kgmt .locking)) := by
  cases gate with
  | waiting =>
    refine .single (.worker w) trivial ?_
    simp only [kgmStep, if_pos hw, KgmSystem.stepWorker, hplace, mailboxCalls, hready, if_true]
    rfl
  | locking => exact (setWorker_self hplace).symm ▸ .refl m s

/-- A mailbox that does not refuse lets writers in. -/
theorem writable_of_not_refuses {q : Mailbox (KgmThread a)} (h : ¬Refuses q) :
    q.writable = true := by
  rw [Refuses, not_or, Nat.not_le] at h
  exact (Mailbox.writable_iff (by simpa using h.1)).mpr h.2

/-- A mailbox that does not refuse takes an item. -/
theorem exists_put {q : Mailbox (KgmThread a)} (h : ¬Refuses q) (x : KgmThread a) :
    ∃ q', q.put x = (q', true) ∧ Puts q q' x := by
  rcases puts_or_refuses q x with hput | ⟨-, hfull⟩
  · exact hput
  · exact absurd hfull h

/-- A mailbox with items gives the first one. -/
theorem exists_take {q : Mailbox (KgmThread a)} {x : KgmThread a} {items : List (KgmThread a)}
    (hopen : q.closed = false) (hitems : q.items = x :: items) :
    ∃ q', q.take = (q', some x) ∧ q'.items = items := by
  rcases takes_or_withholds q with ⟨y, q', htake, htakes⟩ | ⟨-, hclosed | hempty⟩
  · obtain ⟨rfl, hrest⟩ := List.cons.inj (hitems.symm.trans htakes.items)
    exact ⟨q', htake, hrest.symm⟩
  · rw [hopen] at hclosed
    cases hclosed
  · rw [hitems] at hempty
    cases hempty

end Waits

/-! ## A call returns -/

/-- A caller that takes a result of other nodes can put it back at the end of the queue. -/
theorem exists_round (hretries : m.retries = true) {c : Nat} {kgmt x : KgmThread a} {gate : Gate}
    {rest : List (KgmThread a)} (h : Kept m capacity s) (hc : c < s.numCallers)
    (hplace : s.callers c = .collecting kgmt gate) (hitems : s.retqueue.items = x :: rest)
    (hother : kgmt.nodes ≠ x.nodes) :
    ∃ q', Reaches m s { s.setCaller c (.collecting kgmt .waiting) with retqueue := q' } ∧
      q'.items = rest ++ [x] := by
  have hready : s.retqueue.readable = true := by
    rw [Mailbox.readable_iff h.ready.retOpen, hitems]
    exact List.cons_ne_nil _ _
  obtain ⟨q, htake, hrest⟩ := exists_take h.ready.retOpen hitems
  have htaken : Reaches m s { s.setCaller c (.returning kgmt x .waiting) with retqueue := q } := by
    refine (reaches_collecting hc hplace hready).trans (.single (.caller c) trivial ?_)
    simp only [kgmStep, KgmSystem.setCaller, if_pos hc, KgmSystem.stepCaller, Function.update_self,
      mailboxCalls, htake, DVP.Sosal.ok_bind, if_neg hother, Function.update_idem]
    rfl
  -- what it took has left room in the queue
  have hroom : ¬Refuses q :=
    (h.reaches hretries htaken).not_refuses_back hc (Function.update_self ..)
  obtain ⟨q', hput, hputs⟩ := exists_put hroom x
  refine ⟨q', htaken.trans ?_, by rw [hputs.items, hrest]⟩
  refine (reaches_returning (s := { s.setCaller c (.returning kgmt x .waiting) with retqueue := q })
    hc (Function.update_self ..) (writable_of_not_refuses hroom)).trans
    (.single (.caller c) trivial ?_)
  simp only [kgmStep, KgmSystem.setCaller, if_pos hc, KgmSystem.stepCaller, Function.update_self,
    mailboxCalls, hput, DVP.Sosal.ok_bind, Function.update_idem]
  rfl

/-- A caller whose result is in `retqueue` can get it. -/
theorem exists_return (hretries : m.retries = true) {c : Nat} {kgmt own : KgmThread a} {gate : Gate}
    {others post : List (KgmThread a)} (h : Kept m capacity s) (hc : c < s.numCallers)
    (hplace : s.callers c = .collecting kgmt gate)
    (hitems : s.retqueue.items = others ++ own :: post)
    (hothers : ∀ x ∈ others, kgmt.nodes ≠ x.nodes) (hown : kgmt.nodes = own.nodes) :
    ∃ s', Reaches m s s' ∧ s'.active + 1 = s.active := by
  -- Induction on the results in front of it, each of which goes to the end of the queue.
  induction others generalizing s gate post with
  | nil =>
    have hready : s.retqueue.readable = true := by
      rw [Mailbox.readable_iff h.ready.retOpen, hitems]
      exact List.cons_ne_nil _ _
    obtain ⟨q', htake, -⟩ := exists_take h.ready.retOpen hitems
    refine ⟨{ s.leave c kgmt (.result own) with retqueue := q' },
      (reaches_collecting hc hplace hready).trans (.single (.caller c) trivial ?_), ?_⟩
    · simp only [kgmStep, KgmSystem.setCaller, if_pos hc, KgmSystem.stepCaller, Function.update_self,
        mailboxCalls, htake, DVP.Sosal.ok_bind, if_pos hown, KgmSystem.leave, Function.update_idem]
      rfl
    · have hsum := active_update hc hplace .outside
      simp only [CallerPlace.active] at hsum
      simp only [KgmSystem.active, KgmSystem.leave, KgmSystem.setCaller] at hsum ⊢
      omega
  | cons x others ih =>
    rw [List.cons_append] at hitems
    obtain ⟨q', hround, hitems'⟩ :=
      exists_round hretries h hc hplace hitems (hothers x List.mem_cons_self)
    rw [List.append_assoc, List.cons_append] at hitems'
    obtain ⟨s', hreach, hactive⟩ := ih (h.reaches hretries hround) hc (Function.update_self ..)
      hitems' fun y hy => hothers y (List.mem_cons_of_mem _ hy)
    refine ⟨s', hround.trans hreach, hactive.trans ?_⟩
    have hsum := active_update hc hplace (.collecting kgmt .waiting)
    simp only [CallerPlace.active] at hsum
    simp only [KgmSystem.active, KgmSystem.setCaller] at hsum ⊢
    omega

/-! ## What is under way goes to `retqueue` -/

/-- How far the items and the results are from `retqueue`. -/
def KgmSystem.rank (m : Manager) (s : MailSystem a) : Nat :=
  5 * countAt s.numCallers s.callers CallerPlace.issues (fun _ => true) +
    4 * s.workqueue.items.length +
    3 * countAt m.numWorkers s.workers WorkerPlace.executes (fun _ => true) +
    2 * countAt m.numWorkers s.workers WorkerPlace.holds (fun _ => true) +
    countAt s.numCallers s.callers CallerPlace.holds (fun _ => true)

/-- Where there is something to count there is a thread that has it. -/
theorem exists_place {β : Type} {n : Nat} {places : Nat → β} {items : β → List (KgmThread a)}
    (h : 0 < countAt n places items fun _ => true) : ∃ t < n, items (places t) ≠ [] := by
  by_contra hnone
  push Not at hnone
  have hzero : countAt n places items (fun _ => true) = 0 :=
    Threads.total_eq_zero_iff.mpr fun t ht => by rw [hnone t ht, List.countP_nil]
  omega

/-- As long as something is not in `retqueue` yet, the threads can bring it closer. -/
theorem exists_lower_rank (h : Kept m capacity s) (hpos : 0 < s.rank m) :
    ∃ s', Reaches m s s' ∧ s'.rank m < s.rank m ∧ s'.active = s.active := by
  by_cases hissues : 0 < countAt s.numCallers s.callers CallerPlace.issues fun _ => true
  · obtain ⟨c, hc, hplace⟩ := exists_place hissues
    cases hat : s.callers c with
    | issuing kgmt gate =>
      have hroom := h.not_refuses_work hc hat
      obtain ⟨q', hput, hputs⟩ := exists_put hroom kgmt
      have hlock := reaches_issuing (m := m) hc hat (writable_of_not_refuses hroom)
      refine ⟨{ s.setCaller c (.collecting kgmt .waiting) with
        workqueue := q'
        accepted := s.accepted ++ [kgmt] }, hlock.trans (.single (.caller c) trivial ?_), ?_, ?_⟩
      · simp only [kgmStep, KgmSystem.setCaller, if_pos hc, KgmSystem.stepCaller,
          Function.update_self, mailboxCalls, hput, DVP.Sosal.ok_bind, if_true, Function.update_idem]
        rfl
      · have hsum := countAt_update hc hat CallerPlace.issues (fun _ => true)
          (.collecting kgmt .waiting)
        have hsum' := countAt_update hc hat CallerPlace.holds (fun _ => true)
          (.collecting kgmt .waiting)
        simp only [CallerPlace.issues, CallerPlace.holds, List.countP_true, List.length_nil,
          List.length_singleton] at hsum hsum'
        simp only [KgmSystem.rank, KgmSystem.setCaller, hputs.items, List.length_append,
          List.length_singleton]
        omega
      · have hsum := active_update hc hat (.collecting kgmt .waiting)
        simp only [CallerPlace.active] at hsum
        simp only [KgmSystem.active, KgmSystem.setCaller] at hsum ⊢
        omega
    | _ => exact absurd (by rw [hat]; rfl) hplace
  by_cases hholds : 0 < countAt s.numCallers s.callers CallerPlace.holds fun _ => true
  · obtain ⟨c, hc, hplace⟩ := exists_place hholds
    cases hat : s.callers c with
    | returning kgmt kgmr gate =>
      have hroom := h.not_refuses_back hc hat
      obtain ⟨q', hput, hputs⟩ := exists_put hroom kgmr
      have hlock := reaches_returning (m := m) hc hat (writable_of_not_refuses hroom)
      refine ⟨{ s.setCaller c (.collecting kgmt .waiting) with retqueue := q' },
        hlock.trans (.single (.caller c) trivial ?_), ?_, ?_⟩
      · simp only [kgmStep, KgmSystem.setCaller, if_pos hc, KgmSystem.stepCaller,
          Function.update_self, mailboxCalls, hput, DVP.Sosal.ok_bind, Function.update_idem]
        rfl
      · have hsum := countAt_update hc hat CallerPlace.issues (fun _ => true)
          (.collecting kgmt .waiting)
        have hsum' := countAt_update hc hat CallerPlace.holds (fun _ => true)
          (.collecting kgmt .waiting)
        simp only [CallerPlace.issues, CallerPlace.holds, List.countP_true, List.length_nil,
          List.length_singleton] at hsum hsum'
        simp only [KgmSystem.rank, KgmSystem.setCaller]
        omega
      · have hsum := active_update hc hat (.collecting kgmt .waiting)
        simp only [CallerPlace.active] at hsum
        simp only [KgmSystem.active, KgmSystem.setCaller] at hsum ⊢
        omega
    | _ => exact absurd (by rw [hat]; rfl) hplace
  by_cases hwrites : 0 < countAt m.numWorkers s.workers WorkerPlace.holds fun _ => true
  · obtain ⟨w, hw, hplace⟩ := exists_place hwrites
    cases hat : s.workers w with
    | writing kgmt gate =>
      have hroom := h.not_refuses_result hw hat
      obtain ⟨q', hput, hputs⟩ := exists_put hroom kgmt
      have hlock := reaches_writing hw hat (writable_of_not_refuses hroom)
      refine ⟨{ s.setWorker w (.reading .waiting) with retqueue := q' },
        hlock.trans (.single (.worker w) trivial ?_), ?_, rfl⟩
      · simp only [kgmStep, KgmSystem.setWorker, if_pos hw, KgmSystem.stepWorker,
          Function.update_self, mailboxCalls, hput, DVP.Sosal.ok_bind, Function.update_idem]
        rfl
      · have hsum := countAt_update hw hat WorkerPlace.executes (fun _ => true) (.reading .waiting)
        have hsum' := countAt_update hw hat WorkerPlace.holds (fun _ => true) (.reading .waiting)
        simp only [WorkerPlace.executes, WorkerPlace.holds, List.countP_true, List.length_nil,
          List.length_singleton] at hsum hsum'
        simp only [KgmSystem.rank, KgmSystem.setWorker]
        omega
    | _ => exact absurd (by rw [hat]; rfl) hplace
  by_cases hexecutes : 0 < countAt m.numWorkers s.workers WorkerPlace.executes fun _ => true
  · obtain ⟨w, hw, hplace⟩ := exists_place hexecutes
    cases hat : s.workers w with
    | executing kgmt =>
      refine ⟨_, .single (.finish w 0) trivial rfl, ?_, ?_⟩
      · have hsum := countAt_update hw hat WorkerPlace.executes (fun _ => true)
          (.writing { kgmt with numNodesExecuted := 0 } .waiting)
        have hsum' := countAt_update hw hat WorkerPlace.holds (fun _ => true)
          (.writing { kgmt with numNodesExecuted := 0 } .waiting)
        simp only [WorkerPlace.executes, WorkerPlace.holds, List.countP_true, List.length_nil,
          List.length_singleton] at hsum hsum'
        simp only [KgmSystem.rank, KgmSystem.finish, if_pos hw, hat, KgmSystem.setWorker]
        omega
      · simp only [KgmSystem.finish, if_pos hw, hat]
        rfl
    | _ => exact absurd (by rw [hat]; rfl) hplace
  -- Only `workqueue` has items, and the worker that is left reads it.
  have hwork : s.workqueue.items ≠ [] := by
    intro hempty
    rw [KgmSystem.rank, hempty, List.length_nil] at hpos
    omega
  obtain ⟨w, hw, hpresent⟩ := h.staffed.exists_worker
  have hidle : ∀ items : WorkerPlace a → List (KgmThread a),
      ¬0 < countAt m.numWorkers s.workers items (fun _ => true) → items (s.workers w) = [] := by
    intro items hnone
    have hzero := Threads.total_eq_zero_iff.mp (Nat.eq_zero_of_not_pos hnone) w hw
    rw [List.countP_true] at hzero
    exact List.eq_nil_of_length_eq_zero hzero
  cases hat : s.workers w with
  | reading gate =>
    obtain ⟨kgmt, items, hitems⟩ := List.exists_cons_of_ne_nil hwork
    obtain ⟨q', htake, hrest⟩ := exists_take h.ready.workOpen hitems
    have hlock := reaches_reading hw hat ((Mailbox.readable_iff h.ready.workOpen).mpr hwork)
    refine ⟨{ s.setWorker w (.executing { kgmt with numNodesExecuted := 0 }) with workqueue := q' },
      hlock.trans (.single (.worker w) trivial ?_), ?_, rfl⟩
    · simp only [kgmStep, KgmSystem.setWorker, if_pos hw, KgmSystem.stepWorker,
        Function.update_self, mailboxCalls, htake, DVP.Sosal.ok_bind, Function.update_idem]
      rfl
    · have hsum := countAt_update hw hat WorkerPlace.executes (fun _ => true)
        (.executing { kgmt with numNodesExecuted := 0 })
      have hsum' := countAt_update hw hat WorkerPlace.holds (fun _ => true)
        (.executing { kgmt with numNodesExecuted := 0 })
      simp only [WorkerPlace.executes, WorkerPlace.holds, List.countP_true, List.length_nil,
        List.length_singleton] at hsum hsum'
      simp only [KgmSystem.rank, KgmSystem.setWorker, hitems, hrest, List.length_cons]
      omega
  | executing kgmt =>
    have hnone := hidle _ hexecutes
    rw [hat] at hnone
    cases hnone
  | writing kgmt gate =>
    have hnone := hidle _ hwrites
    rw [hat] at hnone
    cases hnone
  | exited => exact absurd hat hpresent

/-- When everything is in `retqueue`, a caller that has not returned finds its result there. -/
theorem exists_result (h : Kept m capacity s) (hrank : s.rank m = 0) {c : Nat}
    (hc : c < s.numCallers) (hplace : s.callers c ≠ .outside) :
    ∃ kgmt gate, s.callers c = .collecting kgmt gate ∧
      ∃ own ∈ s.retqueue.items, kgmt.nodes = own.nodes := by
  -- a count of zero leaves nothing at any of the places
  have hzero : ∀ {β : Type} {n : Nat} {places : Nat → β} {items : β → List (KgmThread a)},
      countAt n places items (fun _ => true) = 0 → ∀ t < n, items (places t) = [] := by
    intro β n places items hcount t ht
    have hnone := Threads.total_eq_zero_iff.mp hcount t ht
    rw [List.countP_true] at hnone
    exact List.eq_nil_of_length_eq_zero hnone
  rw [KgmSystem.rank] at hrank
  have hissues := hzero (show countAt s.numCallers s.callers CallerPlace.issues (fun _ => true) = 0
    by omega) c hc
  have hholds := hzero (show countAt s.numCallers s.callers CallerPlace.holds (fun _ => true) = 0
    by omega) c hc
  cases hat : s.callers c with
  | outside => exact absurd hat hplace
  | issuing kgmt gate =>
    rw [hat] at hissues
    cases hissues
  | returning kgmt kgmr gate =>
    rw [hat] at hholds
    cases hholds
  | collecting kgmt gate =>
    refine ⟨kgmt, gate, rfl, ?_⟩
    -- the caller awaits an item with its nodes, and `retqueue` alone has any items
    have hway := h.under_way (· == kgmt.nodes)
    have hmine := Threads.le_total s.callers
      (fun place => (CallerPlace.awaits place).countP (·.nodes == kgmt.nodes)) hc
    rw [hat] at hmine
    simp only [CallerPlace.awaits, List.countP_singleton, beq_self_eq_true, if_true] at hmine
    change 1 ≤ countAt s.numCallers s.callers CallerPlace.awaits _ at hmine
    have hwork : s.workqueue.items = [] := List.eq_nil_of_length_eq_zero (by omega)
    have hexecutes : countAt m.numWorkers s.workers WorkerPlace.executes (fun _ => true) = 0 := by
      omega
    have hwrites : countAt m.numWorkers s.workers WorkerPlace.holds (fun _ => true) = 0 := by omega
    have hholds : countAt s.numCallers s.callers CallerPlace.holds (fun _ => true) = 0 := by omega
    rw [hwork, List.countP_nil, Kept.countAt_eq_zero_of_true hexecutes,
      Kept.countAt_eq_zero_of_true hwrites, Kept.countAt_eq_zero_of_true hholds] at hway
    obtain ⟨own, hmem, hown⟩ := List.countP_pos_iff.mp
      (show 0 < s.retqueue.items.countP (·.nodes == kgmt.nodes) by omega)
    exact ⟨own, hmem, (beq_iff_eq.mp hown).symm⟩

/-- The result of a caller, with the results of other nodes before it. -/
theorem exists_first {items : List (KgmThread a)} {key : NodesKey a}
    (h : ∃ own ∈ items, key = own.nodes) :
    ∃ others own post, items = others ++ own :: post ∧ (∀ x ∈ others, key ≠ x.nodes) ∧
      key = own.nodes := by
  induction items with
  | nil =>
    obtain ⟨own, hmem, -⟩ := h
    cases hmem
  | cons x items ih =>
    by_cases hx : key = x.nodes
    · exact ⟨[], x, items, rfl, fun y hy => absurd hy List.not_mem_nil, hx⟩
    · have hrest : ∃ own ∈ items, key = own.nodes := by
        obtain ⟨own, hmem, hown⟩ := h
        rcases List.mem_cons.mp hmem with rfl | hmem
        · exact absurd hown hx
        · exact ⟨own, hmem, hown⟩
      obtain ⟨others, own, post, rfl, hothers, hown⟩ := ih hrest
      refine ⟨x :: others, own, post, rfl, fun y hy => ?_, hown⟩
      rcases List.mem_cons.mp hy with rfl | hy
      · exact hx
      · exact hothers y hy

/-- The threads can always bring all calls to their end. -/
theorem exists_idle (hretries : m.retries = true) (h : Kept m capacity s) :
    ∃ s', Reaches m s s' ∧ ∀ c < s'.numCallers, s'.callers c = .outside := by
  -- Induction on the calls in progress, and for as many on what is not in `retqueue` yet.
  induction hlex : (toLex (s.active, s.rank m) : ℕ ×ₗ ℕ) using WellFoundedLT.induction generalizing s
  case ind lex ih =>
    subst hlex
    rcases Nat.eq_zero_or_pos (s.rank m) with hrank | hpos
    · by_cases hidle : ∀ c < s.numCallers, s.callers c = .outside
      · exact ⟨s, .refl m s, hidle⟩
      · push Not at hidle
        obtain ⟨c, hc, hplace⟩ := hidle
        obtain ⟨kgmt, gate, hat, hresult⟩ := exists_result h hrank hc hplace
        obtain ⟨others, own, post, hitems, hothers, hown⟩ := exists_first hresult
        obtain ⟨s₁, hreach, hactive⟩ := exists_return hretries h hc hat hitems hothers hown
        have hless : toLex (s₁.active, s₁.rank m) < toLex (s.active, s.rank m) :=
          Prod.Lex.toLex_lt_toLex.mpr (.inl (by simp only; omega))
        obtain ⟨s', hreach', hidle'⟩ := ih _ hless (h.reaches hretries hreach) rfl
        exact ⟨s', hreach.trans hreach', hidle'⟩
    · obtain ⟨s₁, hreach, hrank, hactive⟩ := exists_lower_rank h hpos
      have hless : toLex (s₁.active, s₁.rank m) < toLex (s.active, s.rank m) :=
        Prod.Lex.toLex_lt_toLex.mpr (.inr ⟨hactive, hrank⟩)
      obtain ⟨s', hreach', hidle'⟩ := ih _ hless (h.reaches hretries hreach) rfl
      exact ⟨s', hreach.trans hreach', hidle'⟩

/-- Whatever the threads of the CPU manager have done, without pops and with at most ten calls at a
time, they can go on so that all calls return, each with a result of its own nodes, all nodes that
were asked for have been executed once, and both queues are empty. -/
theorem kgm_completes {workqueue retqueue : Queue} (hcreate : CreatesQueues a workqueue retqueue)
    {targetNumCores : Nat} (hworkers : 0 < targetNumCores) {numCallers : Nat}
    {acts : List (KgmAct a)}
    (hquiet : Machine.Meets (kgmStep (sosalCalls a) (.cpu targetNumCores)) (Quiet 10)
      (.init workqueue retqueue numCallers) acts) :
    ∃ acts' s' answers, (∀ act ∈ acts', act.GoesOn) ∧
      Machine.run (kgmStep (sosalCalls a) (.cpu targetNumCores))
        (.init workqueue retqueue numCallers) (acts ++ acts') = .ok (s', answers) ∧
      (∀ c < s'.numCallers, s'.callers c = .outside) ∧ KgmSound (.cpu targetNumCores) s' ∧
      s'.workqueue.ringb.numBytesUsed = 0 ∧ s'.retqueue.ringb.numBytesUsed = 0 := by
  have hsame := hcreate.same numCallers
  have hlock := kgm_lockstep (a := a) (.cpu targetNumCores)
  rw [hlock.meets_iff (D := Quiet 10) (fun s t act h => h.quiet_iff act) hsame] at hquiet
  obtain ⟨t, answers, hrun, hkept⟩ := Machine.run_invariant
    (I := Kept (.cpu targetNumCores) 10) (fun s act h hquiet => by
      obtain ⟨s', hstep, hmoves⟩ := kgmStep_moves (.cpu targetNumCores) s act
      refine ⟨s', (), hstep, h.step hquiet ?_ hmoves⟩
      cases act with
      | caller c => exact .inl rfl
      | _ => trivial)
    (.init (.cpu targetNumCores) hworkers 10 numCallers) hquiet
  obtain ⟨t', hreach, hidle⟩ := exists_idle rfl hkept
  have hkept' := hkept.reaches rfl hreach
  obtain ⟨hwork, hret, -, -⟩ := hkept'.idle_empty hidle
  obtain ⟨acts', hon, answers', hrun'⟩ := hreach
  obtain ⟨s', t'', answers'', hrunS, hrunT, hsame'⟩ := hlock.run hsame (acts ++ acts')
  cases hrunT.symm.trans (Machine.run_append hrun hrun')
  have hsound := hsame'.sound_iff.mpr hkept'.sound
  obtain ⟨work, ret, hmirrorW, hmirrorR, rfl⟩ := hsame'
  exact ⟨acts', s', _, hon, hrunS, hidle, hsound, hmirrorW.used_eq_zero hwork,
    hmirrorR.used_eq_zero hret⟩

/-- Two calls of a CPU manager: that of caller 0 from its start to its end, and that of caller 1 until its item
is in `workqueue`. -/
def cpuCalls : List (KgmAct .arch32) :=
  [.call 0 4096 0 3, .caller 0, .caller 0, .worker 1, .worker 1, .finish 1 3, .worker 1, .worker 1,
    .caller 0, .caller 0, .call 1 8192 2 1, .caller 1, .caller 1]

/-- Two callers are on their way, and all calls are answered. -/
theorem kgm_completes_two :
    ∃ workqueue retqueue, CreatesQueues .arch32 workqueue retqueue ∧
      ∃ acts' s' answers, (∀ act ∈ acts', act.GoesOn) ∧
        Machine.run (kgmStep (sosalCalls .arch32) (.cpu 2)) (.init workqueue retqueue 2)
          (cpuCalls ++ acts') = .ok (s', answers) ∧
        (∀ c < s'.numCallers, s'.callers c = .outside) ∧ KgmSound (.cpu 2) s' ∧
        s'.workqueue.ringb.numBytesUsed = 0 ∧ s'.retqueue.ringb.numBytesUsed = 0 := by
  refine ⟨_, _, ⟨⟨some 4096, rfl⟩, ⟨some 8192, rfl⟩⟩, ?_⟩
  refine kgm_completes ⟨⟨some 4096, rfl⟩, ⟨some 8192, rfl⟩⟩ Nat.two_pos ?_
  exact CreatesQueues.quiet_of_few ⟨⟨some 4096, rfl⟩, ⟨some 8192, rfl⟩⟩ (by decide) (by simp [cpuCalls])

end DVP.Kgm
